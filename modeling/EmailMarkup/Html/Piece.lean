import EmailMarkup.Html.Tree
import EmailMarkup.Text.Blank
import EmailMarkup.Text.Search

/-!
# The pieces of an HTML text

The reader takes one piece at a time off the front of a text: a comment, a declaration, a start or
end tag, an element whose content is raw text, or running text. Nothing is an error. What opens no
tag is text, and what is never finished goes on to the end of the text.

`readPieces` ends because every piece takes at least one character, which is what the lemmas on
lengths say.
-/

namespace EmailMarkup.Html

open EmailMarkup.Text

/-- What can stand at one position of an HTML text. -/
inductive Piece where
  | text (content : String)
  | comment (content : String)
  | declaration (content : String)
  | endTag (name : String)
  | startTag (name : String) (attributes : List Attribute) (selfClosing : Bool)
  /-- An element with raw text, up to and including its end tag; `closed` says whether it has one.
  -/
  | rawText (name : String) (attributes : List Attribute) (content : String) (closed : Bool)
  deriving Repr

/-- Characters of the name of an element. -/
def isTagNameChar (c : Char) : Bool :=
  !(isAsciiBlank c || c == '>' || c == '/')

/-- Characters of the name of an attribute. -/
def isAttributeNameChar (c : Char) : Bool :=
  !(isAsciiBlank c || c == '=' || c == '>' || c == '/')

/-- Characters of a value without quotes. -/
def isUnquotedChar (c : Char) : Bool :=
  !(isAsciiBlank c || c == '>')

/-- The value of an attribute after its equals sign and blanks, and what follows it. A quoted value
goes to the next quote of its kind. -/
def readValue (cs : List Char) : List Char × List Char :=
  match cs with
  | c :: rest =>
    if c == '"' || c == '\'' then (rest.takeWhile (· != c), (rest.dropWhile (· != c)).drop 1)
    else (cs.takeWhile isUnquotedChar, cs.dropWhile isUnquotedChar)
  | [] => ([], [])

/-- What follows the name of an attribute: its value, if an equals sign comes next, and the rest. -/
def readValue? (cs : List Char) : Option String × List Char :=
  match cs.dropWhile isAsciiBlank with
  | '=' :: rest =>
    let value := readValue (rest.dropWhile isAsciiBlank)
    (some (String.ofList value.1), value.2)
  -- The blanks were looked past only to find the sign, and are not taken.
  | _ => (none, cs)

/-- Reading a value does not lengthen the text. -/
theorem length_readValue_le (cs : List Char) : (readValue cs).2.length ≤ cs.length := by
  unfold readValue
  split
  · rename_i c rest
    split
    · have := (List.dropWhile_sublist (l := rest) (· != c)).length_le
      simp only [List.length_drop, List.length_cons]
      omega
    · exact (List.dropWhile_sublist _).length_le
  · simp

/-- Reading a value does not lengthen the text. -/
theorem length_readValue?_le (cs : List Char) : (readValue? cs).2.length ≤ cs.length := by
  unfold readValue?
  have hdrop := (List.dropWhile_sublist (l := cs) isAsciiBlank).length_le
  split
  · rename_i rest heq
    rw [heq] at hdrop
    have h₁ := length_readValue_le (rest.dropWhile isAsciiBlank)
    have h₂ := (List.dropWhile_sublist (l := rest) isAsciiBlank).length_le
    simp only [List.length_cons] at hdrop ⊢
    omega
  · exact Nat.le_refl _

/-- The attributes of a start tag, whether the tag closes itself, and what follows the tag. Slashes
and equals signs that belong to no attribute are passed over. -/
def readAttributes (cs : List Char) : List Attribute × Bool × List Char :=
  match cs with
  | [] => ([], false, [])
  | '>' :: rest => ([], false, rest)
  | '/' :: '>' :: rest => ([], true, rest)
  | c :: rest =>
    if isAttributeNameChar c then
      let name := String.ofList (c :: rest.takeWhile isAttributeNameChar)
      let value := readValue? (rest.dropWhile isAttributeNameChar)
      have : value.2.length < (c :: rest).length := by
        have h₁ := length_readValue?_le (rest.dropWhile isAttributeNameChar)
        have h₂ := (List.dropWhile_sublist (l := rest) isAttributeNameChar).length_le
        simp only [List.length_cons, value]
        omega
      let more := readAttributes value.2
      ({ name, value := value.1 } :: more.1, more.2)
    -- A blank, or a slash or an equals sign on its own.
    else readAttributes rest
termination_by cs.length
decreasing_by all_goals (simp only [List.length_cons] at *; omega)

/-- Reading attributes does not lengthen the text. -/
theorem length_readAttributes_le (cs : List Char) : (readAttributes cs).2.2.length ≤ cs.length := by
  fun_induction readAttributes cs with
  | case1 => simp
  | case2 => simp
  | case3 rest => simp only [List.length_cons]; omega
  | case4 c rest _ _ _ _ _ hlt more ih =>
    have hmore : more.2.2.length ≤ _ := ih
    simp only [List.length_cons] at *
    omega
  | case5 c rest _ _ _ ih => simp only [List.length_cons] at *; omega

/-- What follows the next `>`, and the text before it. -/
def upToBracket (cs : List Char) : List Char × List Char :=
  (cs.takeWhile (· != '>'), (cs.dropWhile (· != '>')).drop 1)

/-- What follows a bracket is no longer than the text. -/
theorem length_upToBracket_le (cs : List Char) : (upToBracket cs).2.length ≤ cs.length := by
  have := (List.dropWhile_sublist (l := cs) (· != '>')).length_le
  simp only [upToBracket, List.length_drop]
  omega

/-- A start tag whose name begins a text, together with the content of an element that holds raw
text. -/
def readStartTag (cs : List Char) : Piece × List Char :=
  let name := String.ofList (cs.takeWhile isTagNameChar)
  let head := readAttributes (cs.dropWhile isTagNameChar)
  if isRawText name && !head.2.1 then
    -- The end tag is looked for by how it begins, so `</styles>` ends a `style` too.
    let body := spanFolded ("</".toList ++ lowerChars name.toList) head.2.2
    (.rawText name head.1 (String.ofList body.1) (!body.2.isEmpty), (upToBracket body.2).2)
  else (.startTag name head.1 head.2.1, head.2.2)

/-- Reading a start tag does not lengthen the text. -/
theorem length_readStartTag_le (cs : List Char) : (readStartTag cs).2.length ≤ cs.length := by
  have h₁ := length_readAttributes_le (cs.dropWhile isTagNameChar)
  have h₂ := (List.dropWhile_sublist (l := cs) isTagNameChar).length_le
  unfold readStartTag
  simp only
  split
  · have happ := congrArg List.length (spanFolded_append
      ("</".toList ++ lowerChars (String.ofList (cs.takeWhile isTagNameChar)).toList)
      (readAttributes (cs.dropWhile isTagNameChar)).2.2)
    have hup := length_upToBracket_le (spanFolded
      ("</".toList ++ lowerChars (String.ofList (cs.takeWhile isTagNameChar)).toList)
      (readAttributes (cs.dropWhile isTagNameChar)).2.2).2
    simp only [List.length_append] at happ ⊢
    omega
  · exact Nat.le_trans h₁ h₂

/-- Running text that begins with `c` and goes on to the next `<`. -/
def readText (c : Char) (cs : List Char) : Piece × List Char :=
  (.text (String.ofList (c :: cs.takeWhile (· != '<'))), cs.dropWhile (· != '<'))

/-- A declaration: everything up to and including the next `>`. -/
def readDeclaration (cs : List Char) : Piece × List Char :=
  -- A declaration that is never closed has no bracket to keep.
  let bracket := (cs.dropWhile (· != '>')).take 1
  (.declaration (String.ofList ('<' :: cs.takeWhile (· != '>') ++ bracket)), (upToBracket cs).2)

/-- The piece that a `<` begins, given what follows the `<`. -/
def readMarkup (cs : List Char) : Piece × List Char :=
  match cs with
  | '!' :: '-' :: '-' :: rest =>
    let body := upToMark "-->".toList rest
    (.comment (String.ofList body.1), body.2)
  | '!' :: _ => readDeclaration cs
  | '?' :: _ => readDeclaration cs
  | '/' :: c :: rest =>
    if c.isAlpha then
      let body := upToBracket (c :: rest)
      (.endTag (String.ofList (trimChars body.1)), body.2)
    -- A slash that no letter follows is text, and so is the bracket before it.
    else readText '<' cs
  | c :: _ => if c.isAlpha then readStartTag cs else readText '<' cs
  | [] => readText '<' cs

/-- What a `<` begins does not lengthen the text after it. -/
theorem length_readMarkup_le (cs : List Char) : (readMarkup cs).2.length ≤ cs.length := by
  have htext : (readText '<' cs).2.length ≤ cs.length := (List.dropWhile_sublist _).length_le
  unfold readMarkup
  split
  · rename_i rest
    have := length_upToMark_le "-->".toList rest
    simp only [List.length_cons]
    omega
  · exact length_upToBracket_le _
  · exact length_upToBracket_le _
  · rename_i c rest
    split
    · have := length_upToBracket_le (c :: rest)
      simp only [List.length_cons] at *
      omega
    · exact htext
  · split
    · exact length_readStartTag_le _
    · exact htext
  · exact htext

/-- The piece at the start of a text that is not empty, and what follows it. -/
def readPiece (c : Char) (cs : List Char) : Piece × List Char :=
  if c == '<' then readMarkup cs else readText c cs

/-- Every piece takes at least one character. -/
theorem length_readPiece_lt (c : Char) (cs : List Char) :
    (readPiece c cs).2.length < (c :: cs).length := by
  unfold readPiece
  simp only [List.length_cons]
  split
  · have := length_readMarkup_le cs; omega
  · have : (readText c cs).2.length ≤ cs.length := (List.dropWhile_sublist _).length_le
    omega

/-- The pieces of a text, from left to right. -/
def readPieces (cs : List Char) : List Piece :=
  match cs with
  | [] => []
  | c :: rest =>
    have := length_readPiece_lt c rest
    (readPiece c rest).1 :: readPieces (readPiece c rest).2
termination_by cs.length
decreasing_by all_goals (simp only [List.length_cons] at *; omega)

end EmailMarkup.Html
