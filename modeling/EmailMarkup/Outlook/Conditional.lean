import EmailMarkup.Text.Blank
import EmailMarkup.Text.Search

/-!
# Conditional comments

Desktop Outlook lays out a message with table scaffolding that every other reader has to ignore.
The scaffolding stands in conditional comments: a plain block is seen by Outlook alone, a negated
block by everyone else. `merge` joins plain blocks that stand side by side, and `minify` takes the
blanks between tags out of the blocks and leaves the rest of the text alone.
-/

namespace EmailMarkup.Outlook

open EmailMarkup.Text

/-- Opens a block for Outlook and old browsers. -/
def opening : String := "<!--[if mso | IE]>"

/-- Opens a block for everyone but Outlook and old browsers. -/
def negatedOpening : String := "<!--[if !mso | IE]><!-->"

/-- Opens a block for Outlook. -/
def officeOpening : String := "<!--[if mso]>"

/-- Opens a block for everyone but Outlook. -/
def negatedOfficeOpening : String := "<!--[if !mso]><!-->"

/-- Closes a plain block. -/
def closing : String := "<![endif]-->"

/-- Closes a negated block. -/
def negatedClosing : String := "<!--<![endif]-->"

/-- Shows `content` to Outlook and old browsers only. -/
def block (content : String) : String :=
  opening ++ content ++ closing

/-- Shows `content` to everyone but Outlook and old browsers. -/
def negatedBlock (content : String) : String :=
  negatedOpening ++ content ++ negatedClosing

/-- Shows `content` to Outlook only. -/
def officeBlock (content : String) : String :=
  officeOpening ++ content ++ closing

/-- Shows `content` to everyone but Outlook. -/
def negatedOfficeBlock (content : String) : String :=
  negatedOfficeOpening ++ content ++ negatedClosing

/-- What follows a closing mark, blanks, and the opening mark of a plain block. -/
def seam? (cs : List Char) : Option (List Char) :=
  (after? closing.toList cs).bind fun rest => after? opening.toList (trimLeft rest)

/-- A seam is not empty. -/
theorem length_of_seam? {cs rest : List Char} (h : seam? cs = some rest) :
    rest.length < cs.length := by
  obtain ⟨mid, hmid, hrest⟩ := Option.bind_eq_some_iff.mp h
  have h₁ := length_of_after? hmid
  have h₂ := length_of_after? hrest
  have h₃ : (trimLeft mid).length ≤ mid.length := (List.dropWhile_sublist _).length_le
  have h₄ : closing.toList.length = 12 := by decide
  omega

/-- Takes every seam out of a text, from left to right. -/
def mergeChars (cs : List Char) : List Char :=
  match cs with
  | [] => []
  | c :: rest =>
    match h : seam? (c :: rest) with
    | some next =>
      have := length_of_seam? h
      mergeChars next
    | none => c :: mergeChars rest
termination_by cs.length
decreasing_by all_goals (simp only [List.length_cons] at *; omega)

/-- Joins plain blocks that have nothing but blanks between them. -/
def merge (html : String) : String :=
  String.ofList (mergeChars html.toList)

/-- Drops the blanks after each `>` that are followed by `<` or by the end of the text. `edge` says
whether the text at hand begins there too, as it does at the start of a block. -/
def closeGaps (edge : Bool) : List Char → List Char
  | [] => []
  | c :: cs =>
    -- Between two tags the edge goes on through the blanks.
    if edge && isBlank c && beforeTag cs then closeGaps true cs
    else c :: closeGaps (c == '>') cs
where
  /-- Whether only blanks stand before the next `<` or the end. -/
  beforeTag (cs : List Char) : Bool :=
    match trimLeft cs with
    | [] => true
    | c :: _ => c == '<'

/-- Replaces every run of two or more blanks by one space. -/
def squeeze : List Char → List Char
  | [] => []
  | [c] => [c]
  | c :: d :: cs =>
    -- The rest begins with what became of the run from its second blank on, which is one character.
    if isBlank c && isBlank d then ' ' :: (squeeze (d :: cs)).tail
    else c :: squeeze (d :: cs)

/-- The opening of any conditional block: its text up to the mark `]>`, and what follows. The
condition begins with a blank and has at least one more character. -/
def anyOpening? (cs : List Char) : Option (List Char × List Char) := do
  let rest ← after? "<!--[if".toList cs
  match rest with
  | b :: d :: _ =>
    -- The first `]` has to end the condition; one inside it is not waited for.
    if isBlank b && d != ']' then
      let next ← after? "]>".toList (rest.dropWhile (· != ']'))
      return ("<!--[if".toList ++ rest.takeWhile (· != ']') ++ "]>".toList, next)
    else none
  | _ => none

/-- A whole conditional block at the start of a text: its opening, its content, and what follows its
closing mark. -/
def anyBlock? (cs : List Char) : Option (List Char × List Char × List Char) := do
  let (start, rest) ← anyOpening? cs
  let (content, next) ← splitAtMark? closing.toList rest
  return (start, content, next)

/-- A block is not empty. -/
theorem length_of_anyBlock? {cs start content next : List Char}
    (h : anyBlock? cs = some (start, content, next)) : next.length < cs.length := by
  unfold anyBlock? at h
  obtain ⟨⟨start', rest⟩, ho, h⟩ := Option.bind_eq_some_iff.mp h
  obtain ⟨⟨content', next'⟩, hs, h⟩ := Option.bind_eq_some_iff.mp h
  simp only [Option.pure_def, Option.some.injEq, Prod.mk.injEq] at h
  obtain ⟨-, -, rfl⟩ := h
  have hlen := length_of_splitAtMark? hs
  unfold anyOpening? at ho
  obtain ⟨tail, ht, ho⟩ := Option.bind_eq_some_iff.mp ho
  have hopen := length_of_after? ht
  have hdrop := (List.dropWhile_sublist (l := tail) (· != ']')).length_le
  split at ho
  · split at ho
    · obtain ⟨body, hb, ho⟩ := Option.bind_eq_some_iff.mp ho
      simp only [Option.pure_def, Option.some.injEq, Prod.mk.injEq] at ho
      obtain ⟨-, rfl⟩ := ho
      have hbody := length_of_after? hb
      have h₁ : "<!--[if".toList.length = 7 := by decide
      omega
    · simp at ho
  · simp at ho

/-- Takes the blanks between tags and the runs of blanks out of every conditional block. -/
def minifyChars (cs : List Char) : List Char :=
  match cs with
  | [] => []
  | c :: rest =>
    match h : anyBlock? (c :: rest) with
    | some (start, content, next) =>
      have := length_of_anyBlock? h
      start ++ squeeze (closeGaps true content) ++ closing.toList ++ minifyChars next
    | none => c :: minifyChars rest
termination_by cs.length
decreasing_by all_goals (simp only [List.length_cons] at *; omega)

/-- Takes the blanks between tags and the runs of blanks out of every conditional block. -/
def minify (html : String) : String :=
  String.ofList (minifyChars html.toList)

end EmailMarkup.Outlook
