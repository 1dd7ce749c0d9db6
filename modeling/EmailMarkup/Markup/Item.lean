import EmailMarkup.Component.Registry
import EmailMarkup.Failure
import EmailMarkup.Html.Entity

/-!
# Items of markup

A text is first read as a row of items: texts, comments and tags, each with its position. What
stands in an element whose component keeps its content as text belongs to the item of its tag, so
the tags have to be known here.

Reading goes on until the first fault, and `readItems` gives the items before it: a fault in how
they are nested comes earlier in the text, and is the one to report.
-/

namespace EmailMarkup.Markup

open EmailMarkup.Text EmailMarkup.Component

/-- What is found at one place of a text. -/
inductive Item where
  /-- A text that is not blank. -/
  | text (content : String)
  | comment (source : String)
  /-- A tag whose element is still open. -/
  | opening (tag : String) (attributes : Attributes)
  /-- A tag that is its whole element, or an element with its content. -/
  | whole (tag : String) (attributes : Attributes) (content : String)
  | closing (tag : String)
  deriving Repr

/-- An item and where it is. -/
structure Placed where
  item : Item
  position : Position
  deriving Repr

/-- A value read off the front of a text, with a rest that is shorter than the text. -/
structure Front (α : Type) (cs : List Char) where
  value : α
  rest : List Char
  shorter : rest.length < cs.length

/-- What was read off the front of a part was read off the front of the whole. -/
def Front.widen {α : Type} {cs ds : List Char} (f : Front α cs) (h : cs.length ≤ ds.length) :
    Front α ds :=
  { f with shorter := Nat.lt_of_lt_of_le f.shorter h }

/-- Characters of names: those of tags and of attributes. -/
def isNameChar (c : Char) : Bool :=
  c.isAlphanum || c == '-' || c == '_' || c == ':' || c == '.'

/-- The name at the start of a text. -/
def nameOf (cs : List Char) : List Char :=
  cs.takeWhile isNameChar

/-- What follows the name at the start of a text. -/
def afterName (cs : List Char) : List Char :=
  cs.dropWhile isNameChar

/-- What follows a name and blanks is no longer. -/
theorem length_trimLeft_afterName_le (cs : List Char) :
    (trimLeft (afterName cs)).length ≤ cs.length :=
  Nat.le_trans (List.dropWhile_sublist _).length_le (List.dropWhile_sublist _).length_le

/-- What follows a name that is not empty is shorter. -/
theorem length_trimLeft_afterName_lt {cs : List Char} (h : (nameOf cs).isEmpty = false) :
    (trimLeft (afterName cs)).length < cs.length := by
  have htrim : (trimLeft (afterName cs)).length ≤ (afterName cs).length :=
    (List.dropWhile_sublist _).length_le
  have hsplit : (nameOf cs).length + (afterName cs).length = cs.length := by
    rw [← List.length_append]
    exact congrArg List.length List.takeWhile_append_dropWhile
  have hname : (nameOf cs).length ≠ 0 := by
    intro h0
    rw [List.length_eq_zero_iff.mp h0] at h
    contradiction
  omega

/-! ### Attributes -/

/-- Where a value without quotes ends. -/
def endsBareValue (c : Char) : Bool :=
  isBlank c || c == '>' || c == '/'

/-- The value of an attribute at the start of a text, and what follows it. A value in quotes has to
be closed. -/
def readValue? (cs : List Char) : Option (List Char × List Char) :=
  match cs with
  | '"' :: rest => splitAtMark? ['"'] rest
  | '\'' :: rest => splitAtMark? ['\''] rest
  -- Without quotes nothing can be left open; the value may even be empty.
  | _ => some (cs.takeWhile fun c => !endsBareValue c, cs.dropWhile fun c => !endsBareValue c)

/-- What follows a value is no longer. -/
theorem length_of_readValue? {cs value rest : List Char} (h : readValue? cs = some (value, rest)) :
    rest.length ≤ cs.length := by
  unfold readValue? at h
  split at h
  · have := length_of_splitAtMark? h
    simp only [List.length_cons]
    omega
  · have := length_of_splitAtMark? h
    simp only [List.length_cons]
    omega
  · simp only [Option.some.injEq, Prod.mk.injEq] at h
    rw [← h.2]
    exact (List.dropWhile_sublist _).length_le

/-- The value that follows the name of an attribute. Without an equals sign the name is the value.
If the value is not closed, the result is the text from its quote on. -/
def readAssigned (name : String) (cs : List Char) : Except (List Char) (String × List Char) :=
  match cs with
  | '=' :: rest =>
    match readValue? (trimLeft rest) with
    | some (value, next) => .ok (Html.unescape (String.ofList value), next)
    | none => .error (trimLeft rest)
  -- A bare attribute has its own name for a value.
  | _ => .ok (name, cs)

/-- What follows an attribute is no longer. -/
theorem length_of_readAssigned {name value : String} {cs rest : List Char}
    (h : readAssigned name cs = .ok (value, rest)) : rest.length ≤ cs.length := by
  unfold readAssigned at h
  split at h
  · rename_i tail
    have htrim : (trimLeft tail).length ≤ tail.length := (List.dropWhile_sublist _).length_le
    split at h
    · rename_i hvalue
      have hnext := length_of_readValue? hvalue
      simp only [Except.ok.injEq, Prod.mk.injEq] at h
      rw [← h.2, List.length_cons]
      omega
    · contradiction
  · simp only [Except.ok.injEq, Prod.mk.injEq] at h
    exact Nat.le_of_eq (congrArg List.length h.2.symm)

/-- The attributes of a tag and whether the tag is its whole element. `locate` gives the position of
a rest of the source, and `start` is that of the tag. -/
def readAttributes (locate : List Char → Position) (start : Position) (tag : String)
    (attributes : Attributes) (cs : List Char) : Except Failure (Front (Attributes × Bool) cs) :=
  have hblank : (trimLeft cs).length ≤ cs.length := (List.dropWhile_sublist _).length_le
  match htail : trimLeft cs with
  | [] => .error (.malformed start (.unterminatedTag tag))
  | '/' :: '>' :: rest =>
    .ok { value := (attributes, true)
          rest
          shorter := by rw [htail] at hblank; simp only [List.length_cons] at hblank; omega }
  | '>' :: rest =>
    .ok { value := (attributes, false)
          rest
          shorter := by rw [htail] at hblank; simp only [List.length_cons] at hblank; omega }
  | c :: more =>
    if hname : (nameOf (c :: more)).isEmpty then
      .error (.malformed (locate (c :: more)) (.unexpectedCharacter tag))
    else
      let name := String.ofList (nameOf (c :: more))
      match hvalue : readAssigned name (trimLeft (afterName (c :: more))) with
      -- The fault is located at the quote, not at the start of the tag.
      | .error quote => .error (.malformed (locate quote) (.unterminatedValue name tag))
      | .ok (value, next) =>
        have hshorter : next.length < cs.length := by
          have h₁ := length_of_readAssigned hvalue
          have h₂ := length_trimLeft_afterName_lt (Bool.eq_false_iff.mpr hname)
          rw [htail] at hblank
          omega
        (readAttributes locate start tag (attributes.insert name value) next).map fun front =>
          front.widen (Nat.le_of_lt hshorter)
termination_by cs.length

/-! ### Content kept as text -/

/-- Whether a text begins with the start of a tag and the name in it ends there. -/
def startsTag (mark cs : List Char) : Bool :=
  match after? mark cs with
  | some (c :: _) => endsBareValue c
  | _ => false

/-- Why the end of a content was not found. -/
inductive CaptureFault where
  | neverClosed
  /-- A closing tag is not ended; the text from it on is given. -/
  | unterminated (rest : List Char)
  /-- Reading broke off in the last character of the text. -/
  | brokenCharacter
  deriving DecidableEq, Repr

/-- What comes of the tag of another element that is not ended. All of the text but its last byte is
taken for what stands in the tag, and a character of several bytes has no last byte to take off. -/
def unendedTag (cs : List Char) : CaptureFault :=
  match cs.getLast? with
  | some c => if c.utf8Size = 1 then .neverClosed else .brokenCharacter
  | none => .neverClosed

/-- Puts characters before a content. -/
def onContent (cs : List Char) (captured : List Char × List Char) : List Char × List Char :=
  (cs ++ captured.1, captured.2)

/-- How many elements are open after the tag of another one, given what stands in it. -/
def depthAfter (inside : List Char) (depth : Nat) : Nat :=
  if inside.getLast? == some '/' then depth else depth + 1

/-- The content of an element up to its closing tag, and what follows that tag. Elements of the same
name may stand in it; `depth` of them are open. -/
def capture (name : List Char) (depth : Nat) (cs : List Char) :
    Except CaptureFault (List Char × List Char) :=
  match cs with
  | [] => .error .neverClosed
  | c :: rest =>
    -- A closing tag counts for the element itself once all others of its name are closed.
    if startsTag ('<' :: '/' :: name) (c :: rest) then
      match h : splitAtMark? ['>'] rest with
      | none => .error (.unterminated (c :: rest))
      | some (inside, next) =>
        have := length_of_splitAtMark? h
        match depth with
        | 0 => .ok ([], next)
        | depth + 1 => (capture name depth next).map (onContent (c :: inside ++ ['>']))
    else if startsTag ('<' :: name) (c :: rest) then
      match h : splitAtMark? ['>'] rest with
      | none => .error (unendedTag (c :: rest))
      | some (inside, next) =>
        have := length_of_splitAtMark? h
        (capture name (depthAfter inside depth) next).map (onContent (c :: inside ++ ['>']))
    else (capture name depth rest).map (onContent [c])
termination_by cs.length

/-- Content that is put in front leaves what follows. -/
theorem exists_of_map_onContent {front : List Char}
    {found : Except CaptureFault (List Char × List Char)} {captured : List Char × List Char}
    (h : found.map (onContent front) = .ok captured) :
    ∃ inner, found = .ok inner ∧ captured.2 = inner.2 := by
  cases found with
  | error e => cases h
  | ok inner =>
    cases h
    exact ⟨inner, rfl, rfl⟩

/-- What follows a captured element is shorter than what it was captured from. -/
theorem length_of_capture {name cs : List Char} {depth : Nat} {captured : List Char × List Char}
    (h : capture name depth cs = .ok captured) : captured.2.length < cs.length := by
  fun_induction capture name depth cs generalizing captured with
  | case1 => contradiction
  | case2 => contradiction
  | case3 c rest _ inside next hsplit _ =>
    have := length_of_splitAtMark? hsplit
    simp only [Except.ok.injEq] at h
    subst h
    simp only [List.length_cons, List.length_nil] at this ⊢
    omega
  | case4 c rest _ inside next hsplit _ depth ih | case6 depth c rest _ _ inside next hsplit _ ih =>
    obtain ⟨inner, hinner, hrest⟩ := exists_of_map_onContent h
    have hlen := length_of_splitAtMark? hsplit
    have := ih hinner
    rw [hrest]
    simp only [List.length_cons, List.length_nil] at hlen ⊢
    omega
  | case5 => contradiction
  | case7 depth c rest _ _ ih =>
    obtain ⟨inner, hinner, hrest⟩ := exists_of_map_onContent h
    rw [hrest, List.length_cons]
    exact Nat.lt_succ_of_lt (ih hinner)

/-! ### Items -/

/-- The item of a tag, from the name on. -/
def readOpening (registry : Registry) (locate : List Char → Position) (start : Position)
    (cs : List Char) : Except Failure (Front Item cs) :=
  let name := nameOf cs
  let tag := String.ofList name
  if name.isEmpty then .error (.malformed start .missingTagName)
  else do
    -- A fault among the attributes comes before the question whether the tag is known.
    let front ← readAttributes locate start tag ∅ (afterName cs)
    have hfront : front.rest.length < cs.length :=
      Nat.lt_of_lt_of_le front.shorter (List.dropWhile_sublist _).length_le
    match registry.get? tag with
    | none => .error (.unknownTag tag start)
    | some spec =>
      if front.value.2 then
        .ok { value := .whole tag front.value.1 "", rest := front.rest, shorter := hfront }
      else if spec.captures then
        match h : capture name 0 front.rest with
        | .ok captured =>
          .ok { value := .whole tag front.value.1 (String.ofList (trimChars captured.1))
                rest := captured.2
                shorter := Nat.lt_trans (length_of_capture h) hfront }
        | .error .neverClosed => .error (.malformed start (.neverClosed tag))
        | .error .brokenCharacter => .error .brokenCharacter
        | .error (.unterminated rest) =>
          .error (.malformed (locate rest) (.unterminatedClosingTag tag))
      else .ok { value := .opening tag front.value.1, rest := front.rest, shorter := hfront }

/-- The item of a closing tag, from the name on. -/
def readClosing (start : Position) (cs : List Char) : Except Failure (Front Item cs) :=
  let tag := String.ofList (nameOf cs)
  match h : trimLeft (afterName cs) with
  | '>' :: rest =>
    .ok { value := .closing tag
          rest
          shorter := by
            have := length_trimLeft_afterName_le cs
            rw [h, List.length_cons] at this
            omega }
  | _ => .error (.malformed start (.unterminatedClosingTag tag))

/-- The item of a comment, from what follows its opening mark. -/
def readComment (start : Position) (cs : List Char) : Except Failure (Front Item cs) :=
  match h : splitAtMark? ['-', '-', '>'] cs with
  | some (body, rest) =>
    .ok { value := .comment ("<!--" ++ String.ofList body ++ "-->")
          rest
          shorter := length_of_splitAtMark?_cons h }
  | none => .error (.malformed start .unterminatedComment)

/-- What follows a declaration, which ends with `mark`. -/
def skipDeclaration (start : Position) (mark : Char × List Char) (cs : List Char) :
    Except Failure (Front (Option Item) cs) :=
  match h : splitAtMark? (mark.1 :: mark.2) cs with
  | some (_, rest) =>
    .ok { value := none
          rest
          shorter := length_of_splitAtMark?_cons h }
  | none => .error (.malformed start .unterminatedDeclaration)

/-- Something that is an item. -/
def Front.asItem {cs : List Char} (f : Front Item cs) : Front (Option Item) cs :=
  { f with value := some f.value }

/-- What begins with `<`, from what follows it. A declaration is no item. -/
def readMarked (registry : Registry) (locate : List Char → Position) (start : Position)
    (cs : List Char) : Except Failure (Front (Option Item) cs) :=
  match cs with
  | '!' :: '-' :: '-' :: rest =>
    (readComment start rest).map fun f => f.asItem.widen (by simp only [List.length_cons]; omega)
  -- The mark may overlap the opening: `<?>` is a whole declaration.
  | '?' :: rest => skipDeclaration start ('?', ['>']) ('?' :: rest)
  | '!' :: rest => skipDeclaration start ('>', []) ('!' :: rest)
  | '/' :: rest => (readClosing start rest).map fun f => f.asItem.widen (Nat.le_succ _)
  | cs => (readOpening registry locate start cs).map Front.asItem

/-- The text at the start of a text that does not begin with `<`. A blank one is no item. -/
def readText (locate : List Char → Position) (c : Char) (cs : List Char) (h : c ≠ '<') :
    Front (Option Placed) (c :: cs) :=
  let text := (c :: cs).takeWhile (· ≠ '<')
  -- A text is located at its first character that is not blank.
  { value := if text.all isBlank then none
      else some { item := .text (String.ofList text), position := locate (trimLeft (c :: cs)) }
    rest := (c :: cs).dropWhile (· ≠ '<')
    shorter := by
      rw [List.dropWhile_cons_of_pos (by simpa using h)]
      exact Nat.lt_succ_of_le (List.dropWhile_sublist _).length_le }

/-- The items of a text up to its first fault, and that fault. -/
def readItems (registry : Registry) (locate : List Char → Position) (cs : List Char) :
    List Placed × Option Failure :=
  match cs with
  | [] => ([], none)
  | c :: rest =>
    if h : c = '<' then
      let start := locate (c :: rest)
      match readMarked registry locate start rest with
      | .error e => ([], some e)
      | .ok front =>
        have := front.shorter
        let more := readItems registry locate front.rest
        ((front.value.map fun item => { item, position := start }).toList ++ more.1, more.2)
    else
      let front := readText locate c rest h
      have := front.shorter
      let more := readItems registry locate front.rest
      (front.value.toList ++ more.1, more.2)
termination_by cs.length
decreasing_by all_goals (simp only [List.length_cons] at *; omega)

end EmailMarkup.Markup
