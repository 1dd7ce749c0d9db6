/-!
# Looking for a mark in a text

Readers in this library consume a list of characters from the front. The two questions they ask of
it are whether it begins with a mark, and where the mark occurs first. Both answers come with what
is left, so no position is ever counted.
-/

namespace EmailMarkup.Text

/-- What follows `mark`, if the text begins with it. -/
def after? : List Char → List Char → Option (List Char)
  | [], cs => some cs
  | _ :: _, [] => none
  | m :: mark, c :: cs => if m == c then after? mark cs else none

/-- Whether a text begins with `mark`. -/
def beginsWith (mark cs : List Char) : Bool :=
  (after? mark cs).isSome

/-- The text before the first occurrence of `mark`, and the text after that occurrence. -/
def splitAtMark? (mark : List Char) : List Char → Option (List Char × List Char)
  | [] => if mark.isEmpty then some ([], []) else none
  | c :: cs =>
    match after? mark (c :: cs) with
    | some rest => some ([], rest)
    | none => (splitAtMark? mark cs).map fun (before, rest) => (c :: before, rest)

/-- Whether `mark` occurs in a text. -/
def occursIn (mark cs : List Char) : Bool :=
  (splitAtMark? mark cs).isSome

/-- The text before the first occurrence of `mark` and the text after it. A text without the mark is
all before, and nothing is left. -/
def upToMark (mark cs : List Char) : List Char × List Char :=
  (splitAtMark? mark cs).getD (cs, [])

/-- Whether a text begins with `mark`, which is in lower case, up to the case of ASCII letters. -/
def beginsWithFolded : List Char → List Char → Bool
  | [], _ => true
  | _ :: _, [] => false
  | m :: mark, c :: cs => m == c.toLower && beginsWithFolded mark cs

/-- The text before the first occurrence of `mark` up to the case of ASCII letters, and the text
from that occurrence on. A text without the mark is all before. -/
def spanFolded (mark : List Char) : List Char → List Char × List Char
  | [] => ([], [])
  | c :: cs =>
    if beginsWithFolded mark (c :: cs) then ([], c :: cs)
    else
      let (before, rest) := spanFolded mark cs
      (c :: before, rest)

/-- Replaces every character by a text. -/
def replaceEach (f : Char → List Char) (s : String) : String :=
  String.ofList (s.toList.flatMap f)

/-- What follows the mark is shorter than the text by the mark. -/
theorem length_of_after? {mark cs rest : List Char} (h : after? mark cs = some rest) :
    rest.length + mark.length = cs.length := by
  induction mark generalizing cs with
  | nil => simp only [after?, Option.some.injEq] at h; simp [h]
  | cons m mark ih =>
    cases cs with
    | nil => simp [after?] at h
    | cons c cs =>
      simp only [after?] at h
      split at h
      · have := ih h; simp only [List.length_cons]; omega
      · simp at h

/-- Both sides of a mark together with the mark are as long as the text. -/
theorem length_of_splitAtMark? {mark cs before rest : List Char}
    (h : splitAtMark? mark cs = some (before, rest)) :
    before.length + mark.length + rest.length = cs.length := by
  induction cs generalizing before with
  | nil =>
    simp only [splitAtMark?] at h
    split at h
    · rename_i hm
      simp only [Option.some.injEq, Prod.mk.injEq] at h
      simp [← h.1, ← h.2, List.isEmpty_iff.mp hm]
    · simp at h
  | cons c cs ih =>
    simp only [splitAtMark?] at h
    split at h
    · rename_i r hr
      simp only [Option.some.injEq, Prod.mk.injEq] at h
      have := length_of_after? hr
      rw [← h.1, ← h.2]
      simp only [List.length_nil, List.length_cons] at *
      omega
    · simp only [Option.map_eq_some_iff, Prod.mk.injEq, Prod.exists] at h
      obtain ⟨b, r, hbr, hb, hr⟩ := h
      subst hb hr
      have := ih hbr
      simp only [List.length_cons] at *
      omega

/-- What follows a mark of at least one character is shorter than the text. -/
theorem length_of_splitAtMark?_cons {m : Char} {mark cs before rest : List Char}
    (h : splitAtMark? (m :: mark) cs = some (before, rest)) : rest.length < cs.length := by
  have := length_of_splitAtMark? h
  simp only [List.length_cons] at this
  omega

/-- What is left after a mark is no longer than the text. -/
theorem length_upToMark_le (mark cs : List Char) : (upToMark mark cs).2.length ≤ cs.length := by
  unfold upToMark
  cases h : splitAtMark? mark cs with
  | none => simp
  | some p =>
    obtain ⟨before, rest⟩ := p
    have := length_of_splitAtMark? h
    simp only [Option.getD_some]
    omega

/-- What stands before a mark and what begins with it are together the text. -/
theorem spanFolded_append (mark cs : List Char) :
    (spanFolded mark cs).1 ++ (spanFolded mark cs).2 = cs := by
  induction cs with
  | nil => rfl
  | cons c cs ih =>
    simp only [spanFolded]
    split
    · rfl
    · simp only [List.cons_append, ih]

end EmailMarkup.Text
