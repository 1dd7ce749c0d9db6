import EmailMarkup.Body.Element
import EmailMarkup.Proofs.Text

/-!
# The edges of a box

A shorthand gives its values clockwise from the top, and edges without a value of their own take the
opposite one's. How the words of the shorthand are spaced makes no difference (`Spaced`): it falls
into them (`wordsOf_spaced`), and where it is read as a whole, because there is only one, the blanks
around that one are passed over (`leadingInteger?_spaced`).
-/

set_option autoImplicit false

namespace EmailMarkup.Layout

open EmailMarkup.Body EmailMarkup.Number EmailMarkup.Text

/-- A text of blanks and words, in which a blank or the end of the text follows each word. -/
inductive Spaced : List String → List Char → Prop
  | nil : Spaced [] []
  | blank {words : List String} {c : Char} {cs : List Char} (hc : isBlank c = true) :
      Spaced words cs → Spaced words (c :: cs)
  | word {words : List String} {word : String} {cs : List Char} (hne : word ≠ "")
      (hword : ∀ c ∈ word.toList, isBlank c = false) (hcs : ∀ c ∈ cs.head?, isBlank c = true) :
      Spaced words cs → Spaced (word :: words) (word.toList ++ cs)

theorem wordsOf_blank {c : Char} (hc : isBlank c = true) (cs : List Char) :
    wordsOf (c :: cs) = wordsOf cs := by
  simp [wordsOf, splitWhere, hc]

theorem wordsOf_spaced {words : List String} {cs : List Char} (h : Spaced words cs) :
    wordsOf cs = words.map String.toList := by
  induction h with
  | nil => rfl
  | blank hc _ ih => rw [wordsOf_blank hc, ih]
  | @word words word cs hne hword hcs _ ih =>
    have hsplit := splitWhere_of_forall hword
    cases cs with
    | nil => simp_all [wordsOf, splitWhere]
    | cons c cs =>
      rw [wordsOf_blank (hcs c rfl)] at ih
      rw [wordsOf, splitWhere_append_cons (hcs c rfl), hsplit, List.filter_append, ← wordsOf, ih]
      simp [hne]

/-- A blank is no digit of any script, so the digits of a word end where the word does. -/
theorem isDecimalDigit_of_isBlank {c : Char} (h : isBlank c = true) : isDecimalDigit c = false := by
  -- There are few blanks, so each is looked up among the digits.
  have hblanks : ∀ n ∈ List.range' 0x9 5 ++ List.range' 0x2000 11 ++
      [0x20, 0x85, 0xA0, 0x1680, 0x2028, 0x2029, 0x202F, 0x205F, 0x3000],
      inRuns digitRuns n = false := by decide
  refine hblanks c.toNat ?_
  simp only [isBlank, Bool.or_eq_true, Bool.and_eq_true, decide_eq_true_eq, beq_iff_eq] at h
  simp only [List.mem_append, List.mem_range'_1, List.mem_cons, List.not_mem_nil, or_false]
  omega

theorem takeSign_append {cs : List Char} (hne : cs ≠ []) (rest : List Char) :
    takeSign (cs ++ rest) = ((takeSign cs).1, (takeSign cs).2 ++ rest) := by
  obtain ⟨c, cs, rfl⟩ := List.exists_cons_of_ne_nil hne
  unfold takeSign
  grind

/-- The integer at the start of a word is that of the text in which the word stands alone. -/
theorem leadingInteger?_spaced {word : String} {cs : List Char} (h : Spaced [word] cs) :
    leadingInteger? (String.ofList cs) = leadingInteger? word := by
  generalize hwords : [word] = words at h
  induction h with
  | nil => cases hwords
  | @blank words c cs hc _ ih =>
    rw [← ih hwords]
    simp [leadingInteger?, trimLeft, hc]
  | @word words word cs hne hword hcs _ _ =>
    cases hwords
    have hdigits (body : List Char) :
        (body ++ cs).takeWhile isDecimalDigit = body.takeWhile isDecimalDigit :=
      (span_append fun _ c hc => isDecimalDigit_of_isBlank (hcs c hc)).1
    obtain ⟨c, w, hw⟩ := List.exists_cons_of_ne_nil (mt String.toList_eq_nil_iff.mp hne)
    have hc : isBlank c = false := hword c (by simp [hw])
    simp only [leadingInteger?, String.toList_ofList, hw]
    rw [List.cons_append, trimLeft_cons hc, trimLeft_cons hc, ← List.cons_append,
      takeSign_append (List.cons_ne_nil c w), hdigits]

/-- One to four values, written out for the four edges from the top clockwise. -/
def clockwise : List Int → List Int
  | [all] => [all, all, all, all]
  | [vertical, horizontal] => [vertical, horizontal, vertical, horizontal]
  | [top, horizontal, bottom] => [top, horizontal, bottom, horizontal]
  | values => values.take 4

theorem attr?_eq_ite (e : Element) (name : String) :
    e.attr? name = if (e.attributes.get? name).getD "" = "" then none
      else some ((e.attributes.get? name).getD "") := by
  unfold Element.attr?
  cases e.attributes.get? name with
  | none => rfl
  | some v => by_cases hv : v = "" <;> simp [hv]

/-- The edges of a shorthand are its values clockwise from the top, and the edge of an element is
that of the shorthand unless it has an attribute of its own. -/
theorem edges_clockwise :
    (∀ (value : String) {words : List String}, words ≠ [] → Spaced words value.toList →
      [Edge.top, .right, .bottom, .left].map (edgeOf value) = clockwise (words.map amount)) ∧
    ∀ (e : Element) (name : String) (edge : Edge), e.edge name edge =
      let own := (e.attributes.get? (name ++ "-" ++ edge.name)).getD ""
      if own = "" then edgeOf ((e.attributes.get? name).getD "") edge else amount own := by
  constructor
  · intro value words hne h
    have hwords : Text.words value = words := by
      rw [Text.words, wordsOf_spaced h]
      simp
    rcases words with _ | ⟨first, _ | ⟨second, _ | ⟨third, _ | ⟨fourth, more⟩⟩⟩⟩
    · exact absurd rfl hne
    · have hone := leadingInteger?_spaced h
      rw [String.ofList_toList] at hone
      simp [edgeOf, hwords, clockwise, amount, hone]
    all_goals simp [edgeOf, hwords, clockwise]
  · intro e name edge
    have hempty : edgeOf "" edge = 0 := by cases edge <;> rfl
    simp only [Element.edge, attr?_eq_ite]
    split_ifs <;> simp_all

/-- A word that is no number counts as zero. -/
theorem spread_edges :
    [Edge.top, .right, .bottom, .left].map (edgeOf " -3em\tauto ") = [-3, 0, -3, 0] := by
  have hspaced : Spaced ["-3em", "auto"]
      (' ' :: ("-3em".toList ++ '\t' :: ("auto".toList ++ [' ']))) :=
    .blank rfl (.word (by decide) (by simp [isBlank]) (by simp [isBlank])
      (.blank rfl (.word (by decide) (by simp [isBlank]) (by simp [isBlank]) (.blank rfl .nil))))
  exact edges_clockwise.1 " -3em\tauto " (List.cons_ne_nil _ _) hspaced

end EmailMarkup.Layout
