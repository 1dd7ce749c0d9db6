import EmailMarkup.Failure
import EmailMarkup.Layout.Keyword

/-!
# Attributes that take keywords

A keyword is read from its word, and a word that is none fails with the list of those that are. The
same words may be declared as a choice in a schema, which then objects to the others. The two never
disagree: `readKeyword` fails exactly where the choice objects, and says what the choice expects
(`readKeyword_eq_error_iff`).
-/

namespace EmailMarkup

/-- A word names no value exactly if it is not among the words for all values. -/
theorem Layout.Keyword.ofName?_eq_none_iff {α : Type} [Layout.Keyword α] (word : String) :
    (Layout.Keyword.ofName? word : Option α) = none ↔ word ∉ Layout.Keyword.names α := by
  simp [Layout.Keyword.ofName?, Layout.Keyword.names]

namespace Schema

open EmailMarkup.Layout

variable {α : Type} [Keyword α]

/-- Reads a keyword, which has to be one of its type. -/
def readKeyword (tag name value : String) : Except Failure α :=
  match Keyword.ofName? value with
  | some a => .ok a
  | none => .error (.invalidValue tag name value (.choice (Keyword.names α)))

/-- Reading a keyword fails where a choice between the same words objects to the value, and nowhere
else. -/
theorem readKeyword_eq_error_iff {tag name value : String} {failure : Failure} :
    readKeyword (α := α) tag name value = .error failure ↔
      ∃ expected, (ValueType.choice (Keyword.names α)).objection? value = some expected ∧
        failure = .invalidValue tag name value expected := by
  have hnone := Keyword.ofName?_eq_none_iff (α := α) value
  unfold readKeyword ValueType.objection?
  cases hword : (Keyword.ofName? value : Option α) with
  | none =>
    have hnot : value ∉ Keyword.names α := hnone.mp hword
    simp [hnot, eq_comm]
  | some a =>
    have hmem : value ∈ Keyword.names α := by simpa [hword] using hnone
    simp [hmem]

end Schema

end EmailMarkup
