import EmailMarkup.Proofs.Html.Piece
import EmailMarkup.Sanitize.Clean
import Mathlib.Order.Lattice
import Mathlib.Order.MinMax
import Mathlib.Tactic.Tauto

/-!
# The ladder of profiles

The profiles are ordered by how much they keep, and `min` of two profiles keeps what both keep
(`mem_min_iff`, `keepsAttribute_min`). What the allow-lists hold is checked once, against the
widest profile: every listed name can be written, no listed element has raw text as its content or
is dropped together with its content, and the listed elements that never have content are those that
are written without.
-/

set_option autoImplicit false

namespace EmailMarkup.Sanitize

open EmailMarkup.Text EmailMarkup.Html

/-- The step of the ladder on which a profile stands. -/
def Profile.rank : Profile → Nat
  | .strict => 0
  | .standard => 1
  | .permissive => 2

theorem Profile.rank_injective : Function.Injective Profile.rank := by
  intro p q
  cases p <;> cases q <;> decide

instance : LinearOrder Profile :=
  LinearOrder.lift' Profile.rank Profile.rank_injective

theorem Profile.le_permissive (p : Profile) : p ≤ .permissive := by
  cases p <;> decide

/-- A profile lists the elements of the profiles below it. -/
theorem elements_mono {p q : Profile} (h : p ≤ q) : ∀ name ∈ p.elements, name ∈ q.elements := by
  revert h
  cases p <;> cases q <;> decide +kernel

/-- A profile lists the attributes of the profiles below it. -/
theorem attributes_mono {p q : Profile} (h : p ≤ q) :
    ∀ name ∈ p.attributes, name ∈ q.attributes := by
  revert h
  cases p <;> cases q <;> decide +kernel

/-- The lower of two profiles lists the names that both list, if the lists grow along the ladder. -/
theorem mem_min_iff {lists : Profile → List String}
    (hmono : ∀ {p q : Profile}, p ≤ q → ∀ name ∈ lists p, name ∈ lists q) {p q : Profile}
    {name : String} : name ∈ lists (min p q) ↔ name ∈ lists p ∧ name ∈ lists q := by
  rcases le_total p q with h | h
  · rw [min_eq_left h]
    exact ⟨fun hp => ⟨hp, hmono h name hp⟩, And.left⟩
  · rw [min_eq_right h]
    exact ⟨fun hq => ⟨hmono h name hq, hq⟩, And.right⟩

/-- A profile keeps the attributes that it lists and that are no event handlers. -/
theorem keepsAttribute_iff {p : Profile} {name : String} :
    p.keepsAttribute name = true ↔ ¬ "on".toList <+: name.toList ∧ name ∈ p.attributes := by
  rw [Profile.keepsAttribute, Bool.and_eq_true, List.contains_iff_mem, Bool.not_eq_true',
    ← Bool.not_eq_true, beginsWith_iff]

/-- The lower of two profiles keeps the attributes that both keep. -/
theorem keepsAttribute_min (p q : Profile) (name : String) :
    (min p q).keepsAttribute name = (p.keepsAttribute name && q.keepsAttribute name) := by
  rw [Bool.eq_iff_iff, Bool.and_eq_true, keepsAttribute_iff, keepsAttribute_iff,
    keepsAttribute_iff, mem_min_iff attributes_mono]
  tauto

/-- The elements of a profile have names that can be written, none holds raw text, none is dropped
with its content, and those that never have content are written without. -/
theorem of_mem_elements {p : Profile} {name : String} (h : name ∈ p.elements) :
    isTagName name = true ∧ isRawText name = false ∧ name ∉ droppedElements ∧
      (isVoid name = true → name ∈ withoutContent) := by
  have hall : ∀ n ∈ Profile.permissive.elements, isTagName n = true ∧ isRawText n = false ∧
      n ∉ droppedElements ∧ (isVoid n = true → n ∈ withoutContent) := by decide +kernel
  exact hall name (elements_mono p.le_permissive name h)

/-- The attributes of a profile have names that can be written. -/
theorem of_mem_attributes {p : Profile} {name : String} (h : name ∈ p.attributes) :
    name.toList ≠ [] ∧ ∀ c ∈ name.toList, isAttributeNameChar c = true := by
  have hall : Profile.permissive.attributes.all
      (fun n => !n.toList.isEmpty && n.toList.all isAttributeNameChar) = true := by decide +kernel
  have hname := List.all_eq_true.mp hall name (attributes_mono p.le_permissive name h)
  rw [Bool.and_eq_true, Bool.not_eq_true', List.isEmpty_eq_false_iff, List.all_eq_true] at hname
  exact hname

/-- An element that is written without content never has any. -/
theorem isVoid_of_mem_withoutContent {name : String} (h : lower name ∈ withoutContent) :
    isVoid name = true := by
  -- Compared as lists of characters, which is what `sameName` does.
  have hall : ∀ n ∈ withoutContent, ∃ v ∈ voidElements, lowerChars v.toList = n.toList := by
    decide +kernel
  obtain ⟨v, hv, hlower⟩ := hall _ h
  rw [isVoid, List.any_eq_true]
  refine ⟨v, hv, ?_⟩
  rw [sameName, beq_iff_eq, hlower, lower, String.toList_ofList]

end EmailMarkup.Sanitize
