import EmailMarkup.Html.Reader

/-!
# Elements that cannot have content

An element that its start tag closes, or that never has content, should have no children
(`HollowsEmpty`). Reading never gives it any. A tree that is built by hand might, and what it is
written as would be read differently.
-/

set_option autoImplicit false

namespace EmailMarkup.Html

open EmailMarkup.Text

/-- No element without content has raw text as its content. -/
theorem isRawText_of_isVoid {name : String} (h : isVoid name = true) : isRawText name = false := by
  have hlists : ∀ v ∈ voidElements, ∀ r ∈ rawTextElements, sameName v r = false := by decide
  obtain ⟨v, hv, hsame⟩ := List.any_eq_true.mp h
  rw [isRawText, List.any_eq_false]
  intro r hr hraw
  have hne := hlists v hv r hr
  simp only [sameName, beq_iff_eq, beq_eq_false_iff_ne] at hsame hraw hne
  exact hne (hsame.symm.trans hraw)

/-- Whether an element cannot have content: its start tag closes it, or no element of its name has
any. -/
def Tag.isHollow (t : Tag) : Bool :=
  t.selfClosing || isVoid t.name

/-- Elements that cannot have content have none, at every depth. -/
inductive HollowsEmpty : List Node → Prop
  | nil : HollowsEmpty []
  | text {content : String} {rest : List Node} (hrest : HollowsEmpty rest) :
      HollowsEmpty (.text content :: rest)
  | comment {content : String} {rest : List Node} (hrest : HollowsEmpty rest) :
      HollowsEmpty (.comment content :: rest)
  | declaration {content : String} {rest : List Node} (hrest : HollowsEmpty rest) :
      HollowsEmpty (.declaration content :: rest)
  | element {tag : Tag} {children rest : List Node} (hempty : tag.isHollow = true → children = [])
      (hchildren : HollowsEmpty children) (hrest : HollowsEmpty rest) :
      HollowsEmpty (.element tag children :: rest)

/-- Nodes side by side are fine when each of them is. -/
theorem hollowsEmpty_cons {n : Node} {rest : List Node} :
    HollowsEmpty (n :: rest) ↔ HollowsEmpty [n] ∧ HollowsEmpty rest := by
  constructor
  · intro h
    cases h with
    | text hrest => exact ⟨.text .nil, hrest⟩
    | comment hrest => exact ⟨.comment .nil, hrest⟩
    | declaration hrest => exact ⟨.declaration .nil, hrest⟩
    | element hempty hchildren hrest => exact ⟨.element hempty hchildren .nil, hrest⟩
  · rintro ⟨hn, hrest⟩
    cases hn with
    | text => exact .text hrest
    | comment => exact .comment hrest
    | declaration => exact .declaration hrest
    | element hempty hchildren => exact .element hempty hchildren hrest

end EmailMarkup.Html
