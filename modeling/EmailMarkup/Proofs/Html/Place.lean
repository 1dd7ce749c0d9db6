import EmailMarkup.Html.Place
import EmailMarkup.Proofs.Html.Forest
import Mathlib.Logic.Relation

/-!
# Walking from place to place

The ancestors of a place and the elements before it are lists that come from taking one step again
and again: to the element around, or to the element just before. What matters about such a walk does
not depend on the step, so it is said once, for any function `step` and the list `walk` that it
gives: a place is on the walk exactly when some number of steps leads there (`mem_walk_iff`), what
follows a place on the walk is the walk from that place (`eq_walk_of_append`), and no walk comes
back (`notMem_walk_self`).

A step from an element of a document leads to an element of the document
(`parent?_mem_places`, `previous?_mem_places`), so walks never leave it.
-/

set_option autoImplicit false

namespace EmailMarkup.Html

open Relation

variable {p q : Place} {above : List Row} {before : List Element} {nodes : List Node}

/-! ### Walks -/

section Walk
variable {step : Place → Option Place} {walk : Place → List Place}
  (hwalk : ∀ p, walk p = (step p).elim [] fun q => q :: walk q)

include hwalk

/-- The first place of a walk is where the first step leads, and the rest is the walk from there. -/
theorem step_of_walk_eq_cons {rest : List Place} (h : walk p = q :: rest) :
    step p = some q ∧ rest = walk q := by
  rw [hwalk] at h
  cases hstep : step p with
  | none => rw [hstep] at h; cases h
  | some r =>
    rw [hstep] at h
    cases h
    exact ⟨rfl, rfl⟩

/-- A walk passes through the places that a number of steps leads to. -/
theorem mem_walk_iff : q ∈ walk p ↔ TransGen (fun a b => step a = some b) p q := by
  constructor
  · intro h
    -- The walk is not a recursion of this module, so the induction is on the list that it gives.
    generalize hlist : walk p = places at h
    induction places generalizing p with
    | nil => cases h
    | cons r rest ih =>
      obtain ⟨hstep, hrest⟩ := step_of_walk_eq_cons hwalk hlist
      rcases List.mem_cons.mp h with rfl | h
      · exact .single hstep
      · exact .head hstep (ih hrest.symm h)
  · intro h
    induction h using TransGen.head_induction_on with
    | single hstep =>
      rw [hwalk, hstep]
      exact List.mem_cons_self
    | head hstep _ ih =>
      rw [hwalk, hstep]
      exact List.mem_cons_of_mem _ ih

/-- What follows a place on a walk is the walk from that place. -/
theorem eq_walk_of_append {before rest : List Place} (h : walk p = before ++ q :: rest) :
    rest = walk q := by
  induction before generalizing p with
  | nil => exact (step_of_walk_eq_cons hwalk h).2
  | cons r before ih =>
    obtain ⟨-, hrest⟩ := step_of_walk_eq_cons hwalk h
    exact ih hrest.symm

/-- No walk comes back to where it began: it would go on for ever. -/
theorem notMem_walk_self (p : Place) : p ∉ walk p := by
  intro h
  obtain ⟨before, rest, hsplit⟩ := List.append_of_mem h
  have hrest := eq_walk_of_append hwalk hsplit
  have hlen := congrArg List.length hsplit
  rw [hrest, List.length_append, List.length_cons] at hlen
  omega

end Walk

/-- The ancestors are what going to the element around gives, again and again. -/
theorem Place.ancestors_eq (p : Place) :
    p.ancestors = p.parent?.elim [] fun q => q :: q.ancestors := by
  unfold Place.ancestors Place.parent?
  cases p.above with
  | nil | cons row above => rfl

/-- The elements before are what going to the element just before gives, again and again. -/
theorem Place.preceding_eq (p : Place) :
    p.preceding = p.previous?.elim [] fun q => q :: q.preceding := by
  obtain ⟨⟨before, here, after⟩, above⟩ := p
  cases before with
  | nil | cons e before => rfl

/-! ### Places of a document -/

/-- The places among nodes that begin with an element: its own, those in its content and those behind
it. -/
theorem mem_placesAmong_element {tag : Tag} {children rest : List Node} :
    p ∈ placesAmong above before (.element tag children :: rest) ↔
      p = ⟨⟨before, ⟨tag, children.isEmpty⟩, elementsAmong rest⟩, above⟩ ∨
        p ∈ placesAmong (⟨before, ⟨tag, children.isEmpty⟩, elementsAmong rest⟩ :: above) []
          children ∨
        p ∈ placesAmong above (⟨tag, children.isEmpty⟩ :: before) rest := by
  rw [placesAmong, List.mem_cons, List.mem_append]

/-- Induction over the places among nodes. What is said of a place may depend on the nodes that it is
one of, and on what stands above and before them; nodes that are no elements do not count. -/
theorem placesAmong_induction {motive : List Row → List Element → List Node → Place → Prop}
    (skip : ∀ {above before n rest p},
      placesAmong above before (n :: rest) = placesAmong above before rest →
      elementsAmong (n :: rest) = elementsAmong rest →
      motive above before rest p → motive above before (n :: rest) p)
    (here : ∀ above before tag children rest, motive above before (.element tag children :: rest)
      ⟨⟨before, ⟨tag, children.isEmpty⟩, elementsAmong rest⟩, above⟩)
    (inside : ∀ {above before tag children rest p},
      motive (⟨before, ⟨tag, children.isEmpty⟩, elementsAmong rest⟩ :: above) [] children p →
      motive above before (.element tag children :: rest) p)
    (behind : ∀ {above before tag children rest p},
      motive above (⟨tag, children.isEmpty⟩ :: before) rest p →
      motive above before (.element tag children :: rest) p)
    (h : p ∈ placesAmong above before nodes) : motive above before nodes p := by
  induction nodes using forest_induction generalizing above before with
  | nil => rw [placesAmong] at h; cases h
  | text content rest ih | comment content rest ih | declaration content rest ih =>
    exact skip (by simp only [placesAmong]) rfl (ih (by simpa only [placesAmong] using h))
  | element tag children rest ihChildren ihRest =>
    rcases mem_placesAmong_element.mp h with rfl | h | h
    · exact here ..
    · exact inside (ihChildren h)
    · exact behind (ihRest h)

/-- Among the places of nodes, the element around each is one of them, unless it stands at the
outermost level. -/
theorem parent?_of_mem_placesAmong (h : p ∈ placesAmong above before nodes) :
    p.above = above ∨ ∃ q ∈ placesAmong above before nodes, p.parent? = some q := by
  refine placesAmong_induction (motive := fun above before nodes p =>
    p.above = above ∨ ∃ q ∈ placesAmong above before nodes, p.parent? = some q) ?_ ?_ ?_ ?_ h
  · intro above before n rest p hplaces _ ih
    rwa [hplaces]
  · intros
    exact Or.inl rfl
  · rintro above before tag children rest p (habove | ⟨q, hq, hparent⟩)
    -- The outermost level of the content is the one just inside the element at hand.
    · refine Or.inr ⟨_, mem_placesAmong_element.mpr (Or.inl rfl), ?_⟩
      unfold Place.parent?
      rw [habove]
    · exact Or.inr ⟨q, mem_placesAmong_element.mpr (Or.inr (Or.inl hq)), hparent⟩
  · rintro above before tag children rest p (habove | ⟨q, hq, hparent⟩)
    · exact Or.inl habove
    · exact Or.inr ⟨q, mem_placesAmong_element.mpr (Or.inr (Or.inr hq)), hparent⟩

/-- Among the places of nodes, the element just before each is one of them, unless it is the nearest
of the elements that stand before all of them. -/
theorem previous?_of_mem_placesAmong (h : p ∈ placesAmong above before nodes)
    (hprevious : p.previous? = some q) :
    q ∈ placesAmong above before nodes ∨ ∃ e more, before = e :: more ∧
      q = { row := { before := more, here := e, after := elementsAmong nodes }, above } := by
  refine placesAmong_induction (motive := fun above before nodes p => p.previous? = some q →
    q ∈ placesAmong above before nodes ∨ ∃ e more, before = e :: more ∧
      q = { row := { before := more, here := e, after := elementsAmong nodes }, above })
    ?_ ?_ ?_ ?_ h hprevious
  · intro above before n rest p hplaces helements ih hprevious
    rw [hplaces, helements]
    exact ih hprevious
  · intro above before tag children rest hprevious
    cases before with
    | nil => cases hprevious
    | cons e more =>
      cases hprevious
      exact Or.inr ⟨e, more, rfl, rfl⟩
  · intro above before tag children rest p ih hprevious
    rcases ih hprevious with hq | ⟨e, more, hbefore, -⟩
    · exact Or.inl (mem_placesAmong_element.mpr (Or.inr (Or.inl hq)))
    · cases hbefore
  · intro above before tag children rest p ih hprevious
    rcases ih hprevious with hq | ⟨e, more, hbefore, hq⟩
    · exact Or.inl (mem_placesAmong_element.mpr (Or.inr (Or.inr hq)))
    · -- The nearest element before the others is the one at hand.
      cases hbefore
      exact Or.inl (mem_placesAmong_element.mpr (Or.inl hq))

/-- The element around an element of a document is one of the document. -/
theorem parent?_mem_places {d : Document} (hp : p ∈ d.places) (h : p.parent? = some q) :
    q ∈ d.places := by
  rcases parent?_of_mem_placesAmong hp with habove | ⟨r, hr, hparent⟩
  · unfold Place.parent? at h
    rw [habove] at h
    cases h
  · rw [h] at hparent
    cases hparent
    exact hr

/-- The element just before an element of a document is one of the document. -/
theorem previous?_mem_places {d : Document} (hp : p ∈ d.places) (h : p.previous? = some q) :
    q ∈ d.places := by
  rcases previous?_of_mem_placesAmong hp h with hq | ⟨e, more, hbefore, -⟩
  · exact hq
  · cases hbefore

end EmailMarkup.Html
