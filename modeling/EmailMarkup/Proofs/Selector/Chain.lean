import EmailMarkup.Proofs.Html.Canonical
import EmailMarkup.Proofs.Html.Place
import EmailMarkup.Selector.Match
import Mathlib.Data.List.Chain

/-!
# What a selector names

A selector says that some elements of the document stand in a chain: each fits its compound, and
each is related to the one on its right as the combinator between them says. `Names` is that
meaning, in which any element may be taken that is in the right relation. Matching takes the nearest
one that fits and does not come back to the choice.

- What matching accepts is named by the selector (`chain_of_contextMatches`): the elements taken are
  a chain.
- A choice of the nearest element can be regretted only for four pairs of combinators, those of
  `Combinator.mayLose`. Where none of them stands in the selector, any other choice can be exchanged
  for the nearest one (`relates_of_nearest`), and matching finds a chain whenever there is one
  (`contextMatches_of_chain`).

`selects_iff_names_of_admissible` puts the two together.
-/

set_option autoImplicit false

namespace EmailMarkup.Selector

open EmailMarkup.Html Relation

variable {d : Document} {compound : Compound}

/-! ### Relations between elements -/

/-- Whether `q` stands to `p` as the combinator asks of the element on its left. -/
def Combinator.Relates (k : Combinator) (p q : Place) : Prop :=
  match k with
  | .descendant => TransGen (fun a b => a.parent? = some b) p q
  | .child => p.parent? = some q
  | .nextSibling => p.previous? = some q
  | .subsequentSibling => TransGen (fun a b => a.previous? = some b) p q

/-- The places that a combinator leads to are those in its relation. -/
theorem mem_reach_iff {k : Combinator} {p q : Place} : q ∈ k.reach p ↔ k.Relates p q := by
  cases k with
  | descendant => exact mem_walk_iff Place.ancestors_eq
  | child | nextSibling => exact Option.mem_toList
  | subsequentSibling => exact mem_walk_iff Place.preceding_eq

/-- What is related to an element of a document is an element of the document. -/
theorem Combinator.Relates.mem_places {k : Combinator} {p q : Place} (h : k.Relates p q)
    (hp : p ∈ d.places) : q ∈ d.places := by
  cases k with
  | descendant =>
    induction h with
    | single hstep => exact parent?_mem_places hp hstep
    | tail _ hstep ih => exact parent?_mem_places ih hstep
  | child => exact parent?_mem_places hp h
  | nextSibling => exact previous?_mem_places hp h
  | subsequentSibling =>
    induction h with
    | single hstep => exact previous?_mem_places hp hstep
    | tail _ hstep ih => exact previous?_mem_places ih hstep

/-- Siblings stand in the same elements. -/
theorem above_eq_of_preceding {p q : Place}
    (h : TransGen (fun a b => a.previous? = some b) p q) : q.above = p.above := by
  have hstep : ∀ {a b : Place}, a.previous? = some b → b.above = a.above := by
    intro a b hab
    unfold Place.previous? at hab
    split at hab
    · cases hab
    · cases hab
      rfl
  induction h with
  | single h => exact hstep h
  | tail _ h ih => exact (hstep h).trans ih

/-! ### The meaning of a selector -/

/-- Whether `q` may stand for a compound to the left of `p`: it is in the right relation and
fits. -/
def Combinator.Allows (k : Combinator) (compound : Compound) (p q : Place) : Prop :=
  k.Relates p q ∧ allHold q compound = true

/-- Elements of the document for the compounds to the left of `p`, each a `choice` from the one on
its right. -/
inductive Chain (d : Document) (choice : Combinator → Compound → Place → Place → Prop) :
    List (Combinator × Compound) → Place → Prop where
  | nil {p : Place} : Chain d choice [] p
  | cons {k : Combinator} {compound : Compound} {rest : List (Combinator × Compound)} {p q : Place}
      (hmem : q ∈ d.places) (hchoice : choice k compound p q) (hrest : Chain d choice rest q) :
      Chain d choice ((k, compound) :: rest) p

/-- The element at `p` fits the subject of the selector, and there is a chain for its context. -/
def Names (d : Document) (s : Selector) (p : Place) : Prop :=
  allHold p s.subject = true ∧ Chain d Combinator.Allows s.context p

/-- The first place that fits, among those a combinator leads to, may stand for the compound. -/
theorem allows_of_find? {k : Combinator} {p q : Place}
    (hfind : (k.reach p).find? (fun q => allHold q compound) = some q) : k.Allows compound p q := by
  have hfits := List.find?_some hfind
  exact ⟨mem_reach_iff.mp (List.mem_of_find?_eq_some hfind), hfits⟩

/-- If any place may stand for a compound, then there is a first one. -/
theorem exists_find?_of_allows {k : Combinator} {p q : Place} (h : k.Allows compound p q) :
    ∃ r, (k.reach p).find? (fun q => allHold q compound) = some r :=
  Option.isSome_iff_exists.mp (List.find?_isSome.mpr ⟨q, mem_reach_iff.mpr h.1, h.2⟩)

/-- Matching a compound takes the nearest place that fits, and goes on from there. -/
theorem contextMatches_cons_iff {k : Combinator} {rest : List (Combinator × Compound)} {p : Place} :
    contextMatches ((k, compound) :: rest) p = true ↔
      ∃ q, (k.reach p).find? (fun q => allHold q compound) = some q ∧
        contextMatches rest q = true := by
  rw [contextMatches]
  cases (k.reach p).find? (fun q => allHold q compound) with
  | none | some q => simp

/-- The places that matching takes are a chain. -/
theorem chain_of_contextMatches {context : List (Combinator × Compound)} {p : Place}
    (hp : p ∈ d.places) (h : contextMatches context p = true) :
    Chain d Combinator.Allows context p := by
  induction context generalizing p with
  | nil => exact .nil
  | cons part rest ih =>
    obtain ⟨k, compound⟩ := part
    obtain ⟨q, hfind, hrest⟩ := contextMatches_cons_iff.mp h
    have hallows := allows_of_find? hfind
    have hq := hallows.1.mem_places hp
    exact .cons hq hallows (ih hq hrest)

/-! ### Choices that cannot be regretted -/

/-- Whether taking the nearest place for a combinator may lose a chain that goes on with `next`.
Farther out or farther left, there are other parents and other neighbours. -/
def Combinator.mayLose (k next : Combinator) : Bool :=
  match k, next with
  | .descendant, .descendant => false
  | .descendant, _ => true
  | .subsequentSibling, .nextSibling => true
  | _, _ => false

/-- No combinator of the list, read from right to left, may lose a chain at the next one. -/
def Admissible (ks : List Combinator) : Prop :=
  ks.IsChain fun k next => k.mayLose next = false

instance (ks : List Combinator) : Decidable (Admissible ks) :=
  inferInstanceAs (Decidable (ks.IsChain fun k next => k.mayLose next = false))

section Nearest
variable {k : Combinator} {fits : Place → Bool} {p q q' : Place}

/-- Whatever else fits on a walk comes after the nearest place that does. -/
theorem eq_or_mem_walk_of_find? {step : Place → Option Place} {walk : Place → List Place}
    (hwalk : ∀ p, walk p = (step p).elim [] fun q => q :: walk q)
    (hfind : (walk p).find? fits = some q) (hmem : q' ∈ walk p) (hfits : fits q' = true) :
    q' = q ∨ q' ∈ walk q := by
  obtain ⟨-, before, rest, hsplit, hbefore⟩ := List.find?_eq_some_iff_append.mp hfind
  have hrest := eq_walk_of_append hwalk hsplit
  rw [hsplit, List.mem_append, List.mem_cons, hrest] at hmem
  rcases hmem with hmem | hmem
  · have hnot := hbefore q' hmem
    rw [hfits] at hnot
    cases hnot
  · exact hmem

/-- Whatever else fits in the relation of a combinator is farther off than the nearest place. -/
theorem eq_or_relates_of_find? (hfind : (k.reach p).find? fits = some q) (hrel : k.Relates p q')
    (hfits : fits q' = true) : q' = q ∨ k.Relates q q' := by
  have hnearest := mem_reach_iff.mp (List.mem_of_find?_eq_some hfind)
  have hmem := mem_reach_iff.mpr hrel
  cases k with
  | descendant =>
    exact (eq_or_mem_walk_of_find? Place.ancestors_eq hfind hmem hfits).imp_right mem_reach_iff.mp
  | child | nextSibling => exact Or.inl (Option.some.inj (hrel.symm.trans hnearest))
  | subsequentSibling =>
    exact (eq_or_mem_walk_of_find? Place.preceding_eq hfind hmem hfits).imp_right mem_reach_iff.mp

/-- **Exchange**: what is related to any fitting place is related to the nearest one, unless the two
combinators are a pair that may lose it. -/
theorem relates_of_nearest {next : Combinator} {r : Place}
    (hfind : (k.reach p).find? fits = some q) (hrel : k.Relates p q') (hfits : fits q' = true)
    (hkeeps : k.mayLose next = false) (hnext : next.Relates q' r) : next.Relates q r := by
  have hnearest := mem_reach_iff.mp (List.mem_of_find?_eq_some hfind)
  rcases eq_or_relates_of_find? hfind hrel hfits with rfl | hfar
  · exact hnext
  -- With `child` and `nextSibling` there is one place to choose from, and `hfar` is not needed.
  cases k with
  | child | nextSibling =>
    cases hrel.symm.trans hnearest
    exact hnext
  | descendant =>
    cases next with
    | descendant => exact TransGen.trans hfar hnext
    | child => cases hkeeps
    | nextSibling => cases hkeeps
    | subsequentSibling => cases hkeeps
  | subsequentSibling =>
    -- Both stand in the same elements, so going out from one is going out from the other.
    have habove := above_eq_of_preceding hfar
    cases next with
    | descendant =>
      refine mem_reach_iff.mp ?_
      have hmem := mem_reach_iff.mpr hnext
      unfold Combinator.reach Place.ancestors at hmem ⊢
      rwa [← habove]
    | child =>
      unfold Combinator.Relates Place.parent? at hnext ⊢
      rwa [← habove]
    | nextSibling => cases hkeeps
    | subsequentSibling => exact TransGen.trans hfar hnext

end Nearest

/-- Where no choice can be regretted, matching succeeds if there is a chain. -/
theorem contextMatches_of_chain {context : List (Combinator × Compound)} {p : Place}
    (hkeeps : Admissible (context.map Prod.fst)) (h : Chain d Combinator.Allows context p) :
    contextMatches context p = true := by
  induction context generalizing p with
  | nil => rfl
  | cons part rest ih =>
    obtain ⟨k, compound⟩ := part
    obtain _ | ⟨-, hallows, hrest⟩ := h
    obtain ⟨q, hfind⟩ := exists_find?_of_allows hallows
    refine contextMatches_cons_iff.mpr ⟨q, hfind, ih (List.IsChain.tail hkeeps) ?_⟩
    -- The chain goes on from the nearest place as it went on from the other one.
    cases hrest with
    | nil => exact .nil
    | cons hmem hchoice hrest =>
      have hkeep := (List.isChain_cons_cons.mp hkeeps).1
      have hnext := relates_of_nearest hfind hallows.1 hallows.2 hkeep hchoice.1
      exact .cons hmem ⟨hnext, hchoice.2⟩ hrest

/-- What matching accepts is named by the selector; and where no combinator may lose a chain at the
next one, matching accepts exactly what the selector names. -/
theorem selects_iff_names_of_admissible (d : Document) (s : Selector) (p : Place)
    (hp : p ∈ d.places) :
    (selects s p = true → Names d s p) ∧
      (Admissible (s.context.map Prod.fst) → (selects s p = true ↔ Names d s p)) := by
  have hsound : selects s p = true → Names d s p := by
    intro h
    obtain ⟨hsubject, hcontext⟩ := Bool.and_eq_true_iff.mp h
    exact ⟨hsubject, chain_of_contextMatches hp hcontext⟩
  refine ⟨hsound, fun hkeeps => ⟨hsound, ?_⟩⟩
  rintro ⟨hsubject, hchain⟩
  exact Bool.and_eq_true_iff.mpr ⟨hsubject, contextMatches_of_chain hkeeps hchain⟩

/-- All four combinators in one selector: `a h ~ p + q > r` names the `r` of a document in which the
element just before `q` is not the only `p`. -/
theorem names_row_in_element :
    Names (Document.read "<a><h></h><p></p><p></p><q><r></r></q></a>")
      { subject := [.type "r"]
        context := [(.child, [.type "q"]), (.nextSibling, [.type "p"]),
          (.subsequentSibling, [.type "h"]), (.descendant, [.type "a"])] }
      { row := { before := [], here := ⟨plainTag "r", true⟩, after := [] }
        above :=
          [{ before := [⟨plainTag "p", true⟩, ⟨plainTag "p", true⟩, ⟨plainTag "h", true⟩]
             here := ⟨plainTag "q", false⟩
             after := [] },
           { before := [], here := ⟨plainTag "a", false⟩, after := [] }] } := by
  have hread : Document.read "<a><h></h><p></p><p></p><q><r></r></q></a>" =
      { children := [.element (plainTag "a") [.element (plainTag "h") [],
        .element (plainTag "p") [], .element (plainTag "p") [],
        .element (plainTag "q") [.element (plainTag "r") []]]] } := by
    refine Eq.trans (congrArg Document.read (by decide +kernel)) (read_print ?_)
    have hq : Canonical [.element (plainTag "q") [.element (plainTag "r") []]] :=
      .plain (by decide) (.plain (by decide) .nil .nil) .nil
    exact .plain (by decide) (.plain (by decide) .nil (.plain (by decide) .nil
      (.plain (by decide) .nil hq))) .nil
  rw [hread]
  refine ((selects_iff_names_of_admissible _ _ _ ?_).2 (by decide)).mp (by decide +kernel)
  simp [Document.places, placesAmong, elementsAmong]

end EmailMarkup.Selector
