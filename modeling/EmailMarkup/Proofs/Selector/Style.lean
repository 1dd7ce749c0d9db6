import EmailMarkup.Proofs.Html.Retag
import EmailMarkup.Selector.Match

/-!
# What a selector sees of styles

Inlining changes no attribute but `style`. A selector that does not ask for it cannot tell a changed
element from the one that was there before, and one that asks for it in its subject alone sees the
element itself, which has not changed when its turn comes. `selects_congr` says both: two places
that are alike but for styles are selected by the same selectors, if they have the same tag and no
compound to the left of the subject asks for a style.

The proof goes along the matching. Compounds hold of the same places (`allHold_congr`), a combinator
leads to places that are alike one by one (`forall₂_reach`), and so the nearest place that fits is
the same one on both sides.
-/

set_option autoImplicit false

namespace EmailMarkup.Selector

open EmailMarkup.Html EmailMarkup.Text

/-- Tags that differ at most in their style. -/
structure SameButStyle (t u : Tag) : Prop where
  name : t.name = u.name
  attribute? : ∀ name, sameName name "style" = false → t.attribute? name = u.attribute? name

theorem SameButStyle.refl (t : Tag) : SameButStyle t t :=
  ⟨rfl, fun _ _ => rfl⟩

theorem SameButStyle.setAttribute (t : Tag) (value : String) :
    SameButStyle (t.setAttribute "style" value) t :=
  ⟨rfl, fun _ hname => attribute?_setAttribute_of_ne t value hname⟩

mutual

/-- Whether a condition asks for the style, perhaps in a negation. -/
def Simple.asksStyle : Simple → Bool
  | .attribute name _ => sameName name "style"
  | .negation compound => anyAsksStyle compound
  | _ => false

/-- Whether one of the conditions asks for the style. -/
def anyAsksStyle : List Simple → Bool
  | [] => false
  | s :: rest => s.asksStyle || anyAsksStyle rest

end

/-- Whether a selector asks for the style of another element than the one it names. -/
def asksStyleAround (s : Selector) : Bool :=
  s.context.any fun part => anyAsksStyle part.2

/-! ### Conditions -/

theorem isEmpty_eq_of_forall₂ {α : Type} {R : α → α → Prop} {l l' : List α}
    (h : List.Forall₂ R l l') : l.isEmpty = l'.isEmpty := by
  cases h <;> rfl

section Alike
variable {p q : Place} (h : Place.Alike SameButStyle p q)

include h

/-- What a condition on the place asks for is the same in places that are alike. -/
theorem Structural.holds_congr (s : Structural) : s.holds p = s.holds q := by
  have hbefore := h.row.before.length_eq
  have hafter := h.row.after.length_eq
  have hlength : p.row.elements.length = q.row.elements.length := by
    simp [Row.elements, hbefore, hafter]
  have htype : ∀ {e e' : Element}, Element.Alike SameButStyle e e' →
      sameType p e = sameType q e' := by
    intro e e' he
    unfold sameType Place.tag
    rw [he.tag.name, h.row.here.tag.name]
  have hany : ∀ {l l' : List Element}, List.Forall₂ (Element.Alike SameButStyle) l l' →
      l.any (sameType p) = l'.any (sameType q) := by
    intro l l' hl
    induction hl with
    | nil => rfl
    | cons he _ ih => rw [List.any_cons, List.any_cons, htype he, ih]
  have hcount : ∀ {l l' : List Element}, List.Forall₂ (Element.Alike SameButStyle) l l' →
      (l.filter (sameType p)).length = (l'.filter (sameType q)).length := by
    intro l l' hl
    rw [← List.countP_eq_length_filter, ← List.countP_eq_length_filter]
    induction hl with
    | nil => rfl
    | cons he _ ih => rw [List.countP_cons, List.countP_cons, htype he, ih]
  have helements : List.Forall₂ (Element.Alike SameButStyle) p.row.elements q.row.elements :=
    List.rel_append (List.rel_reverse h.row.before) (.cons h.row.here h.row.after)
  cases s with
  | firstChild => exact isEmpty_eq_of_forall₂ h.row.before
  | lastChild => exact isEmpty_eq_of_forall₂ h.row.after
  | onlyChild => simp only [Structural.holds, hlength]
  | firstOfType => simp only [Structural.holds, hany h.row.before]
  | lastOfType => simp only [Structural.holds, hany h.row.after]
  | onlyOfType => simp only [Structural.holds, hcount helements]
  | root => exact isEmpty_eq_of_forall₂ h.above
  | empty => exact h.row.here.isEmpty
  | nthChild a b => simp only [Structural.holds, hbefore]

/-- An attribute is the same in places that are alike, unless it is the style and the tags are
not the same. -/
theorem attribute?_congr (name : String) (hasks : sameName name "style" = false ∨ p.tag = q.tag) :
    p.tag.attribute? name = q.tag.attribute? name := by
  rcases hasks with hname | htag
  · exact h.row.here.tag.attribute? name hname
  · rw [htag]

end Alike

mutual

theorem Simple.holds_congr {p q : Place} (h : Place.Alike SameButStyle p q) (s : Simple)
    (hasks : s.asksStyle = false ∨ p.tag = q.tag) : s.holds p = s.holds q := by
  match s with
  | .universal => simp only [Simple.holds]
  | .type name =>
    have hname : p.tag.name = q.tag.name := h.row.here.tag.name
    simp only [Simple.holds, hname]
  | .id name =>
    have hid := attribute?_congr h "id" (Or.inl (by decide +kernel))
    simp only [Simple.holds, hid]
  | .className name =>
    have hclass := attribute?_congr h "class" (Or.inl (by decide +kernel))
    simp only [Simple.holds, hclass]
  | .attribute name test =>
    rw [Simple.asksStyle] at hasks
    simp only [Simple.holds, attribute?_congr h name hasks]
  | .structural condition => simp only [Simple.holds, condition.holds_congr h]
  | .negation compound =>
    rw [Simple.asksStyle] at hasks
    simp only [Simple.holds, allHold_congr h compound hasks]

/-- A compound that does not ask for the style holds of both of two places that are alike, or of
neither. With the same tag in both places it may ask for the style. -/
theorem allHold_congr {p q : Place} (h : Place.Alike SameButStyle p q) (compound : List Simple)
    (hasks : anyAsksStyle compound = false ∨ p.tag = q.tag) :
    allHold p compound = allHold q compound := by
  match compound with
  | [] => simp only [allHold]
  | s :: rest =>
    rw [anyAsksStyle, Bool.or_eq_false_iff] at hasks
    have hs := Simple.holds_congr h s (hasks.imp_left And.left)
    have hrest := allHold_congr h rest (hasks.imp_left And.right)
    rw [allHold, allHold, hs, hrest]

end

/-! ### Combinators -/

section Reach
variable {p q : Place} (h : Place.Alike SameButStyle p q)

theorem forall₂_placesOfRows {above above' : List Row}
    (h : List.Forall₂ (Row.Alike SameButStyle) above above') :
    List.Forall₂ (Place.Alike SameButStyle) (placesOfRows above) (placesOfRows above') := by
  induction h with
  | nil => exact .nil
  | cons hrow habove ih => exact .cons ⟨hrow, habove⟩ ih

theorem forall₂_rowsBefore {here here' : Element} (hhere : Element.Alike SameButStyle here here')
    {after after' : List Element} (hafter : List.Forall₂ (Element.Alike SameButStyle) after after')
    {before before' : List Element}
    (hbefore : List.Forall₂ (Element.Alike SameButStyle) before before') :
    List.Forall₂ (Row.Alike SameButStyle) (rowsBefore here after before)
      (rowsBefore here' after' before') := by
  induction hbefore generalizing here here' after after' with
  | nil => exact .nil
  | cons he hrest ih =>
    have hbehind := List.Forall₂.cons hhere hafter
    exact .cons ⟨hrest, he, hbehind⟩ (ih he hbehind)

include h

/-- A combinator leads to places that are alike one by one. -/
theorem forall₂_reach (k : Combinator) :
    List.Forall₂ (Place.Alike SameButStyle) (k.reach p) (k.reach q) := by
  obtain ⟨⟨before, here, after⟩, above⟩ := p
  obtain ⟨⟨before', here', after'⟩, above'⟩ := q
  obtain ⟨⟨hbefore, hhere, hafter⟩, habove⟩ := h
  cases k with
  | descendant => exact forall₂_placesOfRows habove
  | child =>
    cases habove with
    | nil => exact .nil
    | cons hrow hrest => exact .cons ⟨hrow, hrest⟩ .nil
  | nextSibling =>
    cases hbefore with
    | nil => exact .nil
    | cons he hrest => exact .cons ⟨⟨hrest, he, .cons hhere hafter⟩, habove⟩ .nil
  | subsequentSibling =>
    have hrows := forall₂_rowsBefore hhere hafter hbefore
    exact List.forall₂_map_left_iff.mpr (List.forall₂_map_right_iff.mpr
      (hrows.imp fun _ _ hrow => ⟨hrow, habove⟩))

end Reach

/-! ### Selectors -/

/-- The nearest place that fits is found on both sides, or on neither. -/
theorem rel_find? (fits : Place → Bool) {l l' : List Place}
    (hl : List.Forall₂ (Place.Alike SameButStyle) l l')
    (hfits : ∀ {p q : Place}, Place.Alike SameButStyle p q → fits p = fits q) :
    Option.Rel (Place.Alike SameButStyle) (l.find? fits) (l'.find? fits) := by
  induction hl with
  | nil => exact .none
  | cons hp _ ih =>
    rw [List.find?_cons, List.find?_cons, hfits hp]
    split
    · exact .some hp
    · exact ih

theorem contextMatches_congr {context : List (Combinator × Compound)}
    (hasks : context.any (fun part => anyAsksStyle part.2) = false) {p q : Place}
    (h : Place.Alike SameButStyle p q) : contextMatches context p = contextMatches context q := by
  induction context generalizing p q with
  | nil => rfl
  | cons part rest ih =>
    obtain ⟨k, compound⟩ := part
    rw [List.any_cons, Bool.or_eq_false_iff] at hasks
    have hfind := rel_find? (fun r => allHold r compound) (forall₂_reach h k)
      fun hrs => allHold_congr hrs compound (Or.inl hasks.1)
    rw [contextMatches, contextMatches]
    revert hfind
    generalize (k.reach p).find? (fun r => allHold r compound) = r
    generalize (k.reach q).find? (fun r => allHold r compound) = r'
    intro hfind
    cases hfind with
    | none => rfl
    | some hrs => exact ih hasks.2 hrs

/-- A selector that asks for no style but that of the element it names selects both of two places
that are alike and have the same tag, or neither. -/
theorem selects_congr {s : Selector} (hasks : s.asksStyleAround = false) {p q : Place}
    (h : Place.Alike SameButStyle p q) (htag : p.tag = q.tag) : selects s p = selects s q := by
  unfold selects
  rw [allHold_congr h s.subject (Or.inr htag), contextMatches_congr hasks h]

end EmailMarkup.Selector
