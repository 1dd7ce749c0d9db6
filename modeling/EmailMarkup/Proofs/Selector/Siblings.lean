import EmailMarkup.Proofs.Html.Numbering
import EmailMarkup.Selector.Match

/-!
# Conditions on the place of an element

The conditions on the place of an element are asked of its place: which elements stand before it and
which after. They can also be asked of its number, through the list of the elements beside it. Then
the position of the element is where its number is found in that list, and the first, last and only
element of a type are those of the list filtered by type (`Structural.holdsAt`). The two ways agree
for every condition (`holds_eq_holdsAt`), because the list has the element once, between the numbers
of those before it and those after it (`Document.IsViewOf`).

`structural_conditions_agree` draws the conclusions that hold between different conditions.
-/

set_option autoImplicit false

namespace EmailMarkup.Selector

open EmailMarkup.Text EmailMarkup.Html

/-! ### Conditions on numbers -/

/-- Where an element stands among the elements beside it, counted from 0. -/
def positionOf (d : Document) (id : Nat) : Nat :=
  ((d.elementSiblings id).idxOf? id).getD 0

/-- Whether two numbers are those of elements of the same name. -/
def sameTypeAt (d : Document) (id other : Nat) : Bool :=
  (d.tagAt? other).any fun t => sameName t.name (((d.tagAt? id).map Tag.name).getD "")

/-- The numbers of the elements beside an element that have its name, itself included. -/
def siblingsOfType (d : Document) (id : Nat) : List Nat :=
  (d.elementSiblings id).filter (sameTypeAt d id)

/-- Whether a condition holds of the element with a number. -/
def Structural.holdsAt (d : Document) (id : Nat) : Structural → Bool
  | .firstChild => positionOf d id == 0
  | .lastChild => positionOf d id + 1 == (d.elementSiblings id).length
  | .onlyChild => (d.elementSiblings id).length == 1
  | .firstOfType => (siblingsOfType d id).head? == some id
  | .lastOfType => (siblingsOfType d id).getLast? == some id
  | .onlyOfType => (siblingsOfType d id).length == 1
  | .root => (d.parentElement? id).isNone
  | .empty => (d.childrenOf id).isEmpty
  | .nthChild a b => isNth a b (positionOf d id + 1)

section
variable {d : Document} {p : Place} {id : Nat} {before after : List Nat}

theorem positionOf_of_isViewOf (h : d.IsViewOf p id before after) :
    positionOf d id = p.row.before.length := by
  rw [positionOf, h.isPlaceOf.position, Option.getD_some]

/-- Numbers of elements and the elements themselves agree on which have the name of an element. -/
theorem countP_sameTypeAt (h : d.IsViewOf p id before after) {ids : List Nat}
    {elements : List Element} (htags : ids.map d.tagAt? = elements.map fun e => some e.tag) :
    ids.countP (sameTypeAt d id) = elements.countP (sameType p) := by
  have hids : ids.countP (sameTypeAt d id) =
      (ids.map d.tagAt?).countP fun t => t.any fun t => sameName t.name p.tag.name := by
    rw [List.countP_map]
    refine List.countP_congr fun other _ => ?_
    rw [Function.comp_apply, sameTypeAt, h.tag]
    rfl
  rw [hids, htags, List.countP_map]
  rfl

/-- The elements of the type of an element: those before it, itself and those after it. -/
theorem siblingsOfType_of_isViewOf (h : d.IsViewOf p id before after) :
    siblingsOfType d id = before.filter (sameTypeAt d id) ++ id ::
      after.filter (sameTypeAt d id) := by
  have hself : sameTypeAt d id id = true := by
    rw [sameTypeAt, h.tag]
    exact sameName_self p.tag.name
  rw [siblingsOfType, h.siblings, List.filter_append, List.filter_cons, if_pos hself]

/-- None of some numbers is that of an element of the type if none of the elements is of it. -/
theorem filter_sameTypeAt_eq_nil_iff (h : d.IsViewOf p id before after) {ids : List Nat}
    {elements : List Element} (htags : ids.map d.tagAt? = elements.map fun e => some e.tag) :
    ids.filter (sameTypeAt d id) = [] ↔ elements.any (sameType p) = false := by
  rw [← List.length_eq_zero_iff, ← List.countP_eq_length_filter, countP_sameTypeAt h htags,
    List.countP_eq_zero, List.any_eq_false]

/-- Whether a condition holds can be told from the place of an element and from its number. -/
theorem holds_eq_holdsAt (h : d.IsViewOf p id before after) (s : Structural) :
    s.holds p = s.holdsAt d id := by
  have hposition := positionOf_of_isViewOf h
  have hlength := h.isPlaceOf.length
  have htypes := siblingsOfType_of_isViewOf h
  cases s with
  | firstChild =>
    rw [Structural.holds, Structural.holdsAt, hposition]
    cases p.row.before <;> rfl
  | lastChild =>
    rw [Structural.holds, Structural.holdsAt, hposition, hlength, Bool.eq_iff_iff,
      List.isEmpty_iff_length_eq_zero, beq_iff_eq]
    omega
  | onlyChild =>
    rw [Structural.holds, Structural.holdsAt, hlength, Row.elements, List.length_append,
      List.length_reverse, List.length_cons, Nat.add_assoc, Nat.add_comm 1]
  | firstOfType =>
    have hnone : (p.row.before.reverse).any (sameType p) = p.row.before.any (sameType p) :=
      List.any_reverse
    rw [Structural.holds, Structural.holdsAt, htypes, Bool.eq_iff_iff, Bool.not_eq_true', ← hnone,
      ← filter_sameTypeAt_eq_nil_iff h h.tagsBefore, beq_iff_eq]
    -- If others of the type stand before it, the first of them is another element.
    cases hothers : before.filter (sameTypeAt d id) with
    | nil => simp
    | cons other others =>
      have hmem : other ∈ before :=
        (List.mem_filter.mp (hothers ▸ List.mem_cons_self)).1
      have hne : other ≠ id := fun heq =>
        (Document.notMem_of_elementSiblings h.isElement h.siblings).1 (heq ▸ hmem)
      simp [hne]
  | lastOfType =>
    rw [Structural.holds, Structural.holdsAt, htypes, Bool.eq_iff_iff, Bool.not_eq_true',
      ← filter_sameTypeAt_eq_nil_iff h h.tagsAfter, beq_iff_eq]
    rcases List.eq_nil_or_concat (after.filter (sameTypeAt d id)) with
      hnil | ⟨others, other, hothers⟩
    · simp [hnil]
    · rw [List.concat_eq_append] at hothers
      have hfound : other ∈ after.filter (sameTypeAt d id) := by
        rw [hothers]
        exact List.mem_append_right _ List.mem_cons_self
      have hmem := (List.mem_filter.mp hfound).1
      have hne : other ≠ id := fun heq =>
        (Document.notMem_of_elementSiblings h.isElement h.siblings).2 (heq ▸ hmem)
      rw [hothers, ← List.cons_append, ← List.append_assoc, List.getLast?_concat]
      simp [hne]
  | onlyOfType =>
    have hself : sameType p p.row.here = true := sameName_self p.tag.name
    have hbefore := countP_sameTypeAt h h.tagsBefore
    have hafter := countP_sameTypeAt h h.tagsAfter
    rw [List.countP_reverse] at hbefore
    rw [Structural.holds, Structural.holdsAt, htypes, ← List.countP_eq_length_filter, Row.elements,
      List.countP_append, List.countP_cons_of_pos hself, List.countP_reverse, List.length_append,
      List.length_cons, ← List.countP_eq_length_filter, ← List.countP_eq_length_filter, hbefore,
      hafter]
  | root => rw [Structural.holds, Structural.holdsAt, h.isRoot]
  | empty => rw [Structural.holds, Structural.holdsAt, h.isEmpty]
  | nthChild a b => rw [Structural.holds, Structural.holdsAt, hposition]

/-- An element is the first one exactly if there is none just before it. -/
theorem firstChild_holds_iff_previousElement? (h : d.IsViewOf p id before after) :
    Structural.firstChild.holds p = true ↔ d.previousElement? id = none := by
  have hlength := congrArg List.length h.tagsBefore
  rw [List.length_map, List.length_map, List.length_reverse] at hlength
  rw [Document.previousElement?_eq_getLast? h.isElement h.siblings,
    List.getLast?_eq_none_iff, ← List.length_eq_zero_iff, hlength, List.length_eq_zero_iff,
    Structural.holds, List.isEmpty_iff]

end

/-! ### Agreement -/

section
variable (p : Place)

theorem firstChild_holds_iff_nthChild :
    Structural.firstChild.holds p = true ↔ (Structural.nthChild 0 1).holds p = true := by
  rw [Structural.holds, Structural.holds, isNth, if_pos rfl, List.isEmpty_iff_length_eq_zero,
    decide_eq_true_iff]
  omega

theorem onlyChild_holds_iff :
    Structural.onlyChild.holds p = true ↔
      Structural.firstChild.holds p = true ∧ Structural.lastChild.holds p = true := by
  rw [Structural.holds, Structural.holds, Structural.holds, Row.elements, beq_iff_eq,
    List.length_append, List.length_reverse, List.length_cons, List.isEmpty_iff_length_eq_zero,
    List.isEmpty_iff_length_eq_zero]
  omega

theorem onlyOfType_holds_iff :
    Structural.onlyOfType.holds p = true ↔
      Structural.firstOfType.holds p = true ∧ Structural.lastOfType.holds p = true := by
  have hself : sameType p p.row.here = true := sameName_self p.tag.name
  -- No element of a list has the type exactly if the number of those that have it is 0.
  have hnone : ∀ elements : List Element,
      (!elements.any (sameType p)) = true ↔ elements.countP (sameType p) = 0 := by
    intro elements
    rw [Bool.not_eq_true', List.any_eq_false, List.countP_eq_zero]
  rw [Structural.holds, Structural.holds, Structural.holds, hnone, hnone, beq_iff_eq,
    ← List.countP_eq_length_filter, Row.elements, List.countP_append, List.countP_reverse,
    List.countP_cons_of_pos hself]
  omega

theorem firstOfType_of_firstChild (h : Structural.firstChild.holds p = true) :
    Structural.firstOfType.holds p = true := by
  rw [Structural.holds, List.isEmpty_iff] at h
  rw [Structural.holds, h]
  rfl

theorem lastOfType_of_lastChild (h : Structural.lastChild.holds p = true) :
    Structural.lastOfType.holds p = true := by
  rw [Structural.holds, List.isEmpty_iff] at h
  rw [Structural.holds, h]
  rfl

end

/-- In every document and for every element, the conditions on its place can be told from the
numbers of the elements beside it, and agree with each other: the first child is the child at
position 1, and has no element just before it; the only one, of all or of its type, is the one that
is both the first and the last; and the first and the last of all are so of their type. A negation
holds exactly if what it negates does not. -/
theorem structural_conditions_agree (d : Document) {p : Place} {id : Nat}
    (h : (p, id) ∈ d.places.zip d.elementIds) :
    (∀ s : Structural, s.holds p = s.holdsAt d id) ∧
      (Structural.firstChild.holds p = true ↔ (Structural.nthChild 0 1).holds p = true) ∧
      (Structural.onlyChild.holds p = true ↔
        Structural.firstChild.holds p = true ∧ Structural.lastChild.holds p = true) ∧
      (Structural.onlyOfType.holds p = true ↔
        Structural.firstOfType.holds p = true ∧ Structural.lastOfType.holds p = true) ∧
      (Structural.firstChild.holds p = true → Structural.firstOfType.holds p = true) ∧
      (Structural.lastChild.holds p = true → Structural.lastOfType.holds p = true) ∧
      (Structural.firstChild.holds p = true ↔ d.previousElement? id = none) ∧
      ∀ compound : Compound,
        allHold p [.negation compound] = true ↔ ¬ allHold p compound = true := by
  obtain ⟨before, after, hview⟩ := Document.exists_isViewOf h
  refine ⟨holds_eq_holdsAt hview, firstChild_holds_iff_nthChild p, onlyChild_holds_iff p,
    onlyOfType_holds_iff p, firstOfType_of_firstChild p, lastOfType_of_lastChild p,
    firstChild_holds_iff_previousElement? hview, ?_⟩
  intro compound
  rw [allHold, allHold, Bool.and_true, Simple.holds, Bool.not_eq_true', Bool.not_eq_true]

/-- A list whose second item stands after another element and is written in capitals. -/
def mixedList : Document :=
  { children := [.element ⟨"ul", [], false, true⟩
      [.element ⟨"li", [], false, true⟩ [], .text "and", .element ⟨"p", [], false, false⟩ [],
        .element ⟨"LI", [], false, true⟩ []]] }

/-- Its second item is the last child and the last of its type, but neither the first nor the only
one, and the paragraph stands just before it. -/
theorem mixedList_conditions :
    let item : Element := ⟨⟨"li", [], false, true⟩, true⟩
    let paragraph : Element := ⟨⟨"p", [], false, false⟩, true⟩
    let p : Place := ⟨⟨[paragraph, item], ⟨⟨"LI", [], false, true⟩, true⟩, []⟩,
      [⟨[], ⟨⟨"ul", [], false, true⟩, false⟩, []⟩]⟩
    (p, 5) ∈ mixedList.places.zip mixedList.elementIds ∧
      Structural.lastOfType.holds p = true ∧ ¬ Structural.onlyOfType.holds p = true ∧
      (Structural.lastOfType.holds p = Structural.lastOfType.holdsAt mixedList 5) ∧
      (Structural.firstChild.holds p = true ↔ mixedList.previousElement? 5 = none) ∧
      mixedList.previousElement? 5 = some 4 := by
  intro item paragraph p
  have hids : mixedList.elementIds = [1, 2, 4, 5] := by decide +kernel
  have hmem : (p, 5) ∈ mixedList.places.zip mixedList.elementIds := by
    rw [hids]
    simp [mixedList, Document.places, placesAmong, elementsAmong, p, item, paragraph]
  obtain ⟨hsame, -, -, -, -, -, hfirst, -⟩ := structural_conditions_agree mixedList hmem
  exact ⟨hmem, by decide, by decide, hsame .lastOfType, hfirst, by decide +kernel⟩

end EmailMarkup.Selector
