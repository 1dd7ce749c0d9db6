import EmailMarkup.Html.Place
import EmailMarkup.Proofs.Html.Forest
import EmailMarkup.Proofs.Text
import Mathlib.Data.List.Forall2

/-!
# Changing tags in document order

`Document.updateInOrder` changes the tags of a document one after the other, and shows each element
in the document as it is by then. The places that it is shown are its *turns* (`turnsAmong`), and
the new tags are what the change makes of them (`tagsAmong_updateAmong`).

What a turn shows can be said without the recursion. `retagAmong` gives the first elements of a
document new tags from a list and leaves the others alone. The turn of the element number `i` is its
place in the document whose first `i` elements have the tags that they are given in the end
(`getElem?_turnsAmong`). The induction is over the nodes: an element in the content of another one
is seen in a row that has changed already, and what comes after that row has not.

`forall₂_turnsAmong` compares the turns with the places in the document as given, for a change that
keeps to a relation between tags.
-/

set_option autoImplicit false

namespace EmailMarkup.Html

open EmailMarkup.Text

/-! ### Attributes -/

theorem attribute?_setAttribute (t : Tag) (name value : String) :
    (t.setAttribute name value).attribute? name = some value := by
  obtain ⟨tagName, attributes, selfClosing, closed⟩ := t
  show ((setAttributeIn name value attributes).find? (fun a => sameName a.name name)).map
    (fun a => a.value.getD "") = some value
  induction attributes with
  | nil => simp [setAttributeIn]
  | cons a rest ih =>
    unfold setAttributeIn
    by_cases h : sameName a.name name = true
    · simp [h]
    · rw [if_neg h, List.find?_cons, Bool.of_not_eq_true h]
      exact ih

theorem attribute?_setAttribute_of_ne (t : Tag) {name other : String} (value : String)
    (hne : sameName other name = false) :
    (t.setAttribute name value).attribute? other = t.attribute? other := by
  obtain ⟨tagName, attributes, selfClosing, closed⟩ := t
  show ((setAttributeIn name value attributes).find? (fun a => sameName a.name other)).map
      (fun a => a.value.getD "") =
    (attributes.find? (fun a => sameName a.name other)).map fun a => a.value.getD ""
  -- An attribute cannot have both names.
  have hapart : ∀ s : String, sameName s name = true → sameName s other = false := by
    intro s hs
    unfold sameName at hs hne ⊢
    rw [beq_iff_eq] at hs
    rw [hs, Bool.beq_comm]
    exact hne
  induction attributes with
  | nil => simp [setAttributeIn, hapart name (sameName_self name)]
  | cons a rest ih =>
    unfold setAttributeIn
    by_cases h : sameName a.name name = true
    · simp [h, hapart a.name h]
    · rw [if_neg h, List.find?_cons, List.find?_cons]
      split
      · rfl
      · exact ih

/-! ### Tags and turns -/

/-- The tags among nodes and in them, in document order. -/
def tagsAmong : List Node → List Tag
  | [] => []
  | .element tag children :: rest => tag :: (tagsAmong children ++ tagsAmong rest)
  | _ :: rest => tagsAmong rest

/-- The tags of a document, in document order. -/
def Document.tags (d : Document) : List Tag :=
  tagsAmong d.children

/-- Gives the first elements new tags, in document order, as long as there are any. -/
def retagAmong (tags : List Tag) : List Node → List Node
  | [] => []
  | .element tag children :: rest =>
    .element (tags.head?.getD tag) (retagAmong tags.tail children) ::
      retagAmong (tags.tail.drop (tagsAmong children).length) rest
  | n :: rest => n :: retagAmong tags rest

/-- A document whose first elements have the given tags. -/
def Document.retag (d : Document) (tags : List Tag) : Document :=
  { children := retagAmong tags d.children }

/-- The places that a change of tags in document order is shown. -/
def turnsAmong (f : Place → Tag) (above : List Row) (before : List Element) :
    List Node → List Place
  | [] => []
  | .element tag children :: rest =>
    let here : Element := { tag, isEmpty := children.isEmpty }
    let row : Row := { before, here, after := elementsAmong rest }
    let changed : Element := { here with tag := f { row, above } }
    { row, above } ::
      (turnsAmong f ({ row with here := changed } :: above) [] children ++
        turnsAmong f above (changed :: before) rest)
  | _ :: rest => turnsAmong f above before rest

theorem retagAmong_nil (nodes : List Node) : retagAmong [] nodes = nodes := by
  induction nodes using forest_induction with
  | nil => rw [retagAmong]
  | text content rest ih | comment content rest ih | declaration content rest ih =>
    rw [retagAmong, ih]; simp
  | element tag children rest ihChildren ihRest =>
    rw [retagAmong, List.tail_nil, List.drop_nil, ihChildren, ihRest]
    rfl

theorem isEmpty_retagAmong (tags : List Tag) (nodes : List Node) :
    (retagAmong tags nodes).isEmpty = nodes.isEmpty := by
  cases nodes with
  | nil => rw [retagAmong]
  | cons n rest => cases n <;> simp [retagAmong]

theorem length_placesAmong (above : List Row) (before : List Element) (nodes : List Node) :
    (placesAmong above before nodes).length = (tagsAmong nodes).length := by
  induction nodes using forest_induction generalizing above before with
  | nil => simp [placesAmong, tagsAmong]
  | text content rest ih | comment content rest ih | declaration content rest ih =>
    simpa only [placesAmong, tagsAmong] using ih above before
  | element tag children rest ihChildren ihRest =>
    simp only [placesAmong, tagsAmong, List.length_cons, List.length_append, ihChildren, ihRest]

theorem length_tagsAmong_retagAmong (tags : List Tag) (nodes : List Node) :
    (tagsAmong (retagAmong tags nodes)).length = (tagsAmong nodes).length := by
  induction nodes using forest_induction generalizing tags with
  | nil => rw [retagAmong]
  | text content rest ih | comment content rest ih | declaration content rest ih =>
    simpa only [retagAmong, tagsAmong] using ih tags
  | element tag children rest ihChildren ihRest =>
    simp only [retagAmong, tagsAmong, List.length_cons, List.length_append, ihChildren, ihRest]

/-- In its turn an element has its own tag. -/
theorem map_tag_turnsAmong (f : Place → Tag) (above : List Row) (before : List Element)
    (nodes : List Node) :
    (turnsAmong f above before nodes).map Place.tag = tagsAmong nodes := by
  induction nodes using forest_induction generalizing above before with
  | nil => simp [turnsAmong, tagsAmong]
  | text content rest ih | comment content rest ih | declaration content rest ih =>
    simpa only [turnsAmong, tagsAmong] using ih above before
  | element tag children rest ihChildren ihRest =>
    simp only [turnsAmong, tagsAmong, List.map_cons, List.map_append, ihChildren, ihRest]
    rfl

theorem length_turnsAmong (f : Place → Tag) (above : List Row) (before : List Element)
    (nodes : List Node) :
    (turnsAmong f above before nodes).length = (tagsAmong nodes).length := by
  rw [← map_tag_turnsAmong f above before, List.length_map]

/-- Tags that are left over are for no element. -/
theorem retagAmong_append {tags : List Tag} (more : List Tag) {nodes : List Node}
    (hlength : (tagsAmong nodes).length ≤ tags.length) :
    retagAmong (tags ++ more) nodes = retagAmong tags nodes := by
  induction nodes using forest_induction generalizing tags with
  | nil => simp [retagAmong]
  | text content rest ih | comment content rest ih | declaration content rest ih =>
    simp only [retagAmong, ih (by simpa only [tagsAmong] using hlength)]
  | element tag children rest ihChildren ihRest =>
    simp only [tagsAmong, List.length_cons, List.length_append] at hlength
    cases tags with
    | nil => cases hlength
    | cons t tags =>
      rw [List.length_cons] at hlength
      have hdrop : (tags ++ more).drop (tagsAmong children).length =
          tags.drop (tagsAmong children).length ++ more :=
        List.drop_append_of_le_length (by omega)
      simp only [retagAmong, List.cons_append, List.head?_cons, List.tail_cons, hdrop]
      rw [ihChildren (by omega), ihRest (by rw [List.length_drop]; omega)]

/-- The new tags are what the change makes of the turns. -/
theorem tagsAmong_updateAmong (f : Place → Tag) (above : List Row) (before : List Element)
    (nodes : List Node) :
    tagsAmong (updateAmong f above before nodes) = (turnsAmong f above before nodes).map f := by
  induction nodes using forest_induction generalizing above before with
  | nil => simp [updateAmong, tagsAmong, turnsAmong]
  | text content rest ih | comment content rest ih | declaration content rest ih =>
    simpa only [updateAmong, tagsAmong, turnsAmong] using ih above before
  | element tag children rest ihChildren ihRest =>
    simp only [updateAmong, tagsAmong, turnsAmong, List.map_cons, List.map_append, ihChildren,
      ihRest]

/-- A change of tags changes nothing else. -/
theorem updateAmong_eq_retagAmong (f : Place → Tag) (above : List Row) (before : List Element)
    (nodes : List Node) :
    updateAmong f above before nodes =
      retagAmong (tagsAmong (updateAmong f above before nodes)) nodes := by
  induction nodes using forest_induction generalizing above before with
  | nil => simp [updateAmong, retagAmong]
  | text content rest ih | comment content rest ih | declaration content rest ih =>
    simp only [updateAmong, tagsAmong, retagAmong]
    rw [← ih above before]
  | element tag children rest ihChildren ihRest =>
    have hlength : ∀ above' : List Row, (tagsAmong (updateAmong f above' [] children)).length =
        (tagsAmong children).length := by
      intro above'
      rw [tagsAmong_updateAmong, List.length_map, length_turnsAmong]
    simp only [updateAmong, tagsAmong, retagAmong, List.head?_cons, Option.getD_some,
      List.tail_cons]
    rw [retagAmong_append _ (hlength _).ge, List.drop_left' (hlength _), ← ihChildren, ← ihRest]

/-- A change that leaves every tag as it is changes nothing. -/
theorem updateAmong_eq_self {f : Place → Tag} (hf : ∀ p, f p = p.tag) (above : List Row)
    (before : List Element) (nodes : List Node) : updateAmong f above before nodes = nodes := by
  induction nodes using forest_induction generalizing above before with
  | nil => rw [updateAmong]
  | text content rest ih | comment content rest ih | declaration content rest ih =>
    simp [updateAmong, ih]
  | element tag children rest ihChildren ihRest =>
    rw [updateAmong, ihChildren, ihRest, hf]
    rfl

/-- The turn of an element is its place in the document in which the elements before it have the
tags that they are given, and it and the elements after it have their own. -/
theorem getElem?_turnsAmong (f : Place → Tag) (above : List Row) (before : List Element)
    (nodes : List Node) (i : Nat) :
    (turnsAmong f above before nodes)[i]? =
      (placesAmong above before (retagAmong
        (((turnsAmong f above before nodes).map f).take i) nodes))[i]? := by
  induction nodes using forest_induction generalizing above before i with
  | nil => simp [turnsAmong, placesAmong, retagAmong]
  | text content rest ih | comment content rest ih | declaration content rest ih =>
    simpa only [turnsAmong, placesAmong, retagAmong] using ih above before i
  | element tag children rest ihChildren ihRest =>
    let here : Element := { tag, isEmpty := children.isEmpty }
    let row : Row := { before, here, after := elementsAmong rest }
    let changed : Element := { here with tag := f { row, above } }
    let inside := turnsAmong f ({ row with here := changed } :: above) [] children
    let behind := turnsAmong f above (changed :: before) rest
    have hturns : turnsAmong f above before (.element tag children :: rest) =
        { row, above } :: (inside ++ behind) := by rw [turnsAmong]
    have hinside : inside.length = (tagsAmong children).length := length_turnsAmong ..
    rw [hturns]
    cases i with
    | zero => rw [List.take_zero, retagAmong_nil, placesAmong]; rfl
    | succ j =>
      rw [List.map_cons, List.take_succ_cons, retagAmong, List.head?_cons, Option.getD_some,
        List.tail_cons, placesAmong, isEmpty_retagAmong, List.getElem?_cons_succ,
        List.getElem?_cons_succ, List.map_append, ← hinside]
      by_cases hj : j < inside.length
      · -- The element stands in the content of this one, and nothing behind has changed.
        have htake : (inside.map f ++ behind.map f).take j = (inside.map f).take j :=
          List.take_append_of_le_length (by rw [List.length_map]; omega)
        have hdrop : ((inside.map f).take j).drop inside.length = [] := by
          rw [List.drop_eq_nil_iff, List.length_take, List.length_map]
          omega
        rw [htake, hdrop, retagAmong_nil, List.getElem?_append_left hj,
          List.getElem?_append_left (by
            rw [length_placesAmong, length_tagsAmong_retagAmong, ← hinside]; exact hj)]
        exact ihChildren _ _ j
      · -- The element stands behind this one, which has changed together with its content.
        have hle : inside.length ≤ j := Nat.le_of_not_lt hj
        have htake : (inside.map f ++ behind.map f).take j =
            inside.map f ++ (behind.map f).take (j - inside.length) := by
          rw [List.take_append, List.length_map, List.take_of_length_le (by simpa using hle)]
        have hdrop : (inside.map f ++ (behind.map f).take (j - inside.length)).drop
            inside.length = (behind.map f).take (j - inside.length) :=
          List.drop_left' (List.length_map f)
        rw [htake, hdrop, List.getElem?_append_right hle, List.getElem?_append_right (by
          rw [length_placesAmong, length_tagsAmong_retagAmong, ← hinside]; exact hle),
          length_placesAmong, length_tagsAmong_retagAmong, ← hinside]
        exact ihRest _ _ (j - inside.length)

/-- When tags are changed in document order, each element is shown in the document in which the
elements before it have their new tags, and gets the tag that is made for it there. -/
theorem Document.exists_shown (d : Document) (f : Place → Tag) {i : Nat} {t : Tag}
    (ht : d.tags[i]? = some t) :
    ∃ p, p.tag = t ∧ (d.retag ((d.updateInOrder f).tags.take i)).places[i]? = some p ∧
      (d.updateInOrder f).tags[i]? = some (f p) := by
  have htags : (d.updateInOrder f).tags = (turnsAmong f [] [] d.children).map f :=
    tagsAmong_updateAmong _ _ _ _
  rw [Document.tags, ← map_tag_turnsAmong f [] [], List.getElem?_map,
    Option.map_eq_some_iff] at ht
  obtain ⟨p, hturn, rfl⟩ := ht
  refine ⟨p, rfl, ?_, ?_⟩
  · rw [htags, ← hturn]
    exact (getElem?_turnsAmong _ _ _ _ i).symm
  · rw [htags, List.getElem?_map, hturn, Option.map_some]

/-! ### Places that are alike -/

section Alike
variable (R : Tag → Tag → Prop)

/-- Elements whose tags are in a relation, both with content or both without. -/
structure Element.Alike (e e' : Element) : Prop where
  tag : R e.tag e'.tag
  isEmpty : e.isEmpty = e'.isEmpty

/-- Rows of elements that are alike one by one. -/
structure Row.Alike (r r' : Row) : Prop where
  before : List.Forall₂ (Element.Alike R) r.before r'.before
  here : Element.Alike R r.here r'.here
  after : List.Forall₂ (Element.Alike R) r.after r'.after

/-- Places whose rows are alike one by one. -/
structure Place.Alike (p p' : Place) : Prop where
  row : Row.Alike R p.row p'.row
  above : List.Forall₂ (Row.Alike R) p.above p'.above

variable {R}

/-- A change of tags that keeps to a relation shows every element with its own tag, in a place that
is like its place in the document as given. -/
theorem forall₂_turnsAmong {f : Place → Tag} (hf : ∀ p, R (f p) p.tag) (hrefl : ∀ t, R t t)
    {above above' : List Row} (habove : List.Forall₂ (Row.Alike R) above' above)
    {before before' : List Element} (hbefore : List.Forall₂ (Element.Alike R) before' before)
    (nodes : List Node) :
    List.Forall₂ (fun turn p => Place.Alike R turn p ∧ turn.tag = p.tag)
      (turnsAmong f above' before' nodes) (placesAmong above before nodes) := by
  induction nodes using forest_induction generalizing above above' before before' with
  | nil => simp [turnsAmong, placesAmong]
  | text content rest ih | comment content rest ih | declaration content rest ih =>
    simpa only [turnsAmong, placesAmong] using ih habove hbefore
  | element tag children rest ihChildren ihRest =>
    have hafter : List.Forall₂ (Element.Alike R) (elementsAmong rest) (elementsAmong rest) :=
      List.forall₂_same.mpr fun e _ => ⟨hrefl e.tag, rfl⟩
    let here : Element := { tag, isEmpty := children.isEmpty }
    let turn : Place := { row := { before := before', here, after := elementsAmong rest }
                          above := above' }
    have hchanged : Element.Alike R { here with tag := f turn } here := ⟨hf turn, rfl⟩
    rw [turnsAmong, placesAmong]
    refine .cons ⟨⟨⟨hbefore, ⟨hrefl tag, rfl⟩, hafter⟩, habove⟩, rfl⟩ (List.rel_append ?_ ?_)
    · exact ihChildren (.cons ⟨hbefore, hchanged, hafter⟩ habove) .nil
    · exact ihRest habove (.cons hchanged hbefore)

end Alike

end EmailMarkup.Html
