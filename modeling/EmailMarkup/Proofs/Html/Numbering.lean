import EmailMarkup.Html.Numbering
import EmailMarkup.Html.Place
import EmailMarkup.Proofs.Html.Forest
import EmailMarkup.Proofs.Html.Hollow
import EmailMarkup.Proofs.Text
import Mathlib.Data.List.Nodup
import Mathlib.Logic.Function.Iterate

/-!
# The numbers of a document

What the table of a document says is sound: every node but the document hangs in one node, which has
a smaller number and lists it once (`Document.WellNumbered`). This holds of every document in which
elements that cannot have content have none (`wellNumbered`).

The proofs read the table through one equation. `entriesOfNodes_cons` gives the lines of nodes side
by side as the line of the first, the lines of what is in it and the lines of the nodes after it,
whatever the kind of the node. Three inductions along it say how a line hangs in the table
(`hangs_of_mem_entriesOfNodes`, `exists_of_mem_childIds`, `exists_node_of_mem_entriesOfNodes`), and
the fields of `WellNumbered` are read off them.

Two more facts tie the numbers to what else is done with a document. Walking down from the document
with a stack finds the elements in the order of their numbers and ends (`iterate_walkStep`), and the
places that selectors are matched at stand in the rows that the numbers give (`forall₂_isPlaceOf`).
-/

set_option autoImplicit false

namespace EmailMarkup.Html

open EmailMarkup.Text

variable {next parent c : Nat} {nodes : List Node}

/-! ### Lines and numbers -/

/-- A node counts itself and what is in it. -/
theorem Node.size_eq (n : Node) : n.size = 1 + sizeOfNodes n.children := by
  cases n <;> rfl

/-- The lines of nodes side by side: that of the first node, those of what is in it, and those of
the nodes after it. -/
theorem entriesOfNodes_cons (parent next : Nat) (n : Node) (rest : List Node) :
    entriesOfNodes parent next (n :: rest) =
      { id := next, parent := some parent, tag := n.tag?,
        children := childIds (next + 1) n.children } ::
        (entriesOfNodes next (next + 1) n.children ++
          entriesOfNodes parent (next + n.size) rest) := by
  cases n <;> rfl

/-- The lines of nodes have consecutive numbers. -/
theorem map_id_entriesOfNodes (parent next : Nat) (nodes : List Node) :
    (entriesOfNodes parent next nodes).map Entry.id = List.range' next (sizeOfNodes nodes) := by
  induction nodes using children_induction generalizing parent next with
  | nil => rfl
  | cons n rest ihChildren ihRest =>
    have hsize : sizeOfNodes (n :: rest) = sizeOfNodes n.children + sizeOfNodes rest + 1 := by
      rw [sizeOfNodes, Node.size_eq]
      omega
    have hnext : next + n.size = next + 1 + 1 * sizeOfNodes n.children := by
      rw [Node.size_eq]
      omega
    rw [entriesOfNodes_cons, List.map_cons, List.map_append, ihChildren, ihRest, hnext,
      List.range'_append, hsize, List.range'_succ]

/-- No child has a smaller number than the first. -/
theorem le_of_mem_childIds {id : Nat} (h : id ∈ childIds next nodes) : next ≤ id := by
  induction nodes generalizing next with
  | nil => cases h
  | cons n rest ih =>
    rcases List.mem_cons.mp h with rfl | h
    · exact Nat.le_refl id
    · exact Nat.le_trans (Nat.le_add_right next n.size) (ih h)

/-- The numbers of children grow. -/
theorem pairwise_childIds (next : Nat) (nodes : List Node) :
    (childIds next nodes).Pairwise (· < ·) := by
  induction nodes generalizing next with
  | nil => exact .nil
  | cons n rest ih =>
    refine .cons ?_ (ih (next + n.size))
    intro id hid
    have hle := le_of_mem_childIds hid
    have hsize := n.size_eq
    omega

/-! ### How lines hang together -/

/-- What is in a node is as sound as the node. -/
theorem hollowsEmpty_children {n : Node} (h : HollowsEmpty [n]) : HollowsEmpty n.children := by
  cases h with
  | text | comment | declaration => exact .nil
  | element _ hchildren _ => exact hchildren

/-- A node that has something in it is an element that can have content. -/
theorem exists_tag_of_children_ne_nil {n : Node} (h : HollowsEmpty [n]) (hne : n.children ≠ []) :
    ∃ tag, n.tag? = some tag ∧ tag.isHollow = false := by
  cases h with
  | text | comment | declaration => exact absurd rfl hne
  | @element tag _ _ hempty _ _ => exact ⟨tag, rfl, Bool.not_eq_true _ ▸ mt hempty hne⟩

/-- A node hangs in the node around all of them, or in one of them, and is listed there. -/
theorem hangs_of_mem_entriesOfNodes {e : Entry} (h : e ∈ entriesOfNodes parent next nodes) :
    (e.parent = some parent ∧ e.id ∈ childIds next nodes) ∨
      ∃ q ∈ entriesOfNodes parent next nodes, e.parent = some q.id ∧ e.id ∈ q.children := by
  induction nodes using children_induction generalizing parent next with
  | nil => cases h
  | cons n rest ihChildren ihRest =>
    rw [entriesOfNodes_cons] at h ⊢
    rcases List.mem_cons.mp h with rfl | h
    · exact Or.inl ⟨rfl, List.mem_cons_self⟩
    rcases List.mem_append.mp h with h | h
    · -- What hangs in the first node directly is listed in its line.
      rcases ihChildren h with ⟨hparent, hid⟩ | ⟨q, hq, hangs⟩
      · exact Or.inr ⟨_, List.mem_cons_self, hparent, hid⟩
      · exact Or.inr ⟨q, List.mem_cons_of_mem _ (List.mem_append_left _ hq), hangs⟩
    · rcases ihRest h with ⟨hparent, hid⟩ | ⟨q, hq, hangs⟩
      · exact Or.inl ⟨hparent, List.mem_cons_of_mem _ hid⟩
      · exact Or.inr ⟨q, List.mem_cons_of_mem _ (List.mem_append_right _ hq), hangs⟩

/-- The children of a node have lines, which say so. -/
theorem exists_of_mem_childIds (parent : Nat) {id : Nat} (h : id ∈ childIds next nodes) :
    ∃ e ∈ entriesOfNodes parent next nodes, e.id = id ∧ e.parent = some parent := by
  induction nodes generalizing next with
  | nil => cases h
  | cons n rest ih =>
    rw [entriesOfNodes_cons]
    rcases List.mem_cons.mp h with rfl | h
    · exact ⟨_, List.mem_cons_self, rfl, rfl⟩
    · obtain ⟨e, he, hid⟩ := ih h
      exact ⟨e, List.mem_cons_of_mem _ (List.mem_append_right _ he), hid⟩

/-- Every line is that of a node, and the lines of what is in the node stand in the same table. -/
theorem exists_node_of_mem_entriesOfNodes {e : Entry} (h : e ∈ entriesOfNodes parent next nodes) :
    ∃ n : Node, e.tag = n.tag? ∧ e.children = childIds (e.id + 1) n.children ∧
      entriesOfNodes e.id (e.id + 1) n.children ⊆ entriesOfNodes parent next nodes ∧
      (HollowsEmpty nodes → HollowsEmpty [n]) := by
  induction nodes using children_induction generalizing parent next with
  | nil => cases h
  | cons n rest ihChildren ihRest =>
    rw [entriesOfNodes_cons] at h ⊢
    rcases List.mem_cons.mp h with rfl | h
    · refine ⟨n, rfl, rfl, ?_, fun hall => (hollowsEmpty_cons.mp hall).1⟩
      exact fun e he => List.mem_cons_of_mem _ (List.mem_append_left _ he)
    rcases List.mem_append.mp h with h | h
    · obtain ⟨m, htag, hchildren, hsub, hhollow⟩ := ihChildren h
      refine ⟨m, htag, hchildren, ?_, fun hall => hhollow ?_⟩
      · exact fun e he => List.mem_cons_of_mem _ (List.mem_append_left _ (hsub he))
      · exact hollowsEmpty_children (hollowsEmpty_cons.mp hall).1
    · obtain ⟨m, htag, hchildren, hsub, hhollow⟩ := ihRest h
      refine ⟨m, htag, hchildren, ?_, fun hall => hhollow (hollowsEmpty_cons.mp hall).2⟩
      exact fun e he => List.mem_cons_of_mem _ (List.mem_append_right _ (hsub he))

/-! ### The table of a document -/

namespace Document
variable {d : Document} {id : Nat} {e q : Entry}

/-- The lines of the table are in the order of their numbers. -/
theorem map_id_table (d : Document) :
    d.table.map Entry.id = List.range' 0 (sizeOfNodes d.children + 1) := by
  rw [table, List.map_cons, map_id_entriesOfNodes, List.range'_succ]

/-- The line at a number is the line with that number. -/
theorem entry?_eq_some_iff : d.entry? id = some e ↔ e ∈ d.table ∧ e.id = id := by
  have hid : ∀ {i : Nat} {e : Entry}, d.table[i]? = some e → e.id = i := by
    intro i e he
    have hget : (List.range' 0 (sizeOfNodes d.children + 1))[i]? = some e.id := by
      rw [← map_id_table, List.getElem?_map, he]
      rfl
    obtain ⟨hlt, heq⟩ := List.getElem?_eq_some_iff.mp hget
    rw [← heq, List.getElem_range']
    omega
  constructor
  · intro h
    exact ⟨List.mem_of_getElem? h, hid h⟩
  · rintro ⟨he, rfl⟩
    obtain ⟨i, hi⟩ := List.mem_iff_getElem?.mp he
    unfold entry?
    rw [hid hi]
    exact hi

/-- Every line is that of the document or of a node in it. -/
theorem mem_table_iff : e ∈ d.table ↔
    e = { id := 0, parent := none, tag := none, children := childIds 1 d.children } ∨
      e ∈ entriesOfNodes 0 1 d.children :=
  List.mem_cons

/-- The numbers of the children of a node. -/
def childrenOf (d : Document) (id : Nat) : List Nat :=
  ((d.entry? id).map Entry.children).getD []

theorem childrenOf_of_mem (h : e ∈ d.table) : d.childrenOf e.id = e.children := by
  rw [childrenOf, entry?_eq_some_iff.mpr ⟨h, rfl⟩]
  rfl

theorem parent?_of_mem (h : e ∈ d.table) : d.parent? e.id = e.parent := by
  rw [parent?, entry?_eq_some_iff.mpr ⟨h, rfl⟩]
  rfl

theorem isElement_of_mem (h : e ∈ d.table) : d.isElement e.id = e.tag.isSome := by
  rw [isElement, entry?_eq_some_iff.mpr ⟨h, rfl⟩]
  rfl

/-- A number with children has a line that lists them. -/
theorem exists_line_of_mem_childrenOf (h : c ∈ d.childrenOf id) :
    ∃ q ∈ d.table, q.id = id ∧ c ∈ q.children := by
  unfold childrenOf at h
  cases hq : d.entry? id with
  | none =>
    rw [hq] at h
    cases h
  | some q =>
    rw [hq] at h
    obtain ⟨hmem, hid⟩ := entry?_eq_some_iff.mp hq
    exact ⟨q, hmem, hid, h⟩

/-- Every line lists the first nodes of some forest whose lines stand in the table. -/
theorem exists_nodes_of_mem_table (h : q ∈ d.table) :
    ∃ nodes, q.children = childIds (q.id + 1) nodes ∧
      entriesOfNodes q.id (q.id + 1) nodes ⊆ d.table := by
  rcases mem_table_iff.mp h with rfl | h
  · exact ⟨d.children, rfl, fun _ he => mem_table_iff.mpr (Or.inr he)⟩
  · obtain ⟨n, -, hchildren, hsub, -⟩ := exists_node_of_mem_entriesOfNodes h
    exact ⟨n.children, hchildren, fun _ he => mem_table_iff.mpr (Or.inr (hsub he))⟩

/-- The numbers in a line grow, and all are greater than that of the line. -/
theorem pairwise_children_of_mem_table (h : q ∈ d.table) :
    q.children.Pairwise (· < ·) ∧ ∀ c ∈ q.children, q.id < c := by
  obtain ⟨nodes, hchildren, -⟩ := exists_nodes_of_mem_table h
  rw [hchildren]
  exact ⟨pairwise_childIds _ _, fun c hc => le_of_mem_childIds hc⟩

/-- Only the document hangs in no node. Any other node is listed where it hangs. -/
theorem hangs_of_mem_table (h : e ∈ d.table) :
    (e.parent = none ∧ e.id = 0) ∨
      ∃ q ∈ d.table, e.parent = some q.id ∧ e.id ∈ q.children := by
  rcases mem_table_iff.mp h with rfl | h
  · exact Or.inl ⟨rfl, rfl⟩
  · rcases hangs_of_mem_entriesOfNodes h with ⟨hparent, hid⟩ | ⟨q, hq, hangs⟩
    · exact Or.inr ⟨_, mem_table_iff.mpr (Or.inl rfl), hparent, hid⟩
    · exact Or.inr ⟨q, mem_table_iff.mpr (Or.inr hq), hangs⟩

/-- A listed node hangs where it is listed. -/
theorem parent?_of_mem_childrenOf (h : c ∈ d.childrenOf id) : d.parent? c = some id := by
  obtain ⟨q, hq, rfl, hc⟩ := exists_line_of_mem_childrenOf h
  obtain ⟨nodes, hchildren, hsub⟩ := exists_nodes_of_mem_table hq
  rw [hchildren] at hc
  obtain ⟨e, he, rfl, hparent⟩ := exists_of_mem_childIds q.id hc
  rw [parent?_of_mem (hsub he), hparent]

/-- A node is listed where it hangs. -/
theorem mem_childrenOf_of_parent? {p : Nat} (h : d.parent? id = some p) :
    p < id ∧ id ∈ d.childrenOf p := by
  obtain ⟨e, he, hparent⟩ := Option.bind_eq_some_iff.mp h
  obtain ⟨hmem, rfl⟩ := entry?_eq_some_iff.mp he
  rcases hangs_of_mem_table hmem with ⟨hnone, -⟩ | ⟨q, hq, hsome, hid⟩
  · rw [hnone] at hparent
    cases hparent
  · obtain rfl : q.id = p := Option.some.inj (hsome.symm.trans hparent)
    rw [childrenOf_of_mem hq]
    exact ⟨(pairwise_children_of_mem_table hq).2 _ hid, hid⟩

/-- The numbers of children grow. -/
theorem pairwise_childrenOf (d : Document) (id : Nat) : (d.childrenOf id).Pairwise (· < ·) := by
  cases hq : d.entry? id with
  | none =>
    rw [childrenOf, hq]
    exact .nil
  | some q =>
    obtain ⟨hmem, rfl⟩ := entry?_eq_some_iff.mp hq
    rw [childrenOf_of_mem hmem]
    exact (pairwise_children_of_mem_table hmem).1

/-- What has children is the document or an element that can have content. -/
theorem exists_tag_of_mem_childrenOf (hd : HollowsEmpty d.children) (h : c ∈ d.childrenOf id) :
    id = 0 ∨ ∃ tag, (d.entry? id).bind Entry.tag = some tag ∧ tag.isHollow = false := by
  obtain ⟨q, hq, rfl, hc⟩ := exists_line_of_mem_childrenOf h
  rw [entry?_eq_some_iff.mpr ⟨hq, rfl⟩]
  rcases mem_table_iff.mp hq with rfl | hq
  · exact Or.inl rfl
  · obtain ⟨n, htag, hchildren, -, hhollow⟩ := exists_node_of_mem_entriesOfNodes hq
    have hne : n.children ≠ [] := by
      rintro hnil
      rw [hchildren, hnil] at hc
      cases hc
    obtain ⟨tag, hn, hnot⟩ := exists_tag_of_children_ne_nil (hhollow hd) hne
    exact Or.inr ⟨tag, htag.trans hn, hnot⟩

/-! ### Elements -/

/-- The numbers of the elements are those at which there is an element. -/
theorem mem_elementIds_iff : id ∈ d.elementIds ↔ d.isElement id = true := by
  simp only [elementIds, List.mem_map, List.mem_filter]
  constructor
  · rintro ⟨e, ⟨hmem, htag⟩, rfl⟩
    rw [isElement_of_mem hmem, htag]
  · intro h
    obtain ⟨tag, htag⟩ := Option.isSome_iff_exists.mp h
    obtain ⟨e, he, hsome⟩ := Option.bind_eq_some_iff.mp htag
    obtain ⟨hmem, hid⟩ := entry?_eq_some_iff.mp he
    exact ⟨e, ⟨hmem, Option.isSome_iff_exists.mpr ⟨tag, hsome⟩⟩, hid⟩

/-- The numbers of the elements grow. -/
theorem pairwise_elementIds (d : Document) : d.elementIds.Pairwise (· < ·) := by
  have hsub : d.elementIds.Sublist (d.table.map Entry.id) := List.filter_sublist.map Entry.id
  rw [map_id_table] at hsub
  exact (List.pairwise_lt_range' 1).sublist hsub

/-- An element stands once among the elements beside it. -/
theorem count_elementSiblings (h : d.isElement id = true) :
    (d.elementSiblings id).count id = 1 := by
  unfold elementSiblings
  split
  · rename_i p hp
    have hnodup : (d.elementChildren p).Nodup :=
      ((pairwise_childrenOf d p).imp Nat.ne_of_lt).filter d.isElement
    refine List.count_eq_one_of_mem hnodup ?_
    exact List.mem_filter.mpr ⟨(mem_childrenOf_of_parent? hp).2, h⟩
  · exact List.count_singleton_self

/-- An element stands neither before nor after itself. -/
theorem notMem_of_elementSiblings (h : d.isElement id = true) {before after : List Nat}
    (hrow : d.elementSiblings id = before ++ id :: after) : id ∉ before ∧ id ∉ after := by
  have honce := count_elementSiblings h
  rw [hrow, List.count_append, List.count_cons_self] at honce
  rw [← List.count_eq_zero, ← List.count_eq_zero]
  omega

/-- The place of an element among the elements beside it is found, wherever that is. -/
theorem idxOf?_elementSiblings (h : d.isElement id = true) {before after : List Nat}
    (hrow : d.elementSiblings id = before ++ id :: after) :
    (d.elementSiblings id).idxOf? id = some before.length := by
  have hnone : before.findIdx? (· == id) = none :=
    List.idxOf?_eq_none_iff.mpr (notMem_of_elementSiblings h hrow).1
  rw [hrow, List.idxOf?, List.findIdx?_append, hnone, List.findIdx?_cons]
  simp

/-- The element just before another is the last of those before it. -/
theorem previousElement?_eq_getLast? (h : d.isElement id = true) {before after : List Nat}
    (hrow : d.elementSiblings id = before ++ id :: after) :
    d.previousElement? id = before.getLast? := by
  unfold previousElement?
  simp only [hrow]
  rw [if_pos (by simp), takeWhile_bne_append (notMem_of_elementSiblings h hrow).1]

/-! ### Walking down -/

/-- A walk through a document: the nodes to be visited next, nearest first, and the elements found.
-/
structure Walk where
  waiting : List Nat
  found : List Nat

/-- Visits the next node: notes it if it is an element, and puts its children in front of the nodes
that wait. -/
def walkStep (d : Document) (w : Walk) : Walk :=
  match w.waiting with
  | [] => w
  | id :: rest =>
    { waiting := d.childrenOf id ++ rest
      found := if d.isElement id then w.found ++ [id] else w.found }

/-- The numbers of the elements among the lines of a table. -/
def elementsOf (entries : List Entry) : List Nat :=
  (entries.filter fun e => e.tag.isSome).map Entry.id

theorem elementsOf_entriesOfNodes_cons (parent next : Nat) (n : Node) (rest : List Node) :
    elementsOf (entriesOfNodes parent next (n :: rest)) =
      (if n.tag?.isSome then [next] else []) ++
        (elementsOf (entriesOfNodes next (next + 1) n.children) ++
          elementsOf (entriesOfNodes parent (next + n.size) rest)) := by
  rw [entriesOfNodes_cons]
  cases n.tag? <;> simp [elementsOf]

/-- Visiting nodes side by side takes one step for each node in them, finds the elements among them
in order and leaves the others waiting. -/
theorem iterate_walkStep_entriesOfNodes (hsub : entriesOfNodes parent next nodes ⊆ d.table)
    (rest found : List Nat) :
    d.walkStep^[sizeOfNodes nodes] { waiting := childIds next nodes ++ rest, found } =
      { waiting := rest, found := found ++ elementsOf (entriesOfNodes parent next nodes) } := by
  induction nodes using children_induction generalizing parent next rest found with
  | nil => simp [sizeOfNodes, childIds, entriesOfNodes, elementsOf]
  | cons n nodes ihChildren ihRest =>
    rw [entriesOfNodes_cons] at hsub
    obtain ⟨hfirst, hrest⟩ := List.cons_subset.mp hsub
    obtain ⟨hin, hafter⟩ := List.append_subset.mp hrest
    have hsteps : sizeOfNodes (n :: nodes) = sizeOfNodes nodes + (sizeOfNodes n.children + 1) := by
      rw [sizeOfNodes, Node.size_eq]
      omega
    have hstep : d.walkStep { waiting := childIds next (n :: nodes) ++ rest, found } =
        { waiting := childIds (next + 1) n.children ++ (childIds (next + n.size) nodes ++ rest)
          found := if n.tag?.isSome then found ++ [next] else found } := by
      have hchildren := childrenOf_of_mem hfirst
      have hkind := isElement_of_mem hfirst
      simp only [walkStep, childIds, List.cons_append, hchildren, hkind]
    rw [hsteps, Function.iterate_add_apply, Function.iterate_succ_apply, hstep, ihChildren hin,
      ihRest hafter, elementsOf_entriesOfNodes_cons]
    cases n.tag? <;> simp

/-- Walking down from the document ends after one step for each node, with the elements in the order
of their numbers. -/
theorem iterate_walkStep (d : Document) :
    d.walkStep^[d.table.length] { waiting := [0], found := [] } =
      { waiting := [], found := d.elementIds } := by
  have hlength : d.table.length = sizeOfNodes d.children + 1 := by
    rw [← List.length_map Entry.id, map_id_table, List.length_range']
  have hsub : entriesOfNodes 0 1 d.children ⊆ d.table := List.subset_cons_self _ _
  have hroot := (@mem_table_iff d _).mpr (Or.inl rfl)
  -- The first step visits the document, which is no element.
  have hstep : d.walkStep { waiting := [0], found := [] } =
      { waiting := childIds 1 d.children ++ [], found := [] } := by
    have hchildren := childrenOf_of_mem hroot
    have hkind := isElement_of_mem hroot
    simp only [walkStep, hchildren, hkind]
    simp
  rw [hlength, Function.iterate_succ_apply, hstep, iterate_walkStep_entriesOfNodes hsub]
  rfl

/-! ### Places -/

/-- The tags of the node with a number, if it is an element. -/
def tagAt? (d : Document) (id : Nat) : Option Tag :=
  (d.entry? id).bind Entry.tag

theorem tagAt?_of_mem {e : Entry} (h : e ∈ d.table) : d.tagAt? e.id = e.tag := by
  rw [tagAt?, entry?_eq_some_iff.mpr ⟨h, rfl⟩]
  rfl

/-- A place shows what can be seen from the element with a number: the numbers `before` and `after`
are those of the elements that the place has before it and after it. -/
structure IsViewOf (d : Document) (p : Place) (id : Nat) (before after : List Nat) : Prop where
  tag : d.tagAt? id = some p.tag
  siblings : d.elementSiblings id = before ++ id :: after
  tagsBefore : before.map d.tagAt? = p.row.before.reverse.map fun e => some e.tag
  tagsAfter : after.map d.tagAt? = p.row.after.map fun e => some e.tag
  isEmpty : (d.childrenOf id).isEmpty = p.row.here.isEmpty
  isRoot : (d.parentElement? id).isNone = p.above.isEmpty

/-- The numbers of nodes side by side that are elements have the tags of these elements. -/
theorem map_tagAt?_childIds (hsub : entriesOfNodes parent next nodes ⊆ d.table) :
    ((childIds next nodes).filter d.isElement).map d.tagAt? =
      (elementsAmong nodes).map fun e => some e.tag := by
  induction nodes generalizing next with
  | nil => rfl
  | cons n nodes ih =>
    rw [entriesOfNodes_cons] at hsub
    obtain ⟨hfirst, hrest⟩ := List.cons_subset.mp hsub
    have hkind : d.isElement next = n.tag?.isSome := isElement_of_mem hfirst
    have htag : d.tagAt? next = n.tag? := tagAt?_of_mem hfirst
    have hnodes := ih (List.append_subset.mp hrest).2
    rw [childIds, List.filter_cons, hkind]
    cases n with
    | element tag children =>
      simpa only [elementsAmong, Node.tag?, Option.isSome_some, if_true, List.filterMap_cons,
        List.map_cons, htag, List.cons.injEq, true_and] using hnodes
    | text => exact hnodes
    | comment => exact hnodes
    | declaration => exact hnodes

/-- The places of nodes side by side show what can be seen from their elements. The elements before
the nodes have the numbers `row`. -/
theorem forall₂_isViewOf_placesAmong (hsub : entriesOfNodes parent next nodes ⊆ d.table)
    (above : List Row) (before : List Element) {row : List Nat}
    (hrow : d.elementChildren parent = row ++ (childIds next nodes).filter d.isElement)
    (hbefore : row.map d.tagAt? = before.reverse.map fun e => some e.tag)
    (habove : d.isElement parent = !above.isEmpty) :
    List.Forall₂ (fun p id => ∃ before after, d.IsViewOf p id before after)
      (placesAmong above before nodes) (elementsOf (entriesOfNodes parent next nodes)) := by
  induction nodes using children_induction generalizing parent next above before row with
  | nil => simp [placesAmong, entriesOfNodes, elementsOf]
  | cons n rest ihChildren ihRest =>
    rw [elementsOf_entriesOfNodes_cons]
    rw [entriesOfNodes_cons] at hsub
    obtain ⟨hfirst, hothers⟩ := List.cons_subset.mp hsub
    obtain ⟨hin, hafter⟩ := List.append_subset.mp hothers
    have hkind : d.isElement next = n.tag?.isSome := isElement_of_mem hfirst
    rw [childIds, List.filter_cons, hkind] at hrow
    cases n with
    | text | comment | declaration =>
      simp only [placesAmong]
      exact ihRest hafter above before hrow hbefore habove
    | element tag children =>
      have htag : d.tagAt? next = some tag := tagAt?_of_mem hfirst
      have hparent : d.parent? next = some parent := parent?_of_mem hfirst
      have hchildren : d.childrenOf next = childIds (next + 1) children := childrenOf_of_mem hfirst
      -- The nodes after the element have it before them.
      have hnext : d.elementChildren parent = row ++ [next] ++
          (childIds (next + (Node.element tag children).size) rest).filter d.isElement := by
        rw [List.append_assoc]
        exact hrow
      have hview : d.IsViewOf ⟨⟨before, ⟨tag, children.isEmpty⟩, elementsAmong rest⟩, above⟩ next
          row ((childIds (next + (Node.element tag children).size) rest).filter d.isElement) := by
        refine ⟨htag, ?_, hbefore, map_tagAt?_childIds hafter, ?_, ?_⟩
        · simp only [elementSiblings, hparent]
          exact hrow
        · rw [hchildren]
          cases children with
          | nil => rfl
          | cons child children => rfl
        · rw [parentElement?, hparent, Option.filter_some, habove]
          cases above with
          | nil => rfl
          | cons outer above => rfl
      have hinside : d.elementChildren next =
          [] ++ (childIds (next + 1) children).filter d.isElement :=
        congrArg (List.filter d.isElement) hchildren
      have hchildrenViews := ihChildren hin
        (⟨before, ⟨tag, children.isEmpty⟩, elementsAmong rest⟩ :: above) [] hinside rfl hkind
      have hrestViews := ihRest hafter above (⟨tag, children.isEmpty⟩ :: before) hnext
        (by simp [hbefore, htag]) habove
      rw [placesAmong]
      exact .cons ⟨_, _, hview⟩ (List.rel_append hchildrenViews hrestViews)

/-- The places of a document show what can be seen from its elements, in the order of their numbers.
-/
theorem forall₂_isViewOf (d : Document) :
    List.Forall₂ (fun p id => ∃ before after, d.IsViewOf p id before after) d.places
      d.elementIds := by
  have hsub : entriesOfNodes 0 1 d.children ⊆ d.table := List.subset_cons_self _ _
  have hroot := (@mem_table_iff d _).mpr (Or.inl rfl)
  have hrow : d.elementChildren 0 = [] ++ (childIds 1 d.children).filter d.isElement := by
    rw [List.nil_append, elementChildren]
    exact congrArg (List.filter d.isElement) (childrenOf_of_mem hroot)
  exact forall₂_isViewOf_placesAmong hsub [] [] hrow rfl (isElement_of_mem hroot)

theorem exists_isViewOf {p : Place} (h : (p, id) ∈ d.places.zip d.elementIds) :
    ∃ before after, d.IsViewOf p id before after :=
  (List.forall₂_iff_zip.mp (forall₂_isViewOf d)).2 h

/-- A place shows the element with a number: it has the tags of the element, and stands as far from
either end of its row as the element among those beside it. -/
structure IsPlaceOf (d : Document) (p : Place) (id : Nat) : Prop where
  tag : (d.entry? id).bind Entry.tag = some p.tag
  position : (d.elementSiblings id).idxOf? id = some p.row.before.length
  length : (d.elementSiblings id).length = p.row.before.length + 1 + p.row.after.length

section
variable {p : Place} {before after : List Nat}

theorem IsViewOf.isElement (h : d.IsViewOf p id before after) : d.isElement id = true :=
  Option.isSome_iff_exists.mpr ⟨_, h.tag⟩

theorem IsViewOf.isPlaceOf (h : d.IsViewOf p id before after) : d.IsPlaceOf p id := by
  have hbefore := congrArg List.length h.tagsBefore
  have hafter := congrArg List.length h.tagsAfter
  simp only [List.length_map, List.length_reverse] at hbefore hafter
  refine ⟨h.tag, by rw [idxOf?_elementSiblings h.isElement h.siblings, hbefore], ?_⟩
  rw [h.siblings, List.length_append, List.length_cons, hbefore, hafter]
  omega

end

/-- The places of a document are those of its elements, in the order of their numbers. -/
theorem forall₂_isPlaceOf (d : Document) : List.Forall₂ d.IsPlaceOf d.places d.elementIds :=
  (forall₂_isViewOf d).imp fun _ _ ⟨_, _, h⟩ => h.isPlaceOf

/-! ### Well-numbered documents -/

/-- The numbers of a document are sound. -/
structure WellNumbered (d : Document) : Prop where
  /-- Node 0 is there, and is no element. -/
  root : ∃ e, d.entry? 0 = some e ∧ e.tag = none
  /-- It is the only node that hangs in no other. -/
  parent?_eq_none_iff : ∀ {id : Nat} {e : Entry}, d.entry? id = some e →
    (d.parent? id = none ↔ id = 0)
  /-- Any other node hangs in one with a smaller number, which lists it once. -/
  listed : ∀ {id parent : Nat}, d.parent? id = some parent →
    parent < id ∧ (d.childrenOf parent).count id = 1
  /-- What a node hangs in is the document or an element that can have content. -/
  holds : ∀ {id parent : Nat}, d.parent? id = some parent → parent = 0 ∨
    ∃ tag, (d.entry? parent).bind Entry.tag = some tag ∧ tag.isHollow = false
  /-- No other node lists it. -/
  only : ∀ {id other : Nat}, id ∈ d.childrenOf other → d.parent? id = some other
  /-- The numbers of children grow. -/
  increasing : ∀ id, (d.childrenOf id).Pairwise (· < ·)
  /-- Walking down from the document ends, with the numbers of the elements. -/
  walk : d.walkStep^[d.table.length] { waiting := [0], found := [] } =
    { waiting := [], found := d.elementIds }
  /-- These are the numbers of all elements, and they grow. -/
  elements : (∀ id, id ∈ d.elementIds ↔ d.isElement id = true) ∧ d.elementIds.Pairwise (· < ·)
  /-- An element stands once among the elements beside it. -/
  siblings : ∀ {id : Nat}, d.isElement id = true → (d.elementSiblings id).count id = 1
  /-- The element just before another is the last of those before it. -/
  previous : ∀ {id : Nat} {before after : List Nat}, d.isElement id = true →
    d.elementSiblings id = before ++ id :: after → d.previousElement? id = before.getLast?
  /-- Selectors are matched at the places that the numbers give. -/
  places : List.Forall₂ d.IsPlaceOf d.places d.elementIds

/-- A document is well numbered if elements that cannot have content have none. -/
theorem wellNumbered (hd : HollowsEmpty d.children) : d.WellNumbered where
  root := ⟨_, rfl, rfl⟩
  parent?_eq_none_iff := by
    intro id e he
    obtain ⟨hmem, rfl⟩ := entry?_eq_some_iff.mp he
    rw [parent?_of_mem hmem]
    rcases hangs_of_mem_table hmem with ⟨hnone, hid⟩ | ⟨q, hq, hparent, hid⟩
    · simp [hnone, hid]
    · have hlt := (pairwise_children_of_mem_table hq).2 e.id hid
      have hpos : e.id ≠ 0 := by omega
      simp [hparent, hpos]
  listed := by
    intro id parent h
    obtain ⟨hlt, hmem⟩ := mem_childrenOf_of_parent? h
    have hnodup := (pairwise_childrenOf d parent).imp Nat.ne_of_lt
    exact ⟨hlt, List.count_eq_one_of_mem hnodup hmem⟩
  holds h := exists_tag_of_mem_childrenOf hd (mem_childrenOf_of_parent? h).2
  only := parent?_of_mem_childrenOf
  increasing := pairwise_childrenOf d
  walk := iterate_walkStep d
  elements := ⟨fun _ => mem_elementIds_iff, pairwise_elementIds d⟩
  siblings := count_elementSiblings
  previous h := previousElement?_eq_getLast? h
  places := forall₂_isPlaceOf d

end Document

end EmailMarkup.Html
