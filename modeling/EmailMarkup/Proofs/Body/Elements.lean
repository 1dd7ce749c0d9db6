import EmailMarkup.Body.Draw
import EmailMarkup.Proofs.Fallible
import EmailMarkup.Proofs.Markup.Tree

/-!
# The elements of a drawing

`elementsOf` lists the elements that are drawn for a node, in the order of the document. It is
defined on the tree of nodes, without the blocks that a drawing goes through, and says what a
drawing consists of. The drawing of each element of the list is found in the drawing of the whole,
in one piece (`infix_fragments`). What a drawing takes notes of comes from the elements of the list,
in their order (`NotesPart.draw`), as its columns do (`columns_draw`).
-/

set_option autoImplicit false

namespace EmailMarkup.Body

open EmailMarkup.Component EmailMarkup.Markup

variable {siblings : Siblings} {n : Node} {e : Element} {set : SetUp} {b : Block} {width : Float}
  {d : Drawing}

/-! ### What is set up -/

/-- The kind of the elements of a tag in the body. -/
def Setting.kind? (s : Setting) (tag : String) : Option BodyKind :=
  (s.registry.get? tag).bind fun spec =>
    match spec.kind with
    | .body kind => some kind
    | _ => none

/-- The attributes of an element after they have been resolved. -/
def Setting.resolved? (s : Setting) (n : Node) : Option Attributes :=
  (s.registry.get? n.tag).bind fun spec =>
    (spec.schema.resolve s.options.level (some s.head) n).result.toOption.map Prod.fst

/-- A node whose tag has no kind is left out with one report. Any other is set up from the entry of
its tag and the attributes that were resolved. -/
theorem setUp_cases {s : Setting} (h : setUp s siblings n = .ok set) :
    (s.kind? n.tag = none ∧ ∃ d, (d = .unknownElement n.tag n.line ∨ d = .notInBody n.tag n.line) ∧
      set = { notes := { reports := [d] }, element? := none }) ∨
    ∃ spec kind resolved, s.registry.get? n.tag = some spec ∧ spec.kind = .body kind ∧
      (spec.schema.resolve s.options.level (some s.head) n).result = .ok resolved ∧
      set =
        { notes := { reports := resolved.2
                     sheets := if hasSheet kind then [(spec.tag, kind)] else [] }
          element? := some
            { tag := n.tag, kind, attributes := resolved.1, siblings, raw := spec.raw
              content := n.content, line := n.line } } := by
  unfold setUp at h
  cases hspec : s.registry.get? n.tag with
  | none =>
    rw [hspec] at h
    cases h
    exact .inl ⟨by rw [Setting.kind?, hspec, Option.bind_none], _, .inl rfl, rfl⟩
  | some spec =>
    rw [hspec] at h
    cases hkind : spec.kind with
    | body kind =>
      simp only [hkind] at h
      obtain ⟨resolved, hresolved, rfl⟩ := exists_of_map h
      exact .inr ⟨spec, kind, resolved, rfl, hkind, hresolved, rfl⟩
    | head _ | structural =>
      simp only [hkind] at h
      cases h
      exact .inl ⟨by rw [Setting.kind?, hspec, Option.bind_some, hkind], _, .inr rfl, rfl⟩

/-- What is set up for a node has its kind, its content and its resolved attributes. -/
theorem setUp_spec {s : Setting} (h : setUp s siblings n = .ok set) (he : set.element? = some e) :
    s.kind? n.tag = some e.kind ∧ s.resolved? n = some e.attributes ∧ e.content = n.content := by
  obtain ⟨-, d, -, rfl⟩ | ⟨spec, kind, resolved, hspec, hkind, hresolved, rfl⟩ := setUp_cases h
  · cases he
  · cases he
    simp [Setting.kind?, Setting.resolved?, hspec, hkind, hresolved, Except.toOption]

/-! ### What is drawn -/

/-- The element that is set up for a node, unless it is left out. -/
def Setting.element? (s : Setting) (siblings : Siblings) (n : Node) : Option Element :=
  (setUp s siblings n).toOption.bind SetUp.element?

mutual

/-- The elements that are drawn for a node: its own, and those of its children if it is drawn with
them. -/
def elementsOf (s : Setting) (siblings : Siblings) : Node → List Element
  | .element tag attributes children content position =>
    match s.element? siblings (.element tag attributes children content position) with
    | none => []
    | some e =>
      e :: if hasChildren e.kind then elementsAmong s (siblingsOf s.registry children) children
        else []

/-- The elements that are drawn for nodes, one after the other. -/
def elementsAmong (s : Setting) (siblings : Siblings) : List Node → List Element
  | [] => []
  | n :: rest => elementsOf s siblings n ++ elementsAmong s siblings rest

end

/-- The columns that are drawn for a node. -/
def columnsOf (s : Setting) (siblings : Siblings) (n : Node) : List Element :=
  (elementsOf s siblings n).filter fun e => e.kind = .column

/-- Nothing is drawn for a node that is left out. -/
theorem elementsOf_of_none {s : Setting} (h : s.element? siblings n = none) :
    elementsOf s siblings n = [] := by
  cases n
  rw [elementsOf, h]

/-- A node that is not left out is drawn with or without its children. -/
theorem elementsOf_of_some {s : Setting} (h : s.element? siblings n = some e) :
    elementsOf s siblings n =
      e :: if hasChildren e.kind then elementsAmong s (siblingsOf s.registry n.children) n.children
        else [] := by
  cases n
  rw [elementsOf, h]
  rfl

/-- The element of a node is the one that setting it up gives. -/
theorem element?_of_setUp {s : Setting} (h : setUp s siblings n = .ok set) :
    s.element? siblings n = set.element? := by
  rw [Setting.element?, h]
  rfl

theorem exists_setUp_of_element? {s : Setting} (h : s.element? siblings n = some e) :
    ∃ set, setUp s siblings n = .ok set ∧ set.element? = some e := by
  cases hset : setUp s siblings n with
  | error failure => rw [Setting.element?, hset] at h; cases h
  | ok set => exact ⟨set, rfl, (element?_of_setUp hset).symm.trans h⟩

mutual

/-- Every element that is drawn for a node was set up for a node of the tree. -/
theorem exists_of_mem_elementsOf {s : Setting} : ∀ (n : Node) {siblings : Siblings} {e : Element},
    e ∈ elementsOf s siblings n → ∃ m ∈ n.nodes, ∃ siblings, s.element? siblings m = some e
  | .element tag attributes children content position, siblings, e, he => by
    cases hown : s.element? siblings (.element tag attributes children content position) with
    | none =>
      rw [elementsOf_of_none hown] at he
      cases he
    | some own =>
      rw [elementsOf_of_some hown] at he
      rw [Node.nodes]
      rcases List.mem_cons.mp he with rfl | he
      · exact ⟨_, List.mem_cons_self, siblings, hown⟩
      · split at he
        · obtain ⟨m, hm, hset⟩ := exists_of_mem_elementsAmong children he
          exact ⟨m, List.mem_cons_of_mem _ hm, hset⟩
        · cases he

theorem exists_of_mem_elementsAmong {s : Setting} :
    ∀ (nodes : List Node) {siblings : Siblings} {e : Element}, e ∈ elementsAmong s siblings nodes →
      ∃ m ∈ nodesAmong nodes, ∃ siblings, s.element? siblings m = some e
  | [], siblings, e, he => by
    rw [elementsAmong] at he
    cases he
  | n :: nodes, siblings, e, he => by
    rw [elementsAmong] at he
    rw [nodesAmong]
    rcases List.mem_append.mp he with he | he
    · obtain ⟨m, hm, hset⟩ := exists_of_mem_elementsOf n he
      exact ⟨m, List.mem_append_left _ hm, hset⟩
    · obtain ⟨m, hm, hset⟩ := exists_of_mem_elementsAmong nodes he
      exact ⟨m, List.mem_append_right _ hm, hset⟩

end

/-- The children of an element are set up each by itself. -/
theorem forall₂_element?_of_setUpAll {s : Setting} {children : List Node} {set : List SetUp}
    (h : setUpAll s children = .ok set) :
    List.Forall₂ (fun element? n => element? = s.element? (siblingsOf s.registry children) n)
      (set.map SetUp.element?) children := by
  rw [List.forall₂_map_left_iff]
  exact (forall₂_of_mapM h).flip.imp fun _ _ hset => (element?_of_setUp hset).symm

/-! ### Blocks and their elements -/

/-- A property of blocks and the elements drawn in them is kept by the two ways to make a block: of
an element that is drawn by itself, and of one that is drawn around other blocks. -/
structure KeptByBlocks (s : Setting) (P : Block → List Element → Prop) : Prop where
  bare : ∀ e, hasChildren e.kind = false → P (.block e {} []) [e]
  holder : ∀ (e : Element) (set : List SetUp) (inner : List (Block × List Element)),
    hasChildren e.kind = true → (∀ one ∈ set, ∃ siblings m, setUp s siblings m = .ok one) →
    (∀ part ∈ inner, P part.1 part.2) →
      P (.block e (.join (set.map SetUp.notes)) (inner.map Prod.fst))
        (e :: inner.flatMap Prod.snd)

variable {s : Setting} {P : Block → List Element → Prop}

mutual

/-- Such a property holds of the block of a node and the elements that are drawn for it. -/
theorem block_induction (hP : KeptByBlocks s P) :
    ∀ (n : Node) {siblings : Siblings} {e : Element} {b : Block},
      s.element? siblings n = some e → blockOf s e n = .ok b → P b (elementsOf s siblings n)
  | .element tag attributes children content position, siblings, e, b, he, hb => by
    rw [elementsOf_of_some he]
    rw [blockOf] at hb
    split at hb
    · rename_i hholds
      obtain ⟨set, hset, hb⟩ := exists_of_bind hb
      obtain ⟨blocks, hblocks, hb⟩ := exists_of_bind hb
      cases hb
      obtain ⟨inner, rfl, helements, hinner⟩ :=
        blocks_induction hP children (forall₂_element?_of_setUpAll hset) hblocks
      rw [if_pos hholds]
      show P _ (e :: elementsAmong s (siblingsOf s.registry children) children)
      rw [helements]
      refine hP.holder e set inner hholds (fun one hone => ?_) hinner
      obtain ⟨m, -, hm⟩ := exists_of_mem_mapM hset hone
      exact ⟨_, m, hm⟩
    · rename_i hbare
      cases hb
      rw [if_neg hbare]
      exact hP.bare e (Bool.not_eq_true _ ▸ hbare)

/-- The induction for the children of a node, together with that for the node. -/
theorem blocks_induction (hP : KeptByBlocks s P) : ∀ (nodes : List Node) {siblings : Siblings}
    {elements : List (Option Element)} {blocks : List Block},
    List.Forall₂ (fun element? n => element? = s.element? siblings n) elements nodes →
    blocksOf s elements nodes = .ok blocks →
      ∃ inner : List (Block × List Element), blocks = inner.map Prod.fst ∧
        elementsAmong s siblings nodes = inner.flatMap Prod.snd ∧ ∀ part ∈ inner, P part.1 part.2
  | [], siblings, _, blocks, .nil, hblocks => by
    rw [blocksOf] at hblocks
    · cases hblocks
      exact ⟨[], rfl, by rw [elementsAmong]; rfl, nofun⟩
    · simp
    · simp
  | n :: nodes, siblings, none :: elements, blocks, .cons hn hnodes, hblocks => by
    rw [blocksOf] at hblocks
    obtain ⟨inner, hfst, hsnd, hinner⟩ := blocks_induction hP nodes hnodes hblocks
    refine ⟨inner, hfst, ?_, hinner⟩
    rw [elementsAmong, elementsOf_of_none hn.symm, hsnd]
    rfl
  | n :: nodes, siblings, some e :: elements, blocks, .cons hn hnodes, hblocks => by
    rw [blocksOf] at hblocks
    obtain ⟨first, hfirst, hblocks⟩ := exists_of_bind hblocks
    obtain ⟨others, hothers, hblocks⟩ := exists_of_bind hblocks
    cases hblocks
    obtain ⟨inner, rfl, hsnd, hinner⟩ := blocks_induction hP nodes hnodes hothers
    refine ⟨(first, elementsOf s siblings n) :: inner, rfl, ?_, ?_⟩
    · rw [elementsAmong, hsnd]
      rfl
    · exact List.forall_mem_cons.mpr ⟨block_induction hP n hn.symm hfirst, hinner⟩

end

/-- A parent sees each of its children drawn by itself. -/
theorem map_fragments_childrenOf (s : Setting) (width : Float) (blocks : List Block) :
    (childrenOf s width blocks).map Child.fragments = blocks.map (Block.fragments s width) := by
  induction blocks with
  | nil => rw [childrenOf]; rfl
  | cons b rest ih => rw [childrenOf, List.map_cons, List.map_cons, ih]

/-- What the drawing of an element has if those of its children have it, the drawing of a block has
if all elements in it are of the right kind. -/
theorem fragments_of_elements {P : List Fragment → Prop} {Q : Element → Prop}
    (hdraw : ∀ {e : Element} {width : Float} {children : List Child}, Q e →
      (∀ c ∈ children, P c.fragments) → P (e.draw s width children))
    (he : s.element? siblings n = some e) (hb : blockOf s e n = .ok b)
    (hall : ∀ c ∈ elementsOf s siblings n, Q c) (width : Float) : P (b.fragments s width) := by
  have hkept : KeptByBlocks s fun b elements =>
      (∀ c ∈ elements, Q c) → ∀ width, P (b.fragments s width) := by
    refine ⟨fun e _ hall width => ?_, fun e set inner _ _ hinner hall width => ?_⟩
    · rw [Block.fragments, childrenOf]
      exact hdraw (hall e List.mem_cons_self) nofun
    · obtain ⟨hown, hbelow⟩ := List.forall_mem_cons.mp hall
      rw [Block.fragments]
      refine hdraw hown fun c hc => ?_
      have hdrawn := List.mem_map_of_mem (f := Child.fragments) hc
      rw [map_fragments_childrenOf, List.map_map] at hdrawn
      obtain ⟨part, hpart, hfragments⟩ := List.mem_map.mp hdrawn
      rw [← hfragments]
      exact hinner part hpart (fun d hd => hbelow d (List.mem_flatMap.mpr ⟨part, hpart, hd⟩)) _
  exact block_induction hkept n he hb hall width

/-- A drawing is that of a node that was left out, or of its block. -/
theorem draw_cases (h : draw s width siblings n = .ok d) :
    ∃ set, setUp s siblings n = .ok set ∧
      ((s.element? siblings n = none ∧ d = { notes := set.notes, drawn? := none }) ∨
        ∃ e b, s.element? siblings n = some e ∧ blockOf s e n = .ok b ∧
          d = { notes := set.notes ++ b.notes s.options width
                drawn? := some (e, printFragments (b.fragments s width)) }) := by
  unfold draw at h
  obtain ⟨set, hset, h⟩ := exists_of_bind h
  refine ⟨set, hset, ?_⟩
  rw [element?_of_setUp hset]
  cases helement : set.element? with
  | none =>
    rw [helement] at h
    exact .inl ⟨rfl, (Except.ok.inj h).symm⟩
  | some e =>
    rw [helement] at h
    obtain ⟨b, hb, h⟩ := exists_of_bind h
    exact .inr ⟨e, b, rfl, hb, (Except.ok.inj h).symm⟩

/-! ### Notes -/

/-- A part of the notes that is noted one after the other. -/
structure NotesPart {α : Type} (f : Notes → List α) : Prop where
  empty : f {} = []
  append : ∀ a b : Notes, f (a ++ b) = f a ++ f b

section
variable {α : Type} {f : Notes → List α}

/-- A part of joined notes is the parts of the notes, joined. -/
theorem NotesPart.join (h : NotesPart f) (notes : List Notes) :
    f (.join notes) = notes.flatMap f := by
  induction notes with
  | nil => exact h.empty
  | cons a notes ih =>
    show f (a ++ .join notes) = _
    rw [h.append, ih, List.flatMap_cons]

theorem NotesPart.notesOf (h : NotesPart f) (o : Options) (width : Float) (blocks : List Block) :
    f (notesOf o width blocks) = blocks.flatMap fun b => f (b.notes o width) := by
  induction blocks with
  | nil => rw [Body.notesOf, h.empty, List.flatMap_nil]
  | cons b blocks ih => rw [Body.notesOf, h.append, ih, List.flatMap_cons]

/-- If a part of the notes comes from drawing alone, and is the same in every width, then the notes
on a block are those on the elements in it. -/
theorem NotesPart.block (h : NotesPart f) {o : Options} {own : Element → List α}
    (hown : ∀ e width, f (e.notes o width) = own e)
    (hsetUp : ∀ {siblings : Siblings} {m : Node} {set : SetUp},
      setUp s siblings m = .ok set → f set.notes = [])
    {siblings : Siblings} {n : Node} {e : Element} {b : Block}
    (he : s.element? siblings n = some e) (hb : blockOf s e n = .ok b) (width : Float) :
    f (b.notes o width) = (elementsOf s siblings n).flatMap own := by
  have hkept : KeptByBlocks s fun b elements => ∀ width,
      f (b.notes o width) = elements.flatMap own := by
    refine ⟨fun e _ width => ?_, fun e set inner _ hset hinner width => ?_⟩
    · rw [Block.notes, h.append, h.append, hown, h.empty, h.notesOf, List.flatMap_singleton]
      exact (List.append_nil _).trans (List.append_nil _)
    · have hnone : f (.join (set.map SetUp.notes)) = [] := by
        rw [h.join, List.flatMap_map, List.flatMap_eq_nil_iff]
        intro one hone
        obtain ⟨siblings, m, hm⟩ := hset one hone
        exact hsetUp hm
      have hparts : f (Body.notesOf o (e.childWidth width) (inner.map Prod.fst)) =
          (inner.flatMap Prod.snd).flatMap own := by
        rw [h.notesOf, List.flatMap_map, List.flatMap_assoc]
        exact List.flatMap_congr fun part hpart => hinner part hpart _
      rw [Block.notes, h.append, h.append, hnone, hown, hparts, List.append_nil, List.flatMap_cons]
  exact block_induction hkept n he hb width

/-- The same of a drawing. -/
theorem NotesPart.draw (h : NotesPart f) {own : Element → List α}
    (hown : ∀ e width, f (e.notes s.options width) = own e)
    (hsetUp : ∀ {siblings : Siblings} {m : Node} {set : SetUp},
      setUp s siblings m = .ok set → f set.notes = []) (hdraw : draw s width siblings n = .ok d) :
    f d.notes = (elementsOf s siblings n).flatMap own := by
  obtain ⟨set, hset, ⟨hnone, rfl⟩ | ⟨e, b, he, hb, rfl⟩⟩ := draw_cases hdraw
  · rw [elementsOf_of_none hnone]
    exact hsetUp hset
  · show f (set.notes ++ b.notes s.options width) = _
    rw [h.append, hsetUp hset, List.nil_append, h.block hown hsetUp he hb]

end

/-! ### Notes on columns -/

/-- What is noted of a column: its class and its width. -/
def Column.entry (e : Element) : String × String :=
  (Column.className (Column.declaredWidth e), (Column.declaredWidth e).text)

/-- No column is noted when an element is set up. -/
theorem columns_setUp (h : setUp s siblings n = .ok set) : set.notes.columns = [] := by
  obtain ⟨-, d, -, rfl⟩ | ⟨spec, kind, resolved, -, -, -, rfl⟩ := setUp_cases h
  · rfl
  · rfl

theorem columns_notes (o : Options) (width : Float) (e : Element) :
    (e.notes o width).columns = ([e].filter fun c => c.kind = .column).map Column.entry := by
  unfold Element.notes
  cases hkind : e.kind <;> simp [hkind, Container.notes, Row.notes, Column.notes, Column.entry,
    Image.notes, Button.notes]

/-- A drawing takes notes of its columns, in the order of the document. -/
theorem columns_draw (h : draw s width siblings n = .ok d) :
    d.notes.columns = (columnsOf s siblings n).map Column.entry := by
  have hpart : NotesPart Notes.columns := ⟨rfl, fun _ _ => rfl⟩
  rw [hpart.draw (fun e width => columns_notes s.options width e) columns_setUp h, columnsOf,
    ← List.map_flatMap, ← List.filter_flatMap, List.flatMap_singleton']

/-! ### Drawings within drawings -/

theorem infix_flatMap_of_mem {α β : Type} {x : α} {xs : List α} (h : x ∈ xs) (f : α → List β) :
    f x <:+: xs.flatMap f :=
  List.infix_of_mem_flatten (List.mem_map_of_mem h)

theorem infix_element (name : String) (attributes : List (String × Option String))
    (content : List Fragment) : content <:+: Fragment.element name attributes content := by
  show content <:+: [Fragment.opening name attributes] ++ content ++ [Fragment.closing name]
  exact List.infix_append _ _ _

/-- The content of a table stands in it in one piece. -/
theorem infix_table (attributes cell : List (String × Option String)) (content : List Fragment) :
    content <:+: Fragment.table attributes cell content :=
  (((infix_element _ _ content).trans (infix_element _ _ _)).trans (infix_element _ _ _)).trans
    (infix_element _ _ _)

/-- An element that is drawn with its children has each of their drawings in its own. -/
theorem infix_draw (he : hasChildren e.kind = true) (width : Float) {children : List Child}
    {c : Child} (hc : c ∈ children) : c.fragments <:+: e.draw s width children := by
  unfold Element.draw
  cases hkind : e.kind with
  | body => exact (infix_flatMap_of_mem hc Child.fragments).trans (infix_element _ _ _)
  | row =>
    have hcell : c.fragments <:+: Row.drawChild c := by
      unfold Row.drawChild
      split
      · exact List.infix_rfl
      · exact List.infix_append [_] c.fragments [_]
    have hcells : children.flatMap Row.drawChild <:+: Row.drawChildren children :=
      List.infix_append [_, _] _ [_, _]
    have hrow : c.fragments <:+: Row.drawChildren children :=
      (hcell.trans (infix_flatMap_of_mem hc Row.drawChild)).trans hcells
    have hinner : c.fragments <:+: Row.inner s.options width e children := by
      refine List.IsInfix.trans ?_ (infix_element _ _ _)
      split
      · exact (hrow.trans (infix_table _ _ _)).trans (infix_element _ _ _)
      · exact hrow.trans (infix_table _ _ _)
    have hcontent : c.fragments <:+:
        Row.before width e :: Row.inner s.options width e children ++ [Row.after] :=
      hinner.trans (List.infix_append [_] _ [_])
    show c.fragments <:+: Row.draw s.options width e children
    unfold Row.draw
    simp only
    split
    · exact hcontent.trans (infix_table _ _ _)
    · exact hcontent
  | column =>
    have hcell : c.fragments <:+: Column.drawChild c := by
      unfold Column.drawChild
      split
      · exact List.infix_rfl
      · exact (infix_element _ _ _).trans (infix_element _ _ _)
    have hinner : c.fragments <:+: Column.inner width e children :=
      (hcell.trans (infix_flatMap_of_mem hc Column.drawChild)).trans
        ((infix_element _ _ _).trans (infix_element _ _ _))
    refine List.IsInfix.trans ?_ (infix_element _ _ _)
    split
    · exact hinner.trans (infix_table _ _ _)
    · exact hinner
  | text | image | button | raw => rw [hkind] at he; cases he

/-- A parent sees each of its blocks. -/
theorem exists_mem_childrenOf (width : Float) {blocks : List Block} (h : b ∈ blocks) :
    ∃ c ∈ childrenOf s width blocks, c.fragments = b.fragments s width := by
  have hmem := List.mem_map_of_mem (f := Block.fragments s width) h
  rwa [← map_fragments_childrenOf, List.mem_map] at hmem

/-- Every element of a drawing is drawn in some width around some children. -/
theorem infix_fragments (he : s.element? siblings n = some e) (hb : blockOf s e n = .ok b)
    (width : Float) :
    ∀ c ∈ elementsOf s siblings n,
      ∃ own children, c.draw s own children <:+: b.fragments s width := by
  have hkept : KeptByBlocks s fun b elements => ∀ width, ∀ c ∈ elements,
      ∃ own children, c.draw s own children <:+: b.fragments s width := by
    refine ⟨fun e _ width c hc => ?_, fun e set inner he _ hinner width c hc => ?_⟩
    · rw [List.mem_singleton.mp hc, Block.fragments]
      exact ⟨width, _, List.infix_rfl⟩
    · rw [Block.fragments]
      rcases List.mem_cons.mp hc with rfl | hc
      · exact ⟨width, _, List.infix_rfl⟩
      · obtain ⟨part, hpart, hc⟩ := List.mem_flatMap.mp hc
        obtain ⟨own, children, hdrawn⟩ := hinner part hpart (e.childWidth width) c hc
        obtain ⟨child, hchild, hfragments⟩ :=
          exists_mem_childrenOf (s := s) (e.childWidth width) (List.mem_map_of_mem hpart)
        rw [← hfragments] at hdrawn
        exact ⟨own, children, hdrawn.trans (infix_draw he width hchild)⟩
  exact block_induction hkept n he hb width

/-! ### Drawings of the core components -/

/-- The core components, and a head that says nothing. -/
def coreSetting : Setting where
  registry := .core
  options := {}
  head := .initial {}

/-- A body with one element of every kind that is drawn: the row goes over the whole window, the
column has a gutter and the text a height. -/
def sampleBody : Node :=
  let node (tag : String) (attributes : List (String × String)) (children : List Node)
      (content : String) : Node :=
    .element tag (.ofList attributes) children content .start
  node "mj-body" [] [node "mj-section" [("full-width", "full-width")]
    [node "mj-column" [("padding", "4px")]
      [node "mj-text" [("height", "40px")] [] "a > b", node "mj-image" [("src", "c.png")] [] "",
        node "mj-button" [("href", "https://d")] [] "e"] ""] ""] ""

/-- An element that passes a test when it is drawn. -/
theorem exists_drawn (s : Setting) (width : Float) (siblings : Siblings) (n : Node)
    (p : Element → Bool)
    (h : (draw s width siblings n).toOption.any (fun d => d.drawn?.any fun e => p e.1) = true) :
    ∃ d e html, draw s width siblings n = .ok d ∧ d.drawn? = some (e, html) ∧ p e = true := by
  cases hdraw : draw s width siblings n with
  | error failure =>
    rw [hdraw] at h
    cases h
  | ok d =>
    replace h : (d.drawn?.any fun e => p e.1) = true := by rwa [hdraw] at h
    cases hdrawn : d.drawn? with
    | none =>
      rw [hdrawn] at h
      cases h
    | some drawn =>
      rw [hdrawn] at h
      exact ⟨d, drawn.1, drawn.2, rfl, hdrawn, h⟩

end EmailMarkup.Body
