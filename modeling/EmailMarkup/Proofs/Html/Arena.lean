import EmailMarkup.Proofs.Html.Canonical
import EmailMarkup.Proofs.Html.Numbering
import EmailMarkup.Proofs.Html.ReadShape

/-!
# Nodes in the order they come into being

Numbers are given in document order, and a document is numbered when it is complete. One can also
number the nodes while the text is read, each when it comes into being. An `Assembly` does that: it
holds one cell for each node, a new cell goes behind the others, and its number is added to the
children of the innermost open element. Nothing is ever moved.

Both ways give the same numbers, however crooked the text is (`assemble_eq_arena`). The proof is one
equation for each kind of piece: `Builder.assembly` is what has been assembled by the time the
reader has made a `Builder`, and it goes through a piece as the builder does
(`Builder.assembly_step`).

The open elements of a builder are the last child of each other, so the cells of what is in an open
element come behind the cells of everything before it. That is `pendingCells`, and three lemmas on
it carry the steps. `Builder.cells_onChildren_cons` adds a node. `Builder.cells_finish` says that an
open element may be moved into the element around it without a change to the cells, which is what
happens to elements that an end tag further out closes. `Builder.retagAt_cells` closes an element.

Setting an attribute changes the cell with the number it is set at (`Document.arena_change`), so the
cells stay those of the document. It gives no content to an element that cannot have any, so the
document stays well numbered (`Document.hollowsEmpty_foldl_change`). `numbering_read_changed` puts
all of this together.
-/

set_option autoImplicit false

namespace EmailMarkup.Html

open EmailMarkup.Text

/-! ### Cells -/

/-- What a node is, apart from where it hangs. -/
inductive Content where
  | document
  | text (content : String)
  | comment (content : String)
  | declaration (content : String)
  | element (tag : Tag)

/-- The tags, if it is an element. -/
def Content.tag? : Content → Option Tag
  | .element tag => some tag
  | _ => none

/-- The text, if it is one. -/
def Content.text? : Content → Option String
  | .text content => some content
  | _ => none

/-- Changes the tags, if it is an element. -/
def Content.retag (f : Tag → Tag) : Content → Content
  | .element tag => .element (f tag)
  | c => c

/-- A node as it is kept under its number: what it is, and the numbers of the node it hangs in and
of its children. -/
structure Cell where
  content : Content
  parent : Option Nat
  children : List Nat

/-- Puts a new node behind the children of a node. Its number is the next one that is free. -/
def addCell (cells : List Cell) (parent : Nat) (content : Content) : List Cell :=
  cells.modify parent (fun c => { c with children := c.children ++ [cells.length] }) ++
    [{ content, parent := some parent, children := [] }]

/-- Changes the tags of the element with a number. -/
def retagAt (cells : List Cell) (id : Nat) (f : Tag → Tag) : List Cell :=
  cells.modify id fun c => { c with content := c.content.retag f }

/-- The number and the text of the last child of a node, if that is a text. -/
def lastText? (cells : List Cell) (parent : Nat) : Option (Nat × String) :=
  (((cells[parent]?).map Cell.children).bind List.getLast?).bind fun id =>
    ((cells[id]?).bind fun c => c.content.text?).map fun before => (id, before)

/-- Adds text to the children of a node. Text after text is one node. -/
def addTextCell (cells : List Cell) (parent : Nat) (content : String) : List Cell :=
  match lastText? cells parent with
  | some (id, before) => cells.modify id fun c => { c with content := .text (before ++ content) }
  | none => addCell cells parent (.text content)

/-- The line of a cell in the table of its document. -/
def Cell.entry (id : Nat) (c : Cell) : Entry :=
  { id, parent := c.parent, tag := c.content.tag?, children := c.children }

/-! ### Numbering while reading -/

/-- Nodes in the making: the cells so far, and the numbers of the open elements, innermost first. -/
structure Assembly where
  cells : List Cell
  opened : List Nat

/-- The number of the node that the next node joins. -/
def Assembly.current (a : Assembly) : Nat :=
  a.opened.headD 0

/-- Gives a tag its end tag. -/
def Tag.close (t : Tag) : Tag :=
  { t with closed := true }

/-- Whether a number is that of an element of a name. -/
def isNamed (cells : List Cell) (name : String) (id : Nat) : Bool :=
  ((cells[id]?).bind fun c => c.content.tag?).any fun t => sameName t.name name

/-- Takes in one piece. -/
def Assembly.step (a : Assembly) : Piece → Assembly
  | .text content => { a with cells := addTextCell a.cells a.current content }
  | .comment content => { a with cells := addCell a.cells a.current (.comment content) }
  | .declaration content => { a with cells := addCell a.cells a.current (.declaration content) }
  | .endTag name =>
    match a.opened.dropWhile fun id => !isNamed a.cells name id with
    | [] => a
    | id :: rest => { cells := retagAt a.cells id Tag.close, opened := rest }
  | .startTag name attributes selfClosing =>
    let cells := addCell a.cells a.current
      (.element { name, attributes, selfClosing, closed := false })
    if selfClosing || isVoid name then { a with cells }
    else { cells, opened := a.cells.length :: a.opened }
  | .rawText name attributes content closed =>
    let id := a.cells.length
    let cells := addCell a.cells a.current
      (.element { name, attributes, selfClosing := false, closed := false })
    let cells := if content.isEmpty then cells else addCell cells id (.text content)
    { a with cells := if closed then retagAt cells id Tag.close else cells }

/-- The cells that pieces make up. -/
def assemble (pieces : List Piece) : List Cell :=
  (pieces.foldl Assembly.step
    { cells := [{ content := .document, parent := none, children := [] }], opened := [] }).cells

/-! ### The cells of a document -/

/-- What a node is, apart from its children. -/
def Node.content : Node → Content
  | .text content => .text content
  | .comment content => .comment content
  | .declaration content => .declaration content
  | .element tag _ => .element tag

theorem Node.tag?_content (n : Node) : n.content.tag? = n.tag? := by
  cases n <;> rfl

/-- The cells of nodes that stand side by side in the node `parent`, the first of which has the
number `next`. -/
def cellsAmong (parent next : Nat) : List Node → List Cell
  | [] => []
  | .element tag children :: rest =>
    { content := .element tag, parent := some parent, children := childIds (next + 1) children } ::
      (cellsAmong next (next + 1) children ++
        cellsAmong parent (next + 1 + sizeOfNodes children) rest)
  | n :: rest =>
    { content := n.content, parent := some parent, children := [] } ::
      cellsAmong parent (next + 1) rest

/-- The cells of a document, in the order of the numbers. -/
def Document.arena (d : Document) : List Cell :=
  { content := .document, parent := none, children := childIds 1 d.children } ::
    cellsAmong 0 1 d.children

/-- The cells of nodes side by side: that of the first node, those of what is in it, and those of
the nodes after it. -/
theorem cellsAmong_cons (parent next : Nat) (n : Node) (rest : List Node) :
    cellsAmong parent next (n :: rest) =
      { content := n.content, parent := some parent,
        children := childIds (next + 1) n.children } ::
        (cellsAmong next (next + 1) n.children ++ cellsAmong parent (next + n.size) rest) := by
  cases n with
  | text | comment | declaration =>
    simp [cellsAmong, Node.content, Node.children, Node.size, childIds]
  | element => simp [cellsAmong, Node.content, Node.children, Node.size, Nat.add_assoc]

/-- There is a cell for each node. -/
@[simp]
theorem length_cellsAmong (parent next : Nat) (nodes : List Node) :
    (cellsAmong parent next nodes).length = sizeOfNodes nodes := by
  induction nodes using children_induction generalizing parent next with
  | nil => simp [cellsAmong, sizeOfNodes]
  | cons n rest ihChildren ihRest =>
    rw [cellsAmong_cons, List.length_cons, List.length_append, ihChildren, ihRest, sizeOfNodes,
      Node.size_eq]
    omega

/-- The lines of the cells are the lines of the nodes. -/
theorem mapIdx_entry_cellsAmong (parent next : Nat) (nodes : List Node) :
    (cellsAmong parent next nodes).mapIdx (fun i c => c.entry (next + i)) =
      entriesOfNodes parent next nodes := by
  induction nodes using children_induction generalizing parent next with
  | nil => simp [cellsAmong, entriesOfNodes]
  | cons n rest ihChildren ihRest =>
    rw [cellsAmong_cons, entriesOfNodes_cons, ← ihChildren, ← ihRest, List.mapIdx_cons,
      List.mapIdx_append, length_cellsAmong, Cell.entry, Node.tag?_content, Node.size_eq]
    simp [Nat.add_comm, Nat.add_left_comm]

/-- The lines of the cells of a document are its table. -/
theorem Document.mapIdx_entry_arena (d : Document) :
    d.arena.mapIdx (fun i c => c.entry i) = d.table := by
  rw [arena, table, List.mapIdx_cons, ← mapIdx_entry_cellsAmong]
  simp [Cell.entry, Content.tag?, Nat.add_comm]

theorem childIds_append (next : Nat) (a b : List Node) :
    childIds next (a ++ b) = childIds next a ++ childIds (next + sizeOfNodes a) b := by
  induction a generalizing next with
  | nil => rfl
  | cons n a ih =>
    rw [List.cons_append, childIds, ih, childIds, List.cons_append, sizeOfNodes, Nat.add_assoc]

theorem cellsAmong_append (parent next : Nat) (a b : List Node) :
    cellsAmong parent next (a ++ b) =
      cellsAmong parent next a ++ cellsAmong parent (next + sizeOfNodes a) b := by
  induction a generalizing next with
  | nil => simp [cellsAmong, sizeOfNodes]
  | cons n a ih =>
    rw [List.cons_append, cellsAmong_cons, ih, cellsAmong_cons, sizeOfNodes, Nat.add_assoc,
      List.cons_append, List.append_assoc]

/-! ### The cells of a document in the making -/

/-- The tags of an open element as long as it has no end tag. -/
def OpenElement.tag (e : OpenElement) : Tag :=
  { name := e.name, attributes := e.attributes, selfClosing := false, closed := false }

/-- The next number that is free, where the nodes outside all elements are `top`, latest first. -/
def nextId (top : List Node) : List OpenElement → Nat
  | [] => 1 + sizeOfNodes top.reverse
  | e :: rest => nextId top rest + 1 + sizeOfNodes e.children.reverse

/-- The numbers of the open elements. Each of them is the last node of what is around it. -/
def openIds (top : List Node) : List OpenElement → List Nat
  | [] => []
  | _ :: rest => nextId top rest :: openIds top rest

/-- The number of the innermost open element, or of the document. -/
def currentId (top : List Node) (stack : List OpenElement) : Nat :=
  (openIds top stack).headD 0

/-- The cells so far. The innermost open element has the children `more` besides those given. -/
def pendingCells (top : List Node) (more : List Nat) : List OpenElement → List Cell
  | [] =>
    { content := .document, parent := none, children := childIds 1 top.reverse ++ more } ::
      cellsAmong 0 1 top.reverse
  | e :: rest =>
    let id := nextId top rest
    -- The element itself is one more child of the element around it.
    pendingCells top [id] rest ++
      { content := .element e.tag, parent := some (currentId top rest),
        children := childIds (id + 1) e.children.reverse ++ more } ::
      cellsAmong id (id + 1) e.children.reverse

@[simp]
theorem length_pendingCells (top : List Node) (more : List Nat) (stack : List OpenElement) :
    (pendingCells top more stack).length = nextId top stack := by
  induction stack generalizing more with
  | nil => simp [pendingCells, nextId, Nat.add_comm]
  | cons e rest ih =>
    simp only [pendingCells, nextId, List.length_append, ih, List.length_cons, length_cellsAmong]
    omega

/-- The part of a list behind another can be changed by itself. -/
theorem modify_append_length {α : Type} {a : List α} {i : Nat} (hi : a.length = i) (x : α)
    (b : List α) (f : α → α) : (a ++ x :: b).modify i f = a ++ f x :: b := by
  subst hi
  induction a with
  | nil => rfl
  | cons y a ih => exact congrArg (y :: ·) ih

/-- A number put behind the children of the innermost open element. -/
theorem modify_pendingCells (top : List Node) (more : List Nat) (stack : List OpenElement)
    (id : Nat) :
    (pendingCells top more stack).modify (currentId top stack)
        (fun c => { c with children := c.children ++ [id] }) =
      pendingCells top (more ++ [id]) stack := by
  cases stack with
  | nil => simp [pendingCells, currentId, openIds]
  | cons e rest =>
    simp only [pendingCells, currentId, openIds, List.headD_cons]
    rw [modify_append_length (length_pendingCells top _ rest), List.append_assoc]

/-- The children that the innermost open element lists. -/
theorem map_children_pendingCells (top : List Node) (more : List Nat) (stack : List OpenElement) :
    ((pendingCells top more stack)[currentId top stack]?).map Cell.children = some
      (childIds (currentId top stack + 1) (Builder.mk top stack).children.reverse ++ more) := by
  cases stack with
  | nil => rfl
  | cons e rest => simp [pendingCells, currentId, openIds, Builder.children]

/-- The element at hand has been given its number. -/
theorem currentId_lt_nextId (top : List Node) (stack : List OpenElement) :
    currentId top stack < nextId top stack := by
  cases stack with
  | nil => exact Nat.lt_add_right _ Nat.zero_lt_one
  | cons e rest =>
    simp only [currentId, openIds, nextId, List.headD_cons]
    omega

namespace Builder

/-- The cells of a document in the making. -/
def cells (b : Builder) : List Cell :=
  pendingCells b.top [] b.stack

/-- A document in the making, as one that is numbered while it is read. -/
def assembly (b : Builder) : Assembly :=
  { cells := b.cells, opened := openIds b.top b.stack }

theorem length_cells (b : Builder) : b.cells.length = nextId b.top b.stack :=
  length_pendingCells b.top [] b.stack

/-- Nodes are added inside the open elements, which stay the same. -/
theorem openIds_onChildren (b : Builder) (f : List Node → List Node) :
    openIds (b.onChildren f).top (b.onChildren f).stack = openIds b.top b.stack := by
  obtain ⟨top, stack⟩ := b
  cases stack <;> rfl

/-- The cells of a node that is added come behind all others, and the innermost open element lists
the node. -/
theorem cells_onChildren_cons (b : Builder) (n : Node) :
    (b.onChildren (n :: ·)).cells = pendingCells b.top [nextId b.top b.stack] b.stack ++
      cellsAmong (currentId b.top b.stack) (nextId b.top b.stack) [n] := by
  obtain ⟨top, stack⟩ := b
  cases stack with
  | nil =>
    simp [onChildren, cells, pendingCells, childIds_append, cellsAmong_append, childIds, nextId,
      currentId, openIds]
  | cons e rest =>
    simp [onChildren, cells, pendingCells, childIds_append, cellsAmong_append, childIds, nextId,
      currentId, openIds, OpenElement.tag]

/-- Adding a node without children adds one cell. -/
theorem addCell_cells (b : Builder) {n : Node} (hn : n.children = []) :
    addCell b.cells (currentId b.top b.stack) n.content = (b.onChildren (n :: ·)).cells := by
  rw [addCell, length_cells, cells, modify_pendingCells, cells_onChildren_cons, cellsAmong_cons, hn]
  simp [cellsAmong, childIds]

/-- Opening an element adds one cell. -/
theorem addCell_cells_open (b : Builder) (name : String) (attributes : List Attribute) :
    addCell b.cells (currentId b.top b.stack)
        (.element { name, attributes, selfClosing := false, closed := false }) =
      { b with stack := { name, attributes, children := [] } :: b.stack }.cells := by
  rw [addCell, length_cells, cells, modify_pendingCells, cells, pendingCells]
  simp [cellsAmong, childIds, OpenElement.tag]

/-- As long as it has no end tag, an open element has the cells of a child of the element around it.
-/
theorem cells_finish (b : Builder) (e : OpenElement) :
    (b.onChildren (e.finish false :: ·)).cells = { b with stack := e :: b.stack }.cells := by
  rw [cells_onChildren_cons, cellsAmong_cons, cells, pendingCells]
  simp [OpenElement.finish, Node.content, Node.children, OpenElement.tag, cellsAmong]

/-- An end tag changes the cell of its element. -/
theorem retagAt_cells (b : Builder) (e : OpenElement) :
    retagAt { b with stack := e :: b.stack }.cells (nextId b.top b.stack) Tag.close =
      (b.onChildren (e.finish true :: ·)).cells := by
  rw [cells_onChildren_cons, cellsAmong_cons, cells, pendingCells, retagAt]
  simp only
  rw [modify_append_length (length_pendingCells b.top _ b.stack)]
  simp [OpenElement.finish, Node.content, Node.children, OpenElement.tag, cellsAmong,
    Content.retag, Tag.close]

/-- The innermost open element is known by its number. -/
theorem isNamed_cells (b : Builder) (e : OpenElement) (name : String) :
    isNamed { b with stack := e :: b.stack }.cells name (nextId b.top b.stack) =
      sameName e.name name := by
  simp [isNamed, cells, pendingCells, Content.tag?, OpenElement.tag]

/-- The last child is the node that was added last. -/
theorem lastText?_onChildren_cons (b : Builder) (n : Node) :
    lastText? (b.onChildren (n :: ·)).cells (currentId b.top b.stack) =
      n.content.text?.map fun before => (nextId b.top b.stack, before) := by
  have hchildren := map_children_pendingCells b.top [nextId b.top b.stack] b.stack
  have hlt := currentId_lt_nextId b.top b.stack
  rw [lastText?, cells_onChildren_cons, cellsAmong_cons,
    List.getElem?_append_left (by rwa [length_pendingCells]), hchildren]
  simp

/-- Children can be taken apart into the latest and those before it. -/
theorem exists_onChildren_cons {b : Builder} {n : Node} {rest : List Node}
    (h : b.children = n :: rest) : ∃ b' : Builder, b = b'.onChildren (n :: ·) := by
  refine ⟨b.onChildren fun _ => rest, ?_⟩
  obtain ⟨top, stack⟩ := b
  cases stack with
  | nil =>
    obtain rfl : top = n :: rest := h
    rfl
  | cons e stack =>
    obtain ⟨name, attributes, children⟩ := e
    obtain rfl : children = n :: rest := h
    rfl

/-- Where the latest child is no text, none can be gone on with. -/
theorem lastText?_eq_none {b : Builder} (h : startsWithText b.children = false) :
    lastText? b.cells (currentId b.top b.stack) = none := by
  cases hchildren : b.children with
  | nil =>
    have hlisted := map_children_pendingCells b.top [] b.stack
    rw [hchildren] at hlisted
    rw [lastText?, cells, hlisted]
    rfl
  | cons n rest =>
    rw [hchildren] at h
    obtain ⟨b, rfl⟩ := exists_onChildren_cons hchildren
    rw [currentId, openIds_onChildren, ← currentId, lastText?_onChildren_cons]
    cases n with
    | text => cases h
    | comment => rfl
    | declaration => rfl
    | element => rfl

/-- Adding text changes the cells as it changes the children. -/
theorem addTextCell_cells (b : Builder) (content : String) :
    addTextCell b.cells (currentId b.top b.stack) content =
      (b.onChildren (joinText content)).cells := by
  cases hlast : startsWithText b.children with
  | false =>
    have hjoin : b.onChildren (joinText content) = b.onChildren (.text content :: ·) :=
      step_text hlast content
    rw [addTextCell, lastText?_eq_none hlast, hjoin, ← addCell_cells b rfl]
    rfl
  | true =>
    obtain ⟨before, rest, hchildren⟩ : ∃ before rest, b.children = .text before :: rest := by
      unfold startsWithText at hlast
      split at hlast
      · exact ⟨_, _, ‹_›⟩
      · cases hlast
    obtain ⟨b, rfl⟩ := exists_onChildren_cons hchildren
    rw [onChildren_onChildren]
    -- The cell of the text before is the last one, and its text grows.
    show _ = (b.onChildren (.text (before ++ content) :: ·)).cells
    rw [currentId, openIds_onChildren, ← currentId, addTextCell, lastText?_onChildren_cons]
    simp only [Node.content, Content.text?, Option.map_some]
    rw [cells_onChildren_cons, cells_onChildren_cons, cellsAmong_cons, cellsAmong_cons,
      modify_append_length (length_pendingCells b.top _ b.stack)]
    rfl

/-! ### Closing elements -/

section Closing
variable (name : String) (inner top : List Node) (e : OpenElement) (rest : List OpenElement)

/-- The innermost open element, with the nodes `inner` in it, may be moved into the element around
it before any end tag is read. -/
theorem cells_moveOut :
    ((Builder.mk top rest).onChildren
        ([OpenElement.finish { e with children := inner ++ e.children } false] ++ ·)).cells =
      ((Builder.mk top (e :: rest)).onChildren (inner ++ ·)).cells :=
  cells_finish ⟨top, rest⟩ { e with children := inner ++ e.children }

/-- The innermost open element is known by its number, with any nodes in it. -/
theorem isNamed_cells_append :
    isNamed ((Builder.mk top (e :: rest)).onChildren (inner ++ ·)).cells name (nextId top rest) =
      sameName e.name name :=
  isNamed_cells ⟨top, rest⟩ { e with children := inner ++ e.children } name

end Closing

/-- An end tag for which no element is open finds none among the numbers. -/
theorem dropWhile_openIds_of_not_any {name : String} {stack : List OpenElement}
    (h : stack.any (fun e => sameName e.name name) = false) (inner top : List Node) :
    (openIds top stack).dropWhile (fun id =>
      !isNamed ((Builder.mk top stack).onChildren (inner ++ ·)).cells name id) = [] := by
  induction stack generalizing inner with
  | nil => rfl
  | cons e rest ih =>
    rw [List.any_cons, Bool.or_eq_false_iff] at h
    rw [openIds, List.dropWhile_cons_of_pos (by rw [isNamed_cells_append, h.1]; rfl),
      ← cells_moveOut]
    exact ih h.2 _

/-- An end tag finds the innermost open element of its name by number, and closing it changes the
cells as it changes the document. -/
theorem exists_dropWhile_openIds {name : String} {stack : List OpenElement}
    (h : stack.any (fun e => sameName e.name name) = true) (inner top : List Node) :
    ∃ id, (openIds top stack).dropWhile (fun id =>
        !isNamed ((Builder.mk top stack).onChildren (inner ++ ·)).cells name id) =
          id :: openIds (closeThrough name inner top stack).top
            (closeThrough name inner top stack).stack ∧
      retagAt ((Builder.mk top stack).onChildren (inner ++ ·)).cells id Tag.close =
        (closeThrough name inner top stack).cells := by
  induction stack generalizing inner with
  | nil => cases h
  | cons e rest ih =>
    rw [List.any_cons] at h
    rw [openIds, closeThrough]
    simp only
    cases hsame : sameName e.name name with
    | true =>
      refine ⟨nextId top rest, ?_, ?_⟩
      · rw [List.dropWhile_cons_of_neg (by rw [isNamed_cells_append, hsame]; decide), if_pos rfl,
          openIds_onChildren]
      · exact retagAt_cells ⟨top, rest⟩ { e with children := inner ++ e.children }
    | false =>
      rw [hsame, Bool.false_or] at h
      rw [List.dropWhile_cons_of_pos (by rw [isNamed_cells_append, hsame]; rfl), ← cells_moveOut,
        if_neg (by decide)]
      exact ih h _

/-- Closing all elements leaves the cells as they are. -/
theorem arena_closeAll (inner top : List Node) (stack : List OpenElement) :
    (Document.mk (closeAll inner top stack).reverse).arena =
      ((Builder.mk top stack).onChildren (inner ++ ·)).cells := by
  induction stack generalizing inner with
  | nil => simp [closeAll, Document.arena, onChildren, cells, pendingCells]
  | cons e rest ih => rw [closeAll, ih, cells_moveOut]

/-! ### Steps and runs -/

theorem assembly_onChildren (b : Builder) (f : List Node → List Node) :
    (b.onChildren f).assembly = { b.assembly with cells := (b.onChildren f).cells } := by
  rw [assembly, openIds_onChildren]
  rfl

/-- Adding a node without children to the document adds its cell. -/
theorem assembly_onChildren_cons (b : Builder) (n : Node) (hn : n.children = []) :
    { b.assembly with cells := addCell b.assembly.cells b.assembly.current n.content } =
      (b.onChildren (n :: ·)).assembly := by
  rw [assembly_onChildren, ← addCell_cells b hn]
  rfl

/-- An end tag closes the same element in both. -/
theorem assembly_step_endTag (b : Builder) (name : String) :
    b.assembly.step (.endTag name) = (b.step (.endTag name)).assembly := by
  have hinner : b.onChildren ([] ++ ·) = b := add_nil b
  rw [Assembly.step, Builder.step]
  cases hopen : b.stack.any fun e => sameName e.name name with
  | false =>
    have hdrop := dropWhile_openIds_of_not_any hopen [] b.top
    rw [hinner] at hdrop
    simp only [assembly, hdrop]
    rfl
  | true =>
    obtain ⟨id, hdrop, hcells⟩ := exists_dropWhile_openIds hopen [] b.top
    rw [hinner] at hdrop hcells
    simp only [assembly, hdrop, hcells]
    rfl

/-- Opening an element adds its cell and its number. -/
theorem assembly_open (b : Builder) (name : String) (attributes : List Attribute) :
    { cells := addCell b.assembly.cells b.assembly.current
        (.element { name, attributes, selfClosing := false, closed := false })
      opened := b.assembly.cells.length :: b.assembly.opened } =
      { b with stack := { name, attributes, children := [] } :: b.stack }.assembly := by
  rw [assembly, assembly, ← addCell_cells_open, length_cells]
  rfl

/-- An element with raw text is first opened and given its text. -/
theorem addCell_cells_rawText (b : Builder) (name : String) (attributes : List Attribute)
    (content : String) :
    (if content.isEmpty then addCell b.cells (currentId b.top b.stack)
        (.element { name, attributes, selfClosing := false, closed := false })
      else addCell (addCell b.cells (currentId b.top b.stack)
        (.element { name, attributes, selfClosing := false, closed := false }))
        b.cells.length (.text content)) =
      { b with stack := ⟨name, attributes, rawChildren content⟩ :: b.stack }.cells := by
  rw [addCell_cells_open, rawChildren]
  split
  · rfl
  · rw [length_cells]
    exact addCell_cells { b with stack := ⟨name, attributes, []⟩ :: b.stack } (n := .text content)
      rfl

/-- An element is finished with its end tag or without. -/
theorem retagAt_cells_if (b : Builder) (e : OpenElement) (closed : Bool) :
    (if closed then retagAt { b with stack := e :: b.stack }.cells b.cells.length Tag.close
      else { b with stack := e :: b.stack }.cells) =
      (b.onChildren (e.finish closed :: ·)).cells := by
  rw [length_cells]
  cases closed with
  | false => exact (cells_finish b e).symm
  | true => exact retagAt_cells b e

/-- Raw text is read as an element that is opened, given its text and closed. -/
theorem assembly_step_rawText (b : Builder) (name : String) (attributes : List Attribute)
    (content : String) (closed : Bool) :
    b.assembly.step (.rawText name attributes content closed) =
      (b.step (.rawText name attributes content closed)).assembly := by
  have hreverse : (rawChildren content).reverse = rawChildren content := by
    unfold rawChildren
    split <;> rfl
  have hcells := retagAt_cells_if b ⟨name, attributes, rawChildren content⟩ closed
  rw [← addCell_cells_rawText, OpenElement.finish, hreverse] at hcells
  rw [Builder.step, assembly_onChildren]
  exact congrArg (Assembly.mk · b.assembly.opened) hcells

/-- Every piece changes the cells as it changes the document in the making. -/
theorem assembly_step (b : Builder) (piece : Piece) :
    b.assembly.step piece = (b.step piece).assembly := by
  cases piece with
  | text content =>
    rw [Builder.step, assembly_onChildren, ← addTextCell_cells]
    rfl
  | comment content => exact assembly_onChildren_cons b (.comment content) rfl
  | declaration content => exact assembly_onChildren_cons b (.declaration content) rfl
  | endTag name => exact assembly_step_endTag b name
  | startTag name attributes selfClosing =>
    rw [Assembly.step, Builder.step]
    split
    · exact assembly_onChildren_cons b (.element _ []) rfl
    · rename_i hopen
      rw [Bool.or_eq_true, not_or, Bool.not_eq_true] at hopen
      rw [hopen.1]
      exact assembly_open b name attributes
  | rawText name attributes content closed =>
    exact assembly_step_rawText b name attributes content closed

end Builder

/-- Numbering the nodes while the pieces are read numbers them in document order. -/
theorem assemble_eq_arena (pieces : List Piece) :
    assemble pieces = (Document.ofPieces pieces).arena := by
  have hrun : pieces.foldl Assembly.step (Builder.mk [] []).assembly =
      (pieces.foldl Builder.step ⟨[], []⟩).assembly :=
    List.foldl_hom Builder.assembly Builder.assembly_step
  have hstart : (Builder.mk [] []).assembly =
      { cells := [{ content := .document, parent := none, children := [] }], opened := [] } := by
    simp [Builder.assembly, Builder.cells, pendingCells, openIds, cellsAmong, childIds]
  rw [hstart] at hrun
  rw [assemble, hrun, Document.ofPieces]
  generalize pieces.foldl Builder.step ⟨[], []⟩ = b
  have hclose := Builder.arena_closeAll [] b.top b.stack
  exact (hclose.trans (congrArg Builder.cells (Builder.add_nil b))).symm

/-! ### Changing tags -/

section Changing
variable (target : Nat) (f : Tag → Tag)

theorem Node.content_modifyTag (id : Nat) (n : Node) :
    (n.modifyTag target id f).content =
      if id = target then n.content.retag f else n.content := by
  cases n with
  | element tag children =>
    rw [Node.modifyTag, Node.content]
    split <;> rfl
  | text | comment | declaration => exact (ite_self _).symm

theorem Node.children_modifyTag (id : Nat) (n : Node) :
    (n.modifyTag target id f).children = modifyTagIn target (id + 1) f n.children := by
  cases n <;> rfl

/-- Changing tags adds no node. -/
theorem sizeOfNodes_modifyTagIn (next : Nat) (nodes : List Node) :
    sizeOfNodes (modifyTagIn target next f nodes) = sizeOfNodes nodes := by
  induction nodes using children_induction generalizing next with
  | nil => rfl
  | cons n rest ihChildren ihRest =>
    rw [modifyTagIn, sizeOfNodes, sizeOfNodes, ihRest, Node.size_eq, Node.size_eq,
      Node.children_modifyTag, ihChildren]

/-- Changing tags leaves the numbers of children as they are. -/
theorem childIds_modifyTagIn (next start : Nat) (nodes : List Node) :
    childIds next (modifyTagIn target start f nodes) = childIds next nodes := by
  induction nodes generalizing next start with
  | nil => rfl
  | cons n rest ih =>
    rw [modifyTagIn, childIds, childIds, ih, Node.size_eq, Node.size_eq, Node.children_modifyTag,
      sizeOfNodes_modifyTagIn]

/-- Changing the tags of one element changes one cell. -/
theorem cellsAmong_modifyTagIn (parent next : Nat) (nodes : List Node) :
    cellsAmong parent next (modifyTagIn target next f nodes) =
      (cellsAmong parent next nodes).mapIdx fun i c =>
        if next + i = target then { c with content := c.content.retag f } else c := by
  induction nodes using children_induction generalizing parent next with
  | nil => simp [modifyTagIn, cellsAmong]
  | cons n rest ihChildren ihRest =>
    have hsize : (n.modifyTag target next f).size = n.size := by
      rw [Node.size_eq, Node.size_eq, Node.children_modifyTag, sizeOfNodes_modifyTagIn]
    rw [modifyTagIn, cellsAmong_cons, cellsAmong_cons, Node.children_modifyTag,
      childIds_modifyTagIn, ihChildren, hsize, ihRest, Node.content_modifyTag, List.mapIdx_cons,
      List.mapIdx_append, length_cellsAmong, Node.size_eq]
    have hindex : ∀ i, next + 1 + i = next + (i + 1) := by omega
    have hbehind : ∀ i, next + (1 + sizeOfNodes n.children) + i =
        next + (i + sizeOfNodes n.children + 1) := by omega
    simp only [hindex, hbehind, Nat.add_zero]
    split <;> rfl

/-- Changing the tags of the element with a number changes the cell of that number. -/
theorem retagAt_eq_mapIdx (cells : List Cell) :
    retagAt cells target f = cells.mapIdx fun i c =>
      if i = target then { c with content := c.content.retag f } else c := by
  refine List.ext_getElem? fun i => ?_
  rw [retagAt, List.getElem?_modify, List.getElem?_mapIdx]
  simp only [eq_comm]
  rfl

end Changing

/-- A change to a document: the number of an element, the name of an attribute and its new value,
already escaped. -/
structure Change where
  id : Nat
  name : String
  value : String

/-- Makes a change in a document. -/
def Document.change (d : Document) (c : Change) : Document :=
  d.setAttribute c.id c.name c.value

/-- Makes a change in the cells of a document. -/
def changeCells (cells : List Cell) (c : Change) : List Cell :=
  retagAt cells c.id (·.setAttribute c.name c.value)

/-- A change is the same in the cells and in the document. -/
theorem Document.arena_change (d : Document) (c : Change) :
    (d.change c).arena = changeCells d.arena c := by
  rw [changeCells, retagAt_eq_mapIdx, arena, arena, List.mapIdx_cons, change, setAttribute,
    childIds_modifyTagIn, cellsAmong_modifyTagIn]
  -- The document itself is no element, so a change of node 0 changes nothing.
  simp only [Nat.add_comm 1]
  split <;> rfl

/-- A change gives no content to an element that cannot have any. -/
theorem hollowsEmpty_modifyTagIn {f : Tag → Tag} (hf : ∀ t, (f t).isHollow = t.isHollow)
    (target next : Nat) {nodes : List Node} (h : HollowsEmpty nodes) :
    HollowsEmpty (modifyTagIn target next f nodes) := by
  induction h generalizing next with
  | nil => exact .nil
  | text _ ih => exact .text (ih _)
  | comment _ ih => exact .comment (ih _)
  | declaration _ ih => exact .declaration (ih _)
  | @element tag children rest hempty _ _ ihChildren ihRest =>
    refine .element ?_ (ihChildren _) (ihRest _)
    intro hhollow
    have htag : tag.isHollow = true := by
      split at hhollow
      · rwa [hf] at hhollow
      · exact hhollow
    rw [hempty htag]
    rfl

/-- Setting attributes keeps elements without content without any. -/
theorem Document.hollowsEmpty_change {d : Document} (h : HollowsEmpty d.children) (c : Change) :
    HollowsEmpty (d.change c).children := by
  have hkeeps : ∀ t : Tag, (t.setAttribute c.name c.value).isHollow = t.isHollow := fun _ => rfl
  exact hollowsEmpty_modifyTagIn hkeeps c.id 1 h

/-- Changes of tags put no content into nodes that have none. -/
theorem Document.hollowsEmpty_foldl_change {d : Document} (h : HollowsEmpty d.children)
    (changes : List Change) : HollowsEmpty (changes.foldl change d).children := by
  induction changes generalizing d with
  | nil => exact h
  | cons c changes ih => exact ih (hollowsEmpty_change h c)

/-- No node in a document is the document. -/
theorem content_ne_document {parent next : Nat} {nodes : List Node} {c : Cell}
    (h : c ∈ cellsAmong parent next nodes) : c.content ≠ .document := by
  induction nodes using children_induction generalizing parent next with
  | nil => simp [cellsAmong] at h
  | cons n rest ihChildren ihRest =>
    rw [cellsAmong_cons] at h
    rcases List.mem_cons.mp h with rfl | h
    · cases n <;> exact nofun
    rcases List.mem_append.mp h with h | h
    · exact ihChildren h
    · exact ihRest h

/-- Only node 0 is the document. -/
theorem Document.content_eq_document_iff {d : Document} {id : Nat} {c : Cell}
    (h : d.arena[id]? = some c) : c.content = .document ↔ id = 0 := by
  rw [arena] at h
  cases id with
  | zero =>
    obtain rfl := Option.some.inj h
    simp
  | succ id =>
    rw [List.getElem?_cons_succ] at h
    simp [content_ne_document (List.mem_of_getElem? h)]

/-- However a text is read and whatever attributes are set afterwards, numbering the nodes as they
come into being gives the table of the document, node 0 is the document and no other node is, and
the document is well numbered. -/
theorem numbering_read_changed (html : String) (changes : List Change) :
    let cells := changes.foldl changeCells (assemble (readPieces html.toList))
    let d := changes.foldl Document.change (Document.read html)
    cells.mapIdx (fun id c => c.entry id) = d.table ∧
      (∀ id c, cells[id]? = some c → (c.content = .document ↔ id = 0)) ∧ d.WellNumbered := by
  intro cells d
  have hcells : cells = d.arena := by
    show changes.foldl changeCells (assemble (readPieces html.toList)) = _
    rw [assemble_eq_arena]
    exact List.foldl_hom Document.arena (fun d c => (d.arena_change c).symm)
  have hhollow : HollowsEmpty d.children :=
    Document.hollowsEmpty_foldl_change (hollowsEmpty_read html) changes
  rw [hcells]
  exact ⟨d.mapIdx_entry_arena, fun _ _ => Document.content_eq_document_iff,
    Document.wellNumbered hhollow⟩

end EmailMarkup.Html
