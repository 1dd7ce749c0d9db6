import EmailMarkup.Body.Element
import EmailMarkup.Body.Notes
import EmailMarkup.Schema.Resolve

/-!
# Blocks

Before a body is drawn its elements are set up: their attributes are resolved, and elements that
have no place in a body are left out. This is the only step of drawing that can fail. The children
of an element are all set up before any of their own children are, and what is noted meanwhile is
kept with the parent.
-/

namespace EmailMarkup.Body

open EmailMarkup.Component EmailMarkup.Markup

/-- An element that is ready to be drawn, with what was noted when its children were set up. -/
inductive Block where
  | block (element : Element) (setup : Notes) (children : List Block)
  deriving Repr

/-- The element of a block. -/
def Block.element : Block → Element
  | .block element _ _ => element

/-- Whether what a kind draws goes with a style sheet in the head. -/
def hasSheet : BodyKind → Bool
  | .image => true
  | _ => false

/-- Whether an element is drawn with its children. All others have their content only. -/
def hasChildren : BodyKind → Bool
  | .body | .row | .column => true
  | .text | .image | .button | .raw => false

/-- What is noted when an element is set up, and the element, unless it is left out. -/
structure SetUp where
  notes : Notes
  element? : Option Element
  deriving Repr

/-- Sets up one element. -/
def setUp (s : Setting) (siblings : Siblings) (n : Node) : Except Failure SetUp :=
  match s.registry.get? n.tag with
  | none => .ok { notes := { reports := [.unknownElement n.tag n.line] }, element? := none }
  | some spec =>
    match spec.kind with
    | .body kind =>
      (spec.schema.resolve s.options.level (some s.head) n).result.map fun (attributes, reports) =>
        { notes := { reports, sheets := if hasSheet kind then [(spec.tag, kind)] else [] }
          element? := some
            { tag := n.tag, kind, attributes, siblings, raw := spec.raw, content := n.content,
              line := n.line } }
    -- The tag is known, but its elements belong elsewhere.
    | _ => .ok { notes := { reports := [.notInBody n.tag n.line] }, element? := none }

/-- The number of children, and of those that are passed through. -/
def siblingsOf (r : Registry) (children : List Node) : Siblings :=
  { total := children.length, raw := (children.filter fun c => r.isRaw c.tag).length }

/-- Sets up the children of an element. -/
def setUpAll (s : Setting) (children : List Node) : Except Failure (List SetUp) :=
  children.mapM (setUp s (siblingsOf s.registry children))

mutual

/-- Makes the block of an element that has been set up. -/
def blockOf (s : Setting) (e : Element) : Node → Except Failure Block
  | .element _ _ children _ _ =>
    if hasChildren e.kind then do
      -- All children first: a failure of the last one comes before any grandchild is looked at.
      let set ← setUpAll s children
      let blocks ← blocksOf s (set.map SetUp.element?) children
      return .block e (.join (set.map SetUp.notes)) blocks
    else .ok (.block e {} [])

/-- Makes the blocks of elements that have been set up, as far as they were not left out. -/
def blocksOf (s : Setting) : List (Option Element) → List Node → Except Failure (List Block)
  | some e :: elements, n :: nodes => do
    let block ← blockOf s e n
    let blocks ← blocksOf s elements nodes
    return block :: blocks
  | none :: elements, _ :: nodes => blocksOf s elements nodes
  | _, _ => .ok []

end

end EmailMarkup.Body
