import EmailMarkup.OrderedMap

/-!
# Elements of email markup

A document is a tree of elements. Unlike an HTML tree it has no text nodes: what an element says is
gathered in its content, beside its children. Every element remembers where in the source it begins.
-/

namespace EmailMarkup.Markup

/-- A place in a source text: line and column, both counted from one. -/
structure Position where
  line : Nat
  column : Nat
  deriving DecidableEq, Repr, Inhabited

namespace Position

/-- The start of a text. -/
def start : Position :=
  { line := 1, column := 1 }

/-- The position after a character. -/
def next (p : Position) (c : Char) : Position :=
  if c = '\n' then { line := p.line + 1, column := 1 } else { p with column := p.column + 1 }

/-- The position after a text. -/
def after (p : Position) (cs : List Char) : Position :=
  cs.foldl next p

/-- The position in a text at which the given rest of it begins. -/
def ofRest (source rest : List Char) : Position :=
  -- The rest is a suffix of the source, so its length says where it begins.
  start.after (source.take (source.length - rest.length))

end Position

/-- Attributes by their names. -/
abbrev Attributes := OrderedMap String

/-- An element with its attributes, the elements in it and its text. -/
inductive Node where
  | element (tag : String) (attributes : Attributes) (children : List Node) (content : String)
      (position : Position)
  deriving Repr, Inhabited

namespace Node

/-- The name of the element. -/
def tag : Node → String
  | .element tag _ _ _ _ => tag

/-- The attributes as written. -/
def attributes : Node → Attributes
  | .element _ attributes _ _ _ => attributes

/-- The elements in it. -/
def children : Node → List Node
  | .element _ _ children _ _ => children

/-- Its text. -/
def content : Node → String
  | .element _ _ _ content _ => content

/-- Where it begins. -/
def position : Node → Position
  | .element _ _ _ _ position => position

/-- The line on which it begins. -/
def line (n : Node) : Nat :=
  n.position.line

/-- An element of a name without anything in it, which is nowhere in a source. -/
def bare (tag : String) : Node :=
  .element tag ∅ [] "" { line := 0, column := 0 }

/-- The value of an attribute. -/
def attribute? (n : Node) (name : String) : Option String :=
  n.attributes.get? name

/-- The first child of a name. -/
def child? (n : Node) (tag : String) : Option Node :=
  n.children.find? fun c => c.tag == tag

/-- The children of a name, in order. -/
def childrenNamed (n : Node) (tag : String) : List Node :=
  n.children.filter fun c => c.tag == tag

end Node

end EmailMarkup.Markup
