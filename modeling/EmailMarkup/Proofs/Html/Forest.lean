import EmailMarkup.Html.Tree

/-!
# Nodes side by side

The functions on HTML trees come in pairs, one on a node and one on the nodes that stand side by
side. The laws are stated on the second of each pair, and `forest_induction` is the induction that
goes with it: the first of the nodes is a text, a comment, a declaration or an element, and the
property holds of its content and of the nodes after it. Where the kinds of nodes make no
difference, `children_induction` has one case for all of them.

`joinTexts` is what reading makes of nodes that are written one after the other: texts that meet
become one text and empty ones vanish. It changes nothing that is written (`printNodes_joinTexts`).
-/

set_option autoImplicit false

namespace EmailMarkup.Html

/-- Induction over nodes side by side, the first of which may be an element with content. -/
@[elab_as_elim]
theorem forest_induction {motive : List Node → Prop} (nil : motive [])
    (text : ∀ content rest, motive rest → motive (.text content :: rest))
    (comment : ∀ content rest, motive rest → motive (.comment content :: rest))
    (declaration : ∀ content rest, motive rest → motive (.declaration content :: rest))
    (element : ∀ tag children rest, motive children → motive rest →
      motive (.element tag children :: rest)) : ∀ nodes, motive nodes
  | [] => nil
  | .text content :: rest =>
    text content rest (forest_induction nil text comment declaration element rest)
  | .comment content :: rest =>
    comment content rest (forest_induction nil text comment declaration element rest)
  | .declaration content :: rest =>
    declaration content rest (forest_induction nil text comment declaration element rest)
  | .element tag children :: rest =>
    element tag children rest (forest_induction nil text comment declaration element children)
      (forest_induction nil text comment declaration element rest)

/-- The tags of a node, if it is an element. -/
def Node.tag? : Node → Option Tag
  | .element tag _ => some tag
  | _ => none

/-- The nodes in a node. Only an element has any. -/
def Node.children : Node → List Node
  | .element _ children => children
  | _ => []

/-- Induction over nodes side by side for what treats all kinds of nodes alike: the property holds
of what is in the first node and of the nodes after it. -/
@[elab_as_elim]
theorem children_induction {motive : List Node → Prop} (nil : motive [])
    (cons : ∀ n rest, motive n.children → motive rest → motive (n :: rest)) (nodes : List Node) :
    motive nodes := by
  induction nodes using forest_induction with
  | nil => exact nil
  | text content rest ih => exact cons (.text content) rest nil ih
  | comment content rest ih => exact cons (.comment content) rest nil ih
  | declaration content rest ih => exact cons (.declaration content) rest nil ih
  | element tag children rest ihChildren ihRest =>
    exact cons (.element tag children) rest ihChildren ihRest

/-- Nodes are written one after the other. -/
@[simp]
theorem printNodes_append (a b : List Node) :
    printNodes (a ++ b) = printNodes a ++ printNodes b := by
  induction a with
  | nil => rfl
  | cons n a ih => rw [List.cons_append, printNodes, ih, printNodes, List.append_assoc]

/-- Whether nodes begin with text. -/
def startsWithText : List Node → Bool
  | .text _ :: _ => true
  | _ => false

/-- Puts text in front of nodes. An empty text leaves no node, and text before text is one node. -/
def consText (content : String) (nodes : List Node) : List Node :=
  if content = "" then nodes
  else match nodes with
    | .text next :: rest => .text (content ++ next) :: rest
    | _ => .text content :: nodes

/-- Joins texts that stand side by side, at every depth, and drops empty ones. -/
def joinTexts : List Node → List Node
  | [] => []
  | .text content :: rest => consText content (joinTexts rest)
  | .comment content :: rest => .comment content :: joinTexts rest
  | .declaration content :: rest => .declaration content :: joinTexts rest
  | .element tag children :: rest => .element tag (joinTexts children) :: joinTexts rest

/-- Text put in front is written in front. -/
theorem printNodes_consText (content : String) (nodes : List Node) :
    printNodes (consText content nodes) = content.toList ++ printNodes nodes := by
  unfold consText
  split
  · rename_i hempty
    rw [hempty]
    rfl
  · split
    · simp [printNodes, Node.print]
    · rw [printNodes, Node.print]

/-- Joining texts changes nothing that is written. -/
theorem printNodes_joinTexts (nodes : List Node) :
    printNodes (joinTexts nodes) = printNodes nodes := by
  induction nodes using forest_induction with
  | nil => rw [joinTexts]
  | text content rest ih => rw [joinTexts, printNodes_consText, ih, printNodes, Node.print]
  | comment content rest ih | declaration content rest ih =>
    rw [joinTexts, printNodes, ih, printNodes]
  | element tag children rest ihChildren ihRest =>
    rw [joinTexts, printNodes, ihRest, printNodes, Node.print, Node.print, ihChildren]

end EmailMarkup.Html
