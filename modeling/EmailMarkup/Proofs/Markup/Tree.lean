import EmailMarkup.Markup.Node

/-!
# The elements of a tree

`Node.nodes` lists the elements of a tree in document order. What is said of every element of a
document is said of the members of this list.
-/

set_option autoImplicit false

namespace EmailMarkup.Markup

mutual

/-- All elements of a tree, in document order. -/
def Node.nodes : Node → List Node
  | .element tag attributes children content position =>
    .element tag attributes children content position :: nodesAmong children

/-- All elements of trees side by side. -/
def nodesAmong : List Node → List Node
  | [] => []
  | n :: rest => n.nodes ++ nodesAmong rest

end

/-- The elements of trees side by side are those of each of them. -/
theorem mem_nodesAmong_iff {m : Node} {nodes : List Node} :
    m ∈ nodesAmong nodes ↔ ∃ n ∈ nodes, m ∈ n.nodes := by
  induction nodes with
  | nil => simp [nodesAmong]
  | cons n rest ih => simp [nodesAmong, ih]

end EmailMarkup.Markup
