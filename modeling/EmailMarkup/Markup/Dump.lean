import EmailMarkup.Yaml.Writer

/-!
# Trees as YAML

A tree in a form that is easy to read: tags, attributes, children, contents and positions. What is
empty is left out.
-/

namespace EmailMarkup.Markup

open EmailMarkup.Yaml (Data)

/-- Attributes as data. -/
def attributeData (attributes : Attributes) : Data :=
  .mapping (attributes.entries.map fun (name, value) => (name, .text value))

mutual

/-- An element as a mapping. -/
def Node.data : Node → List (String × Data)
  | .element tag attributes children content position =>
    ("tag_name", .text tag) ::
      (if attributes.isEmpty then [] else [("attributes", attributeData attributes)]) ++
      (if children.isEmpty then [] else [("children", .sequence (childrenData children))]) ++
      (if content.isEmpty then [] else [("content", .text content)]) ++
      [("line", .natural position.line), ("column", .natural position.column)]

/-- Elements as mappings. -/
def childrenData : List Node → List Data
  | [] => []
  | n :: rest => .mapping n.data :: childrenData rest

end

/-- Writes a tree. -/
def Node.dump (n : Node) : String :=
  Yaml.writeMapping n.data

end EmailMarkup.Markup
