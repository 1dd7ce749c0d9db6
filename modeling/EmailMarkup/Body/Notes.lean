import EmailMarkup.Component.Spec
import EmailMarkup.Diagnostic

/-!
# What drawing leaves besides HTML

The head of the compiled document needs to know about its body: which column widths occur, which
components have a style sheet of their own, what colour the background has. All of it is noted in
the order in which it comes up.
-/

namespace EmailMarkup.Body

open EmailMarkup.Component

/-- Notes on what was drawn. -/
structure Notes where
  reports : List Diagnostic := []
  /-- The classes of columns with their widths as texts. -/
  columns : List (String × String) := []
  /-- The tags that were used, with what they draw, as far as that has a style sheet of its own. -/
  sheets : List (String × BodyKind) := []
  /-- The background colours of bodies. -/
  backgrounds : List (Option String) := []
  deriving Repr

namespace Notes

/-- Notes one after the other. -/
def append (a b : Notes) : Notes :=
  { reports := a.reports ++ b.reports
    columns := a.columns ++ b.columns
    sheets := a.sheets ++ b.sheets
    backgrounds := a.backgrounds ++ b.backgrounds }

instance : Append Notes := ⟨append⟩

/-- Notes of several drawings. -/
def join (notes : List Notes) : Notes :=
  notes.foldr append {}

/-- What a style sheet says for a column of a width. -/
def mediaQuery (width : String) : String :=
  "\x7b width:" ++ width ++ " !important; max-width: " ++ width ++ "; \x7d"

/-- The media queries by the classes of columns. -/
def mediaQueries (n : Notes) : OrderedMap String :=
  -- Columns of one width share a class, and a class is listed where it first came up.
  .ofList (n.columns.map fun (name, width) => (name, mediaQuery width))

/-- The background colour that counts: that of the last body. -/
def background? (n : Notes) : Option String :=
  n.backgrounds.getLast?.join

end Notes

end EmailMarkup.Body
