import EmailMarkup.Body.Element
import EmailMarkup.Outlook.Conditional

/-!
# Fragments of HTML

What components draw: tags, pieces of finished HTML, and pieces that only Outlook sees. Tags need
not be in pairs within one fragment, since the scaffolding for Outlook is opened in one conditional
comment and closed in another.
-/

namespace EmailMarkup.Body

/-- A piece of a drawing. -/
inductive Fragment where
  | opening (name : String) (attributes : List (String × Option String))
  | closing (name : String)
  /-- A tag that is its whole element. -/
  | single (name : String) (attributes : List (String × Option String))
  /-- Finished HTML. -/
  | verbatim (html : String)
  /-- Fragments for Outlook only. -/
  | outlook (fragments : List Fragment)
  deriving Repr

mutual

/-- Writes a fragment. -/
def Fragment.print : Fragment → String
  | .opening name attributes => "<" ++ name ++ printAttributes attributes ++ ">"
  | .closing name => "</" ++ name ++ ">"
  | .single name attributes => "<" ++ name ++ printAttributes attributes ++ " />"
  | .verbatim html => html
  | .outlook fragments => Outlook.block (printFragments fragments)

/-- Writes fragments one after the other. -/
def printFragments : List Fragment → String
  | [] => ""
  | f :: rest => f.print ++ printFragments rest

end

namespace Fragment

/-- An element around fragments. -/
def element (name : String) (attributes : List (String × Option String)) (content : List Fragment) :
    List Fragment :=
  .opening name attributes :: content ++ [.closing name]

/-- A tag without attributes. -/
def bare (name : String) : Fragment :=
  .opening name []

/-- A table with one cell around fragments. -/
def table (attributes cell : List (String × Option String)) (content : List Fragment) :
    List Fragment :=
  element "table" attributes (element "tbody" [] (element "tr" [] (element "td" cell content)))

end Fragment

/-- A child that has been drawn, as its parent sees it: a container draws its children into cells of
its own, and all that it needs to know of a child is its element, its styles and what it looks like.
-/
structure Child where
  element : Element
  slots : Slots
  fragments : List Fragment
  deriving Repr

end EmailMarkup.Body
