import EmailMarkup.Options

/-!
# What the head says

The head of a document is read before its body, and gathers what the body is compiled with. For each
entry the last word counts.
-/

namespace EmailMarkup

/-- Attributes under the names of tags, classes or selectors. -/
abbrev AttributeTable := OrderedMap Markup.Attributes

/-- Sets attributes of one entry of a table; its other attributes stay. -/
def AttributeTable.extend (t : AttributeTable) (key : String) (attributes : Markup.Attributes) :
    AttributeTable :=
  -- Later entries of one key add to the earlier ones, attribute by attribute.
  t.insert key (((t.get? key).getD ∅).insertAll attributes.entries)

/-- What is known about a document after its head. -/
structure HeadState where
  title : String := ""
  preview : String := ""
  /-- The width below which columns are stacked. -/
  breakpoint : String := "480px"
  fonts : OrderedMap String
  /-- Attributes for all elements of a tag; those of `mj-all` are for all elements. -/
  tagAttributes : AttributeTable := ∅
  /-- Attributes for the elements of a class. -/
  classes : AttributeTable := ∅
  /-- Attributes for the elements of a class, by their tags. -/
  classTags : OrderedMap AttributeTable := ∅
  styles : List String := []
  /-- Style sheets to be worked into the elements. -/
  inlineStyles : List String := []
  /-- Attributes for elements of the compiled body, by selector lists. -/
  htmlAttributes : AttributeTable := ∅
  /-- Markup for the head of the compiled document. -/
  raw : List String := []
  lang : String
  dir : String
  deriving Repr

namespace HeadState

/-- What is known before the head is read. -/
def initial (o : Options) : HeadState :=
  { fonts := o.fontTable, lang := o.lang, dir := o.dir }

/-- Sets attributes for a tag. -/
def addTagAttributes (s : HeadState) (tag : String) (attributes : Markup.Attributes) : HeadState :=
  { s with tagAttributes := s.tagAttributes.extend tag attributes }

/-- Sets attributes for a class. -/
def addClass (s : HeadState) (name : String) (attributes : Markup.Attributes) : HeadState :=
  { s with classes := s.classes.extend name attributes }

/-- Sets attributes for a tag in a class. -/
def addClassTag (s : HeadState) (name tag : String) (attributes : Markup.Attributes) : HeadState :=
  { s with classTags :=
      s.classTags.insert name (((s.classTags.get? name).getD ∅).extend tag attributes) }

/-- Sets attributes for elements of the compiled body. -/
def addHtmlAttributes (s : HeadState) (path : String) (attributes : Markup.Attributes) :
    HeadState :=
  { s with htmlAttributes := s.htmlAttributes.extend path attributes }

end HeadState

end EmailMarkup
