import EmailMarkup.Diagnostic
import EmailMarkup.Failure
import EmailMarkup.Head.State
import EmailMarkup.Schema.Basic

/-!
# Resolving attributes

The attributes of an element come from many sides. From the weakest to the strongest these are the
defaults of its component, what the head sets for all elements, for its tag, for its classes, and
for its tag in its classes, and what is written on the element itself.

A value from the head that is not of the right type is reported and dropped, and a name that the
component does not declare passes. On the element itself a name that is not declared is reported and
dropped, and a value of the wrong type ends the compilation, unless the level of checking is lower.
-/

namespace EmailMarkup.Schema

open EmailMarkup.Markup EmailMarkup.Text

/-- Attributes found so far, what there is to report, and what ended the search. -/
structure Resolution where
  attributes : Attributes
  reports : List Diagnostic
  failure? : Option Failure := none
  deriving Repr

/-- Sets an attribute. -/
def Resolution.set (r : Resolution) (name value : String) : Resolution :=
  { r with attributes := r.attributes.insert name value }

/-- Adds a report. -/
def Resolution.report (r : Resolution) (d : Diagnostic) : Resolution :=
  { r with reports := r.reports ++ [d] }

/-- The attributes and the reports, unless there is a failure. -/
def Resolution.result (r : Resolution) : Except Failure (Attributes × List Diagnostic) :=
  match r.failure? with
  | some failure => .error failure
  | none => .ok (r.attributes, r.reports)

/-- Takes over a value from the head, where it stands under `source`. -/
def inherit (s : Schema) (level : Level) (source : String) (r : Resolution)
    (entry : String × String) : Resolution :=
  if level = .skip then r.set entry.1 entry.2
  else match s.check entry.1 entry.2 with
    | .invalid expected =>
      r.report (.invalidInherited s.tag source entry.1 entry.2 expected)
    -- What is set for many elements may be meant for others, so an unknown name is no fault.
    | _ => r.set entry.1 entry.2

/-- Takes over all values of an entry of the head. -/
def inheritAll (s : Schema) (level : Level) (source : String) (r : Resolution)
    (attributes : Option Attributes) : Resolution :=
  match attributes with
  | some attributes => attributes.entries.foldl (s.inherit level source) r
  | none => r

/-- The classes that an element belongs to. -/
def classesOf (n : Node) : List String :=
  match n.attribute? "mj-class" with
  | some list => words list
  | none => []

/-- Takes over the values for a class, all but that of `css-class`. -/
def inheritClass (s : Schema) (level : Level) (head : HeadState) (r : Resolution)
    (name : String) : Resolution :=
  s.inheritAll level name r ((head.classes.get? name).map fun a => a.erase "css-class")

/-- Takes over the values for the tag in a class. -/
def inheritClassTag (s : Schema) (level : Level) (head : HeadState) (r : Resolution)
    (name : String) : Resolution :=
  s.inheritAll level name r ((head.classTags.get? name).bind fun table => table.get? s.tag)

/-- The values of `css-class` that classes set. -/
def cssClasses (head : HeadState) (classes : List String) : List String :=
  classes.filterMap fun name => (head.classes.get? name).bind fun a => a.get? "css-class"

/-- Takes over everything from the head. An element belongs to the style classes of all its
classes. -/
def inheritHead (s : Schema) (level : Level) (head : HeadState) (n : Node) (r : Resolution) :
    Resolution :=
  let classes := classesOf n
  let r := s.inheritAll level "mj-all" r (head.tagAttributes.get? "mj-all")
  let r := s.inheritAll level "mj-attributes" r (head.tagAttributes.get? s.tag)
  let r := classes.foldl (s.inheritClass level head) r
  let r := classes.foldl (s.inheritClassTag level head) r
  let css := cssClasses head classes
  -- The classes replace what was inherited before; they do not add to it.
  if css.isEmpty then r else r.set "css-class" (" ".intercalate css)

/-- Takes over the values on the element itself, up to one that ends the compilation. -/
def takeOwn (s : Schema) (level : Level) (line : Nat) (r : Resolution) :
    List (String × String) → Resolution
  | [] => r
  | (name, value) :: rest =>
    -- The classes have done their work, and are not passed on.
    if name = "mj-class" then s.takeOwn level line r rest
    else if level = .skip then s.takeOwn level line (r.set name value) rest
    else match s.check name value with
      | .valid => s.takeOwn level line (r.set name value) rest
      | .undeclared => s.takeOwn level line (r.report (.undeclared s.tag name line)) rest
      | .invalid expected =>
        if level = .strict then
          { r with failure? := some (.invalidValue s.tag name value expected) }
        else s.takeOwn level line
          ((r.report (.invalidValue s.tag name value expected)).set name value) rest

/-- Finds the attributes of an element. Elements of the head do not inherit from it. -/
def resolve (s : Schema) (level : Level) (head? : Option HeadState) (n : Node) : Resolution :=
  let r : Resolution := { attributes := s.defaults, reports := [] }
  let r := match head? with
    | some head => s.inheritHead level head n r
    | none => r
  s.takeOwn level n.line r n.attributes.entries

end EmailMarkup.Schema
