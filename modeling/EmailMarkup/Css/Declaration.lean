import EmailMarkup.Css.Component
import EmailMarkup.Text.Blank

/-!
# Declarations

A declaration block such as `color: red; margin: 0 !important`. A declaration that makes no sense is
dropped, and reading goes on after its semicolon. The value of a declaration is a slice of the
source: escapes, strings and comments inside it are kept as written.
-/

namespace EmailMarkup.Css

open EmailMarkup.Text

/-- A property with its value. -/
structure Declaration where
  property : String
  value : String
  important : Bool
  deriving DecidableEq, Repr, Inhabited

/-- Whether components begin, after gaps, with the word `important`. -/
def atImportant (cs : List Component) : Bool :=
  match cs.dropWhile Component.isGap with
  | .token t :: _ =>
    match t.kind with
    | .ident name => lower name == "important"
    | _ => false
  | _ => false

/-- The source of a value up to its last token, and whether it is marked as important. `pending` is
the source of the gaps since the last token: it belongs to the value only if another token
follows. Nothing after the mark counts. -/
def readValue (pending : List Char) : List Component → List Char × Bool
  | [] => ([], false)
  | c :: rest =>
    if c.isGap then readValue (pending ++ c.source) rest
    -- The gap before the mark is dropped with it.
    else if c.isKind (.delim '!') && atImportant rest then ([], true)
    else
      let (value, important) := readValue [] rest
      (pending ++ c.source ++ value, important)

/-- The declaration of a property, given the components between its name and its semicolon. It needs
a colon and a value. -/
def declarationOf? (name : String) (cs : List Component) : Option Declaration :=
  match cs.dropWhile Component.isGap with
  | colon :: rest =>
    if colon.isKind .colon then
      let (source, important) := readValue [] rest
      let value := trimChars source
      if value.isEmpty then none
      else some { property := lower name, value := String.ofList value, important }
    else none
  | [] => none

/-- Whether a component ends an at-rule. -/
def endsAtRule (c : Component) : Bool :=
  c.isKind .semicolon || c.isCurly

/-- The declarations among components. At-rules are passed over, and so is anything else that does
not begin with a name, up to the next semicolon. -/
def declarationsOf (cs : List Component) : List Declaration :=
  match cs with
  | [] => []
  | c :: rest =>
    have := length_dropThrough_le (Component.isKind .semicolon) rest
    have := length_dropThrough_le endsAtRule rest
    match c with
    | .token t =>
      match t.kind with
      | .blank => declarationsOf rest
      | .comment => declarationsOf rest
      | .semicolon => declarationsOf rest
      | .closing .curly => declarationsOf rest
      | .atKeyword _ => declarationsOf (dropThrough endsAtRule rest)
      -- Blocks are single components, so a semicolon inside one does not end the declaration.
      | .ident name =>
        (declarationOf? name (rest.takeWhile fun c => !c.isKind .semicolon)).toList ++
          declarationsOf (dropThrough (Component.isKind .semicolon) rest)
      | _ => declarationsOf (dropThrough (Component.isKind .semicolon) rest)
    | .block .. => declarationsOf (dropThrough (Component.isKind .semicolon) rest)
termination_by cs.length
decreasing_by all_goals (simp only [List.length_cons] at *; omega)

/-- Reads a declaration block. -/
def readDeclarations (css : String) : List Declaration :=
  declarationsOf (components css.toList)

/-- A declaration as it is written. -/
def Declaration.print (d : Declaration) : String :=
  d.property ++ ":" ++ d.value ++ (if d.important then " !important;" else ";")

/-- Writes declarations one after the other. -/
def printDeclarations (ds : List Declaration) : String :=
  String.join (ds.map Declaration.print)

end EmailMarkup.Css
