import EmailMarkup.Options
import EmailMarkup.Yaml.Node

/-!
# Options in YAML

An options file is a mapping from the names of options to their values. Options that are not named
keep their defaults, and names that are not options are passed over. A scalar is read as the type
that the option has: where a text is wanted, `1` and `null` are texts.
-/

namespace EmailMarkup

namespace Yaml

/-- Whether a plain text says that there is no value. -/
def isNullWord (s : String) : Bool :=
  s == "null" || s == "Null" || s == "NULL" || s == "~"

/-- The truth value that a plain text stands for. -/
def boolOfText? (s : String) : Option Bool :=
  if s == "true" || s == "True" || s == "TRUE" then some true
  else if s == "false" || s == "False" || s == "FALSE" then some false
  else none

namespace Document

/-- The text of a scalar. -/
def text? (d : Document) (n : Node) : Option String :=
  match d.follow n with
  | .scalar _ _ text => some text
  | _ => none

/-- The truth value of a plain scalar, or of a literal one whose tag asks for it. -/
def bool? (d : Document) (n : Node) : Option Bool :=
  match d.follow n with
  | .scalar _ .plain text => boolOfText? text
  | .scalar p .literal text => if p.tag? = some .bool then boolOfText? text else none
  | _ => none

/-- The word for one of several cases: the text of a scalar, or the local tag of one that says that
there is no value. -/
def word? (d : Document) (n : Node) : Option String :=
  match d.follow n with
  | .scalar p style text =>
    match p.tag?.bind Tag.localName? with
    | none => some text
    | some name =>
      if style = .plain ∧ (text.isEmpty || isNullWord text) then
        some (if name.isEmpty then "!" else name)
      else none
  | _ => none

/-- Whether a node is a plain scalar without a text, which makes an empty collection. -/
def isBare (d : Document) (n : Node) : Bool :=
  match d.follow n with
  | .scalar _ .plain text => text.isEmpty
  | _ => false

/-- The items of a sequence. -/
def items? (d : Document) (n : Node) : Option (List Node) :=
  match d.follow n with
  | .sequence _ items => some items
  | _ => if d.isBare n then some [] else none

/-- The entries of a mapping. -/
def entries? (d : Document) (n : Node) : Option (List (Node × Node)) :=
  match d.follow n with
  | .mapping _ entries => some entries
  | _ => if d.isBare n then some [] else none

/-- The texts of a sequence. -/
def texts? (d : Document) (n : Node) : Option (List String) := do
  (← d.items? n).mapM d.text?

/-- The texts of a mapping under the texts of its keys. -/
def textMap? (d : Document) (n : Node) : Option (OrderedMap String) := do
  let pairs ← (← d.entries? n).mapM fun (k, v) => do return (← d.text? k, ← d.text? v)
  return .ofList pairs

/-- Whether a node has a value, for an option that may have none. A node that claims to have none by
its tag has to say so in its text, too. -/
def isPresent? (d : Document) (n : Node) : Option Bool :=
  match d.follow n with
  | .scalar p .plain text =>
    match p.tag? with
    | none => some (!(text.isEmpty || isNullWord text))
    | some tag =>
      if tag ≠ .null then some true else if isNullWord text then some false else none
  | _ => some true

end Document

end Yaml

namespace Options

open EmailMarkup.Yaml

/-- The profile that a node names, or none if it says so. -/
def profile? (d : Document) (n : Node) : Option (Option Sanitize.Profile) := do
  if ← d.isPresent? n then
    let name ← d.word? n
    return some (← Sanitize.Profile.ofName? name)
  else return none

/-- Sets the option of a name. A name that is not an option changes nothing. -/
def set? (o : Options) (d : Document) (name : String) (value : Node) : Option Options :=
  match name with
  | "keep-comments" => (d.bool? value).map fun b => { o with keepComments := b }
  | "validation-level" =>
    ((d.word? value).bind Level.ofName?).map fun level => { o with level }
  | "fonts" => (d.textMap? value).map fun fonts => { o with fonts }
  | "lang" => (d.text? value).map fun lang => { o with lang }
  | "dir" => (d.text? value).map fun dir => { o with dir }
  | "allowed-url-schemes" => (d.texts? value).map fun urlSchemes => { o with urlSchemes }
  | "sanitize" => (profile? d value).map fun sanitize => { o with sanitize }
  | "minify-outlook" => (d.bool? value).map fun b => { o with minifyOutlook := b }
  | "force-owa-desktop" => (d.bool? value).map fun b => { o with forceOwaDesktop := b }
  | _ => some o

/-- The names of all options. -/
def names : List String :=
  ["keep-comments", "validation-level", "fonts", "lang", "dir", "allowed-url-schemes", "sanitize",
    "minify-outlook", "force-owa-desktop"]

/-- Sets options from left to right. No option may be named twice, counting those in `seen`. -/
def setAll? (o : Options) (d : Document) (seen : List String) :
    List (Node × Node) → Option Options
  | [] => some o
  | (key, value) :: rest => do
    let name ← d.text? key
    if seen.contains name then failure
    -- A name that is not an option may come as often as it likes.
    let seen := if names.contains name then name :: seen else seen
    (← o.set? d name value).setAll? d seen rest

/-- The options in a document. One in which nothing is written leaves all defaults. -/
def ofDocument? (d : Document) : Option Options := do
  setAll? {} d [] (← d.entries? d.root)

/-- Reads an options file. A file without anything but blanks and comments leaves all defaults. The
result is `none` if the file is not well written or gives an option a value that it cannot have. -/
def ofYaml? (text : String) : Option Options :=
  if Text.allBlank text then some {}
  else do
    match ← Document.read? text with
    | none => some {}
    | some document => ofDocument? document

end Options

end EmailMarkup
