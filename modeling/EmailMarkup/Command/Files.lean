import EmailMarkup.OrderedMap
import EmailMarkup.Text.Blank

/-!
# Files by their paths

Files and directories as a command sees them: texts under paths. Two paths are the same if they lead
through the same names. A path leads somewhere only if all that it passes through is a directory,
also where two dots lead back out of it at once.

There are no links in this tree: a name stands for one file or one directory, so two dots always
lead back to the directory that the path has just come from, and no two routes lead to one file.
-/

namespace EmailMarkup.Command

open EmailMarkup.Text

/-- Why there is no way to a file. -/
inductive PathFault where
  | missing
  | notDirectory
  | isDirectory
  | tooLong
  deriving DecidableEq, Repr

/-- What the system says of a path that leads to no file. -/
def PathFault.message : PathFault → String
  | .missing => "No such file or directory (os error 2)"
  | .notDirectory => "Not a directory (os error 20)"
  | .isDirectory => "Is a directory (os error 21)"
  | .tooLong => "File name too long (os error 36)"

/-- The longest name, in bytes. -/
def longestName : Nat := 255

/-- The longest path, in bytes. -/
def longestPath : Nat := 4095

/-- The pieces of a path between its slashes. -/
def pieces (path : String) : List String :=
  (splitWhere (· == '/') path.toList).map String.ofList

/-- Goes on from a place by a piece of a path. A dot leads nowhere, and two dots lead back to where
the last name came from. -/
def follow (names : List String) (piece : String) : List String :=
  if piece.isEmpty || piece = "." then names
  else if piece = ".." then
    match names.getLast? with
    | none | some ".." => names ++ [".."]
    -- Above the root there is only the root.
    | some "/" => names
    | some _ => names.dropLast
  else names ++ [piece]

/-- Where a path begins: at the root, if its first character is a slash. -/
def origin (path : String) : List String :=
  if path.toList.head? == some '/' then ["/"] else []

/-- The names that a path leads through. -/
def route (path : String) : List String :=
  (pieces path).foldl follow (origin path)

/-- A path that leads through names. -/
def ofRoute (names : List String) : String :=
  "/".intercalate names

/-- Files with their texts, and directories, by their routes. -/
structure Files where
  texts : OrderedMap String
  directories : List (List String)
  deriving Repr

namespace Files

/-- Files and directories under their paths. A file is in a directory. -/
def ofPaths (texts : List (String × String)) (directories : List String) : Files :=
  { texts := .ofList (texts.map fun (path, text) => (ofRoute (route path), text))
    directories := directories.map route ++ texts.map fun (path, _) => (route path).dropLast }

/-- Whether a route leads to a directory, or through one. The directories around the present one
are not known by name, but they are there. -/
def hasDirectory (f : Files) (names : List String) : Bool :=
  names.all (fun name => name = ".." || name = "/") ||
    f.directories.any fun d => names.isPrefixOf d

/-- Whether a route leads to a file. -/
def hasFile (f : Files) (names : List String) : Bool :=
  (f.texts.get? (ofRoute names)).isSome

/-- Whether nothing can be where a route leads to, as its last name is too long. -/
def endsTooLong (names : List String) : Bool :=
  names.getLast?.any fun name => longestName < name.utf8ByteSize

/-- Goes on from a place by a piece of a path. One can go on from directories only. -/
def step (f : Files) (names : List String) (piece : String) : Except PathFault (List String) :=
  if f.hasDirectory names then .ok (follow names piece)
  else if endsTooLong names then .error .tooLong
  else .error (if f.hasFile names then .notDirectory else .missing)

/-- The route to what a path leads to, which need not be there itself. -/
def locate (f : Files) (path : String) : Except PathFault (List String) :=
  if path.isEmpty then .error .missing
  else if longestPath < path.utf8ByteSize then .error .tooLong
  else (pieces path).foldlM f.step (origin path)

/-- Whether a path leads to a directory. -/
def isDirectory (f : Files) (path : String) : Bool :=
  match f.locate path with
  | .ok names => f.hasDirectory names
  | .error _ => false

/-- The text of a file. -/
def read (f : Files) (path : String) : Except PathFault String := do
  let names ← f.locate path
  if f.hasDirectory names then throw .isDirectory
  if endsTooLong names then throw .tooLong
  match f.texts.get? (ofRoute names) with
  | some text => return text
  | none => throw .missing

/-- Writes a file. A path with a slash at its end can only be that of a directory, whether there is
one or not. -/
def write (f : Files) (path text : String) : Except PathFault Files := do
  let bare := String.ofList (path.toList.reverse.dropWhile (· == '/')).reverse
  let names ← f.locate bare
  if bare ≠ path || f.hasDirectory names then throw .isDirectory
  if endsTooLong names then throw .tooLong
  return { f with texts := f.texts.insert (ofRoute names) text }

end Files

/-! ### Names of outputs -/

/-- The last name of a path. -/
def lastName? (path : String) : Option String :=
  match (pieces path).reverse.dropWhile (fun name => name.isEmpty || name = ".") with
  | name :: _ => if name = ".." then none else some name
  | [] => none

/-- A name without its last extension. A dot at its start begins none. -/
def stem (name : String) : String :=
  let cs := name.toList
  match (cs.reverse.dropWhile (· != '.')).drop 1 with
  -- There is no dot, or only the one that the name begins with.
  | [] => name
  | before => String.ofList before.reverse

/-- A name up to and with the dot before its last extension. -/
def beforeExtension (name : String) : String :=
  if stem name = name then name
  else String.ofList (name.toList.reverse.dropWhile (· != '.')).reverse

/-- Whether a name leads to a directory and so cannot be that of a file. -/
def namesPlace (name : String) : Bool :=
  name.isEmpty || name = "." || name = ".."

/-- A name with the extension of documents in place of its own. A name of a place gets none, and the
name `..b` is one of a place as soon as it has lost its extension. -/
def documentName (name : String) : String :=
  let bare := if namesPlace name then name else beforeExtension name
  if namesPlace bare then bare else stem bare ++ ".html"

/-- A path in a directory. -/
def inDirectory (directory name : String) : String :=
  if directory.isEmpty || directory.toList.getLast? == some '/' then directory ++ name
  else directory ++ "/" ++ name

/-- The path of the document for a file, in a directory: the name of the file without its last two
extensions, and the extension of documents. -/
def destination (directory path : String) : String :=
  match lastName? path with
  | some name => inDirectory directory (documentName (stem name))
  | none => inDirectory directory ""

end EmailMarkup.Command
