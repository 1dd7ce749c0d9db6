import EmailMarkup.Command.Files
import EmailMarkup.Markup.Dump
import EmailMarkup.Page.Compile

/-!
# The command

Compiles the files that are named on a command line, with options from a file, and writes the
documents to files or to the standard output. Files that fail are reported, and the others are
compiled all the same, unless reading breaks off, which ends the command.
-/

namespace EmailMarkup.Command

open EmailMarkup.Component EmailMarkup.Markup EmailMarkup.Page

/-- What a command line asks for. -/
structure Request where
  files : List String := []
  config? : Option String := none
  output? : Option String := none
  /-- Files are only checked. -/
  validate : Bool := false
  /-- Trees are written instead of documents. -/
  dumpTree : Bool := false
  deriving Repr

namespace Request

/-- Sets what an option with a value is for. No option may come twice, and no value is empty. -/
def set? (r : Request) (name value : String) : Option Request :=
  if value.isEmpty then none
  else if name = "config" then
    if r.config?.isSome then none else some { r with config? := some value }
  else if r.output?.isSome then none
  else some { r with output? := some value }

/-- Adds files, none of which may have an empty name. -/
def addFiles? (r : Request) (files : List String) : Option Request :=
  if files.any String.isEmpty then none else some { r with files := r.files ++ files }

/-- The request at the end of its arguments: it needs a file, and does one thing only. -/
def finish? (r : Request) : Option Request :=
  if r.files.isEmpty || (r.validate && r.dumpTree) then none else some r

/-- Whether an argument looks like an option. A hyphen alone does not. -/
def looksLikeOption (argument : String) : Bool :=
  argument.toList.head? == some '-' && argument != "-"

/-- The option that an argument names, if it takes a value, and the value if the argument has it. -/
def valued? (argument : String) : Option (String × Option String) :=
  let value (cs : List Char) : Option String :=
    match cs with
    | [] => none
    | '=' :: rest => some (String.ofList rest)
    | _ => some (String.ofList cs)
  let long (name : String) : Option (String × Option String) :=
    match Text.after? ("--" ++ name).toList argument.toList with
    | some [] => some (name, none)
    | some ('=' :: rest) => some (name, some (String.ofList rest))
    | _ => none
  match argument.toList with
  | '-' :: 'c' :: rest => some ("config", value rest)
  | '-' :: 'o' :: rest => some ("output", value rest)
  | _ => (long "config").or (long "output")

/-- Reads arguments from left to right. After two hyphens, all are files. -/
def ofArguments? (r : Request) : List String → Option Request
  | [] => r.finish?
  | "--" :: files => (r.addFiles? files).bind finish?
  | "--validate" :: rest =>
    if r.validate then none else ofArguments? { r with validate := true } rest
  | "--dump-tree" :: rest =>
    if r.dumpTree then none else ofArguments? { r with dumpTree := true } rest
  | argument :: rest =>
    match valued? argument with
    | some (name, some value) => (r.set? name value).bind fun r => r.ofArguments? rest
    | some (name, none) =>
      match rest with
      | [] => none
      | value :: rest =>
        -- What looks like an option is not taken for the value of another one.
        if looksLikeOption value then none
        else (r.set? name value).bind fun r => r.ofArguments? rest
    | none =>
      if looksLikeOption argument then none
      else (r.addFiles? [argument]).bind fun r => r.ofArguments? rest

end Request

/-- Why a file was not compiled. -/
inductive Trouble where
  | failure (cause : Failure)
  | unreadable (fault : PathFault)
  | unreadableConfig (path : String) (fault : PathFault)
  | badConfig
  | unwritable (path : String) (fault : PathFault)
  deriving Repr

/-- The lines that tell of a trouble. -/
def Trouble.lines : Trouble → List String
  | .failure (.malformed position fault) =>
    ["  Parse error at " ++ position.text ++ ":", "    " ++ fault.message]
  | .failure (.unknownTag tag position) => ["  Unknown tag <" ++ tag ++ "> at " ++ position.text]
  | .failure (.invalidValue tag name value expected) =>
    ["  Invalid value '" ++ value ++ "' for attribute '" ++ name ++ "' on <" ++ tag ++ ">:",
      "    Expected " ++ expected.text]
  | .failure .brokenCharacter => ["  " ++ Failure.message .brokenCharacter]
  | .unreadable fault => ["  Failed to read file: " ++ fault.message]
  | .unreadableConfig path fault => ["  Failed to read '" ++ path ++ "': " ++ fault.message]
  | .badConfig => ["  invalid options"]
  | .unwritable path fault => ["  Failed to write '" ++ path ++ "': " ++ fault.message]

/-- What a command has done so far. -/
structure Outcome where
  files : Files
  /-- The paths of files that were written. -/
  written : List String := []
  out : String := ""
  err : String := ""
  exit : Nat := 0
  /-- The command has ended before its last file. -/
  broken : Bool := false
  deriving Repr

namespace Outcome

/-- Writes to the standard output. -/
def print (o : Outcome) (text : String) : Outcome :=
  { o with out := o.out ++ text }

/-- Writes lines to the standard error. -/
def complain (o : Outcome) (lines : List String) : Outcome :=
  { o with err := o.err ++ String.join (lines.map (· ++ "\n")) }

/-- Tells of a trouble with a file. -/
def trouble (o : Outcome) (path : String) (t : Trouble) : Outcome :=
  { o.complain (("✗ " ++ path ++ " has errors:") :: t.lines) with exit := 1 }

/-- Tells of a file that failed. If reading broke off, the command ends without a word. -/
def fail (o : Outcome) (path : String) (cause : Failure) : Outcome :=
  if cause = .brokenCharacter then { o with exit := 101, broken := true }
  else o.trouble path (.failure cause)

end Outcome

/-- Where the document for a file goes: into a directory if there are several files or the target is
one. -/
def target (r : Request) (files : Files) (output path : String) : String :=
  if r.files.length > 1 || files.isDirectory output then destination output path else output

/-- Delivers the document of a file. -/
def deliver (r : Request) (o : Outcome) (path html : String) : Outcome :=
  if r.validate then o.print ("✓ " ++ path ++ " is valid\n")
  else match r.output? with
    | none => o.print (html ++ "\n")
    | some output =>
      let destination := target r o.files output path
      match o.files.write destination html with
      | .ok files =>
        { o with files, written := o.written ++ [destination] }.print
          ("✓ " ++ path ++ " -> " ++ destination ++ "\n")
      | .error fault => o.trouble path (.unwritable destination fault)

/-- Compiles one file. -/
def compileFile (r : Request) (options : Options) (o : Outcome) (path : String) : Outcome :=
  match o.files.read path with
  | .error fault => o.trouble path (.unreadable fault)
  | .ok markup =>
    if r.dumpTree then
      match Node.read .core options.keepComments markup with
      | .ok root => o.print root.dump
      | .error cause => o.fail path cause
    else match compile .core options markup with
      | .ok compiled =>
        -- Reports go out before the document, and do not make the command fail.
        let o := o.complain (compiled.reports.map fun d => "  ! " ++ path ++ ": " ++ d.text)
        deliver r o path compiled.html
      | .error cause => o.fail path cause

/-- The options of a request. -/
def optionsOf (r : Request) (files : Files) : Except (String × Trouble) Options :=
  match r.config? with
  | none => .ok {}
  | some path =>
    match files.read path with
    | .error fault => .error (path, .unreadableConfig path fault)
    | .ok text =>
      match Options.ofYaml? text with
      | some options => .ok options
      | none => .error (path, .badConfig)

/-- Does what a command line asks for. -/
def run (r : Request) (files : Files) : Outcome :=
  match optionsOf r files with
  -- Without its options nothing is compiled at all.
  | .error (path, t) =>
    { ({ files } : Outcome).complain (("✗ " ++ path) :: t.lines) with exit := 2 }
  | .ok options =>
    r.files.foldl (fun o path => if o.broken then o else compileFile r options o path) { files }

end EmailMarkup.Command
