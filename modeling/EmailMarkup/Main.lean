import EmailMarkup.Command.Run

/-!
# The command line

Reads the files that a command line names, runs the command on them, and writes what it has written.
-/

namespace EmailMarkup.Command

/-- The text of a file, if it can be read. -/
def load? (path : String) : IO (Option String) := do
  try
    return some (← IO.FS.readFile path)
  catch _ => return none

/-- Whether a path leads to a directory. -/
def leadsToDirectory (path : String) : IO Bool := do
  try
    -- Only a directory has itself as an entry.
    let _ ← IO.FS.Handle.mk (path ++ "/.") .read
    return true
  catch _ => return false

/-- The places that a path passes through, and where it ends. -/
def waysOf (path : String) : List String :=
  let parts := pieces path
  -- A path that begins with a slash has nothing before it.
  (List.range parts.length).map (fun n => "/".intercalate (parts.take (n + 1))) |>.filter
    (!·.isEmpty)

/-- The files and directories that a request is about. -/
def gather (r : Request) : IO Files := do
  let sources := r.config?.toList ++ r.files
  let texts ← sources.filterMapM fun path => do
    return (← load? path).map fun text => (path, text)
  let places := (sources ++ r.output?.toList).flatMap waysOf
  return .ofPaths texts (← places.filterM leadsToDirectory)

/-- Writes a file. -/
def store (files : Files) (path : String) : IO Unit :=
  match files.read path with
  | .ok text => IO.FS.writeFile path text
  | .error _ => return ()

end EmailMarkup.Command

/-- Compiles the files that the arguments name. -/
def main (args : List String) : IO UInt32 := do
  match EmailMarkup.Command.Request.ofArguments? {} args with
  | none =>
    IO.eprintln "Usage: mjml-compile [OPTIONS] <FILES>..."
    return 2
  | some request =>
    let outcome := EmailMarkup.Command.run request (← EmailMarkup.Command.gather request)
    -- Everything has been decided by now; what is left is to carry it out.
    for path in outcome.written do
      EmailMarkup.Command.store outcome.files path
    IO.print outcome.out
    IO.eprint outcome.err
    return outcome.exit.toUInt32
