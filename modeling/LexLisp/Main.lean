import LexLisp.Command.Execution

/-!
# The program

Reads the command line, the files that it names and the standard input, and
leaves the rest to `Command.carryOut` or, line by line, to `Repl.respond`.
-/

namespace LexLisp

namespace Program

/-- Write a text to a stream. -/
def put (stream : IO.FS.Stream) (t : Text) : IO Unit := do
  stream.write ⟨t.toBytes.toArray⟩
  stream.flush

/-- Read one file. -/
def readFile (name : Text) : IO (Except Command.FileError Text) := do
  let some path := name.toString? | return .error .notFound
  try
    let bytes ← IO.FS.readBinFile path
    return .ok (.ofBytes bytes.toList)
  catch
    | .inappropriateType _ 21 _ => return .error .isDirectory
    | .inappropriateType _ _ _ => return .error .notDirectory
    | .invalidArgument _ _ _ => return .error .nameTooLong
    | _ => return .error .notFound

/-- Read the files that a program is made of. -/
def readFiles (o : Command.Options) : IO Command.Files := do
  let mut table : List (Text × Except Command.FileError Text) := []
  if o.task = .run ∧ !o.expression then
    for name in o.args do
      table := (name, ← readFile name) :: table
  let found := table
  return fun name => (found.lookup name).getD (.error .notFound)

/-- Write a result, and give its status. -/
def report (r : Command.Result) : IO UInt32 := do
  put (← IO.getStdout) r.output
  put (← IO.getStderr) r.errorOutput
  return r.status.toUInt32

/-- Answer the lines of the standard input one by one. -/
partial def converse (threshold : Log.Level) (e : EnvId) (p : Repl.Progress) : IO UInt32 := do
  let line ← (← IO.getStdin).getLine
  let event : Repl.Event := if line.isEmpty then .endOfInput else .line line
  match Repl.respond Config.plenty e event { p with sink := .empty none, calls := #[] } with
  | none => return 1
  | some (p, verdict) =>
    put (← IO.getStderr) (Log.calls threshold p.calls)
    put (← IO.getStdout) p.sink.written
    match verdict with
    | .goOn => converse threshold e p
    | .stop _ =>
      put (← IO.getStderr) (("done" : Text) ++ newline)
      return 0

/-- Do what the options ask for. -/
def obey (o : Command.Options) : IO UInt32 := do
  match o.check, o.task with
  | .ok threshold, .loop _ =>
    let start := Interpreter.empty
    converse threshold start.nextEnv (Repl.start (start.newUser []).2 none)
  | _, _ =>
    match Command.carryOut Config.plenty (← readFiles o) [] o with
    | some r => report r
    | none => return 1

end Program

end LexLisp

/-- The command line program. -/
def main (args : List String) : IO UInt32 := do
  match LexLisp.Command.Options.ofWords (args.map LexLisp.Text.ofString) with
  | .ok o => LexLisp.Program.obey o
  | .error e => LexLisp.Program.report (LexLisp.Command.reject e)
