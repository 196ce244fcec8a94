import YulAbi.Command.Arguments

/-!
# The program

Reads the files that a command needs, runs it and prints or writes its text. A
failure prints its chain of messages.
-/

namespace YulAbi.Program

/-- The text of a file, if it can be read. -/
def readInput (path : String) : IO (Option String) := do
  try
    return some (← IO.FS.readFile path)
  catch _ =>
    return none

/-- The texts of those files that can be read, with their paths. -/
def readInputs : List String → IO (List (String × String))
  | [] => return []
  | path :: rest => do
    let others ← readInputs rest
    match ← readInput path with
    | some text => return (path, text) :: others
    | none => return others

/-- Prints a text, or writes it to a file. -/
def writeOutput (output : Option String) (text : String) : IO Unit :=
  match output with
  | some path => IO.FS.writeFile path text
  | none => IO.print text

/-- Runs what the command line asks for and answers with the exit code. -/
def run (arguments : List String) : IO UInt32 := do
  match Invocation.ofArguments? arguments with
  | none =>
    IO.eprint Invocation.usage
    return 2
  | some invocation =>
    let texts ← readInputs invocation.inputs
    match invocation.command.run (fun path => texts.lookup path) invocation.settings with
    | .ok text =>
      writeOutput invocation.output text
      return 0
    | .error cause =>
      IO.eprintln ("Error: " ++ "\n  caused by: ".intercalate cause.chain)
      return 1

end YulAbi.Program

/-- The entry point of the program. -/
def main (arguments : List String) : IO UInt32 := YulAbi.Program.run arguments
