import YulAbi.Command

/-!
# Arguments of the command line

A command is named first or after the options that all commands share. An option has
a long name, mostly a short one too, and takes the argument behind it, unless it is
a switch.
-/

namespace YulAbi

/-- What the command line asks for. -/
structure Invocation where
  /-- The command. -/
  command : Command
  /-- File with settings. -/
  settings : Option String
  /-- File to write to. -/
  output : Option String

namespace Invocation

/-- Options that take an argument, by all their names. -/
def valueOptions : List (String × String) :=
  [("-c", "config"), ("--config", "config"), ("-o", "output"), ("--output", "output"),
   ("-a", "abi"), ("--abi", "abi"), ("-f", "function"), ("--function", "function"),
   ("-t", "types"), ("--types", "types"), ("--type", "type"), ("-s", "source"),
   ("--source", "source"), ("-d", "calldata"), ("--calldata", "calldata")]

/-- Options that take none. -/
def switches : List (String × String) :=
  [("-v", "verbose"), ("--verbose", "verbose"), ("-p", "pretty"), ("--pretty", "pretty")]

/-- The options with their arguments, and the other arguments. -/
structure Collected where
  /-- Options and their arguments. -/
  options : List (String × String)
  /-- Arguments that belong to no option. -/
  others : List String

/-- Sorts arguments into options and others; an option without its argument is refused. -/
def collect? : List String → Option Collected
  | [] => some ⟨[], []⟩
  | [argument] =>
    match switches.lookup argument with
    | some switch => some ⟨[(switch, "")], []⟩
    | none => if (valueOptions.lookup argument).isSome then none else some ⟨[], [argument]⟩
  | argument :: next :: rest =>
    match valueOptions.lookup argument with
    | some option =>
      (collect? rest).map fun collected => ⟨(option, next) :: collected.options, collected.others⟩
    | none =>
      (collect? (next :: rest)).map fun collected =>
        match switches.lookup argument with
        | some switch => ⟨(switch, "") :: collected.options, collected.others⟩
        | none => ⟨collected.options, argument :: collected.others⟩

/-- The source of a name; storage if none is given. -/
def sourceOf? : Option String → Option WordSource
  | none => some .storage
  | some name =>
    [WordSource.storage, .memory, .stack].find? fun source => source.keyword == name

/-- The command of a name with its options. -/
def commandOf? (name : String) (options : List (String × String)) : Option Command := do
  match name with
  | "decode" => return .decode (← options.lookup "abi") (options.lookup "function")
  | "encode" => return .encode (← options.lookup "abi") (options.lookup "function")
  | "pack" =>
    return .pack (← options.lookup "types") (← options.lookup "type")
      (← sourceOf? (options.lookup "source"))
  | "reflect" =>
    return .reflect (← options.lookup "abi") (← options.lookup "function")
      (← options.lookup "calldata") (options.lookup "pretty").isSome
  | _ => none

/-- Reads the arguments of the command line. -/
def ofArguments? (arguments : List String) : Option Invocation := do
  let collected ← collect? arguments
  match collected.others with
  | [name] =>
    let command ← commandOf? name collected.options
    return ⟨command, collected.options.lookup "config", collected.options.lookup "output"⟩
  | _ => none

/-- The files that are read. -/
def inputs (invocation : Invocation) : List String :=
  let main := match invocation.command with
    | .decode abi _ => abi
    | .encode abi _ => abi
    | .pack types _ _ => types
    | .reflect abi _ _ _ => abi
  invocation.settings.toList ++ [main]

/-- How the program is used. -/
def usage : String :=
  "usage: sol-abi [-c FILE] [-o FILE] COMMAND\n" ++
    "  decode  -a FILE [-f NAME]\n" ++
    "  encode  -a FILE [-f NAME]\n" ++
    "  pack    -t FILE --type NAME [-s storage|memory|stack]\n" ++
    "  reflect -a FILE -f NAME -d HEX [-p]\n"

end Invocation

end YulAbi
