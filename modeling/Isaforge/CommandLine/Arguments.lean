/-!
# Arguments of the command line

A command line is read from left to right: options of the tool, then the name of a command, and
its options.  The first thing that does not fit decides the outcome, a usage error or a request
for help.  An option of a command is given once at most, as `--name value` or `--name=value`; a
separate value does not begin with a dash, a dash alone excepted.  Verbosity can be raised
anywhere and any number of times.
-/

namespace Isaforge.CommandLine

/-- What the tool is asked to do. -/
inductive Command where
  /-- Write the generated sources to a directory. -/
  | generate (directory? : Option String)
  /-- List the targets. -/
  | targets
  /-- List the shared instructions. -/
  | instructions
  /-- Print the rules of one group, or of all, and the roles of their variables. -/
  | rules (group? : Option String)
  /-- Print the layout of the settings of a target, or of the shared ones. -/
  | settings (target? : Option String)
deriving DecidableEq, Repr

/-- Why there is nothing to be done. -/
inductive Stop where
  | usage
  | help
deriving DecidableEq, Repr

/-- An option of a command that takes a value. -/
structure ValueOption where
  name : String
  mayBeEmpty : Bool
deriving DecidableEq, Repr

/-- A command and its options: its name, the option it takes, and what it is with that option
given or not. -/
structure CommandForm where
  name : String
  option? : Option ValueOption
  command : Option String → Command

/-- The commands of the tool. -/
def commandForms : List CommandForm := [
  ⟨"generate", some ⟨"out-dir", false⟩, .generate⟩,
  ⟨"isas", none, fun _ => .targets⟩,
  ⟨"instructions", none, fun _ => .instructions⟩,
  ⟨"xforms", some ⟨"group", true⟩, .rules⟩,
  ⟨"settings", some ⟨"isa", true⟩, .settings⟩]

/-- The command called `name`. -/
def formOf? (name : String) : Option CommandForm :=
  commandForms.find? (·.name = name)

/-- The letters of an argument of short options only, such as `-vv`. -/
def shortLetters? (arg : List Char) : Option (List Char) :=
  match arg with
  | '-' :: c :: cs => if c = '-' then none else some (c :: cs)
  | _ => none

/-- What a group of short options asks for: the first letter that is not `v` decides. -/
def shortStop? (letters : List Char) : Option Stop :=
  match letters.find? (· ≠ 'v') with
  | none => none
  | some c => some (if c = 'h' then .help else .usage)

/-- What an argument that is an option of every command asks for: nothing more than verbosity,
help, or something that is none of these. -/
def commonStop? (arg : String) : Option (Option Stop) :=
  if arg = "--verbose" then some none
  else if arg = "--help" then some (some .help)
  else (shortLetters? arg.toList).map shortStop?

/-- The argument cannot be the separate value of an option. -/
def looksLikeOption (arg : String) : Bool :=
  arg.startsWith "-" && arg ≠ "-"

/-- The value of an option, unless it is empty and may not be. -/
def acceptValue (o : ValueOption) (value : String) : Except Stop String :=
  if value = "" && !o.mayBeEmpty then .error .usage else .ok value

/-- Read what follows the name of a command; `value?` is the value that its option has been
given. -/
def readOptions (form : CommandForm) (value? : Option String) :
    List String → Except Stop Command
  | [] => .ok (form.command value?)
  | arg :: args =>
    match commonStop? arg with
    | some none => readOptions form value? args
    | some (some stop) => .error stop
    | none =>
      if arg = "--" then (if args.isEmpty then .ok (form.command value?) else .error .usage)
      else
        match form.option?, value? with
        | some o, none =>
          if arg = "--" ++ o.name then
            match args with
            | [] => .error .usage
            | value :: args =>
              if looksLikeOption value then .error .usage
              else do
                let value ← acceptValue o value
                readOptions form (some value) args
          else if arg.startsWith ("--" ++ o.name ++ "=") then do
            let value ← acceptValue o (arg.drop (o.name.length + 3)).toString
            readOptions form (some value) args
          else .error .usage
        | _, _ => .error .usage

/-- Read what follows the word `help`: the name of a command at most. -/
def readHelp : List String → Stop
  | [] => .help
  | [name] => if (formOf? name).isSome || name = "help" then .help else .usage
  | _ => .usage

/-- Read a command line. -/
def readArguments : List String → Except Stop Command
  | [] => .error .usage
  | arg :: args =>
    match commonStop? arg with
    | some none => readArguments args
    | some (some stop) => .error stop
    | none =>
      if arg = "help" then .error (readHelp args)
      else
        match formOf? arg with
        | some form => readOptions form none args
        | none => .error .usage

end Isaforge.CommandLine
