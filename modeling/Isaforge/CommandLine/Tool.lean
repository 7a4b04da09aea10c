import Isaforge.CommandLine.Arguments
import Isaforge.CommandLine.Report
import Isaforge.Generation

/-!
# The command line tool

`Tool.run` does what the arguments ask for.  A usage error exits with 2 and a failure with 1
and its message; otherwise the exit code is 0.
-/

namespace Isaforge.CommandLine

open Storage

/-- How the tool ends: its exit code, and what it writes to the two standard streams. -/
structure Outcome where
  exit : Nat := 0
  out : String := ""
  err : String := ""
deriving DecidableEq, Repr

/-- The variable of the environment that names the directory for generated sources when the
command line does not. -/
def directoryVariable : String := "TPDE_META_OUT_DIR"

/-- Where the rules of the shared definitions are declared. -/
def sharedSites : Shared.Sites where
  narrowIadd := "narrow iadd"
  narrowIsub := "narrow isub"
  narrowBitwise := "narrow band, bor, bxor"
  expandIaddImm := "expand iadd_imm"
  expandImulImm := "expand imul_imm"
  expandBandNot := "expand band_not"
  expandBorNot := "expand bor_not"
  expandBxorNot := "expand bxor_not"

/-- The directory for generated sources: that of the command line, else that of the environment,
else the working directory. -/
def chosenDirectory (argument? environment? : Option String) : Path :=
  ⟨(argument? <|> environment?).getD "."⟩

/-- The outcome of a report that may fail. -/
def Outcome.ofReport : Except Error String → Outcome
  | .ok report => { out := report }
  | .error e => { exit := 1, err := "Error: " ++ e.message ++ "\n" }

/-- The groups of rules to print: the one asked for, or all. -/
def chosenGroups (d : Definitions) : Option String → Except Error (List RuleGroup)
  | some name => do return [← d.ruleGroup name]
  | none => .ok d.ruleGroups

/-- The settings to print: those of the target asked for, or the shared ones. -/
def chosenSettings (d : Definitions) : Option String → Except Error SettingGroup
  | some name => do return (← Target.find d.settings name).settings
  | none => .ok d.settings

namespace Tool

variable {m : Type → Type} [Monad m] [Output m]

/-- Do what a command asks for, with the shared definitions. -/
def perform (d : Definitions) (environment? : Option String) : Command → m Outcome
  | .generate directory? =>
    match Target.all d.settings with
    | .error e => pure (.ofReport (.error e))
    | .ok targets => do
      let (_, outcome) ← Generation.run d targets (chosenDirectory directory? environment?) {}
      return .ofReport (outcome.map fun _ => "")
  | .targets => pure (.ofReport ((Target.all d.settings).map targetsReport))
  | .instructions => pure (.ofReport (.ok (instructionsReport d.instructions)))
  | .rules group? => pure (.ofReport ((chosenGroups d group?).map rulesReport))
  | .settings target? => pure (.ofReport ((chosenSettings d target?).map settingsReport))

/-- Run the tool with arguments and the directory that the environment names. -/
def run (arguments : List String) (environment? : Option String) : m Outcome :=
  match readArguments arguments with
  | .error .usage => pure { exit := 2 }
  | .error .help => pure {}
  | .ok command =>
    match Shared.definitions sharedSites with
    | .error e => pure (.ofReport (.error e))
    | .ok d => perform d environment? command

end Tool

end Isaforge.CommandLine
