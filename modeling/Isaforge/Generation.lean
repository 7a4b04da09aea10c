import Isaforge.Legalizer.Pass
import Isaforge.Settings.Flags
import Isaforge.Shared.Definitions
import Isaforge.Statistics
import Isaforge.Storage.FileSystem
import Isaforge.Target

/-!
# Generating the sources

A run writes one file with the legalization passes, one with the shared settings, and one with
the settings of each target, into a directory that it makes if need be.  A file that has the
text already is not written.  Every rule is counted before its group is generated; when a group
breaks off, nothing is written.

Where the files go is left open (`Output`): a `FileSystem` that is a value, or another.
-/

namespace Isaforge

open Source Storage

/-- A place that sources can be written to. -/
class Output (m : Type → Type) where
  /-- Make a directory and those that are missing above it. -/
  makeDirectories : Path → m (Except FileFault Unit)
  /-- Write a text to a file unless the file holds it already; says whether it was written. -/
  update : Path → String → m (Except FileFault Bool)

instance : Output (StateM FileSystem) where
  makeDirectories p := fun fs =>
    let (fs, outcome) := fs.makeDirectories p
    (outcome, fs)
  update p text := fun fs =>
    match fs.update p text with
    | .ok (fs, written) => (.ok written, fs)
    | .error fault => (.error fault, fs)

namespace Generation

/-! ### The files -/

/-- The file of a group of settings. -/
def settingsPage (g : SettingGroup) : Page :=
  Page.write {} (
    Code.line ("//! Settings group `" ++ g.name ++ "`, generated by metagen.") ++
    Code.blank ++
    (Flags.ofGroup g).code)

/-- The opening of the file of the legalization passes. -/
def legalizerOpening : Page :=
  Page.write {} (
    Code.line "//! Legalization patterns, generated by metagen." ++
    Code.blank ++
    Code.line "use crate::ir;")

/-- Count the rules of a group. -/
def countRules (s : Statistics) (g : RuleGroup) : Statistics :=
  g.rules.foldl (fun s r => s.recordRule r.roles.counts) s

/-- Write the passes of the groups below one another, each after its rules were counted, up to
the first that breaks off. -/
def writePasses (insts : InstructionGroup) (page : Page) (s : Statistics) :
    List RuleGroup → Page × Statistics × Except Error Unit
  | [] => (page, s, .ok ())
  | g :: gs =>
    let s := countRules s g
    match (page.write Code.blank).emit (Legalizer.groupEmission insts g) with
    | (page, .error e) => (page, s, .error e)
    | (page, .ok ()) => writePasses insts page s gs

/-- The files of settings, with their names. -/
def settingsFiles (shared : SettingGroup) (targets : List Target) : List (String × Page) :=
  ("settings.rs", settingsPage shared) ::
    targets.map fun t => ("settings-" ++ t.name ++ ".rs", settingsPage t.settings)

/-! ### A run -/

variable {m : Type → Type} [Monad m] [Output m]

/-- Update the files in a directory, in order, up to the first that cannot be written. -/
def updateFiles (directory : Path) (s : Statistics) :
    List (String × Page) → m (Statistics × Except Error Unit)
  | [] => pure (s, .ok ())
  | (name, page) :: rest => do
    match ← Output.update (directory.join ⟨name⟩) page.text with
    | .error fault => pure (s, .error (.file fault))
    | .ok written => updateFiles directory (s.recordFile page.lineCount written) rest

/-- Generate every file into a directory. -/
def run (d : Definitions) (targets : List Target) (directory : Path) (s : Statistics) :
    m (Statistics × Except Error Unit) := do
  match ← Output.makeDirectories directory with
  | .error fault => pure (s, .error (.file fault))
  | .ok () =>
    match writePasses d.instructions legalizerOpening s d.ruleGroups with
    | (_, s, .error e) => pure (s, .error e)
    | (page, s, .ok ()) =>
      updateFiles directory s (("legalizer.rs", page) :: settingsFiles d.settings targets)

end Generation

end Isaforge
