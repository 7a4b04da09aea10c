import Isaforge.Settings.Layout
import Isaforge.Shared.Legalization

/-!
# The shared definitions

What every target has in common: the shared settings, the shared instructions and the
legalization rules on them.
-/

namespace Isaforge

/-- What sources are generated from: settings, instructions and groups of rules. -/
structure Definitions where
  settings : SettingGroup
  instructions : InstructionGroup
  ruleGroups : List RuleGroup
deriving Repr

/-- The group of rules called `name`. -/
def Definitions.ruleGroup (d : Definitions) (name : String) : Except Error RuleGroup :=
  match d.ruleGroups.find? (·.name = name) with
  | some g => .ok g
  | none => .error (.unknownRuleGroup name)

namespace Shared

/-- The settings that all targets share. -/
def settingDeclarations : List Declaration := [
  { name := "opt_level"
    doc := "
            Optimization level:

            - default: Very profitable optimizations enabled, none slow.
            - best: Enable all optimizations
            - fastest: Optimize for compile time by disabling most optimizations.
            "
    kind := .enum ["default", "best", "fastest"] },
  { name := "enable_verifier"
    doc := "
            Run the IR verifier at strategic times during compilation.

            This makes compilation slower but catches many bugs. The verifier is
            disabled by default, except when reading IR from a text file.
            "
    kind := .bool false },
  { name := "is_64bit"
    doc := "Enable 64-bit code generation"
    kind := .bool false },
  { name := "is_compressed"
    doc := "Enable compressed instructions, if available on the target."
    kind := .bool false },
  { name := "enable_float"
    doc := "
            Enable the use of floating-point instructions

            Disabling use of floating-point instructions is not yet implemented.
            "
    kind := .bool true },
  { name := "enable_simd"
    doc := "Enable the use of SIMD instructions."
    kind := .bool true },
  { name := "enable_atomics"
    doc := "Enable the use of atomic instructions"
    kind := .bool true }]

/-- The group of the shared settings. -/
def settings : Except Error SettingGroup :=
  SettingGroup.make "shared" "Shared settings group" none settingDeclarations

/-- The shared definitions; `sites` are the places where their rules are declared. -/
def definitions (sites : Sites) : Except Error Definitions := do
  let settings ← settings
  let (defined, grown) :=
    GrowingGroup.perform { name := "base", doc := "Shared base instruction set" } define
  let opcodes ← defined
  let instructions := grown.group
  return {
    settings
    instructions
    ruleGroups := [← narrow sites instructions opcodes, ← expand sites instructions opcodes] }

end Shared

end Isaforge
