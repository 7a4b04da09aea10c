import Isaforge.Settings.Layout

/-!
# Target instruction set architectures

A target has settings of its own, whose parent is the shared group, and executes some of the
instruction groups.  The targets are listed in a fixed order.
-/

namespace Isaforge

/-- A target instruction set architecture. -/
structure Target where
  name : String
  settings : SettingGroup
  instructionGroups : List String
deriving DecidableEq, Repr

namespace Target

/-- The names of the targets, in order. -/
def names : List String :=
  ["riscv", "intel", "arm32", "arm64"]

/-- The settings of RISC-V. -/
def riscvSettings : List Declaration := [
  ⟨"supports_m", "CPU supports the 'M' extension (mul/div)", .bool false⟩,
  ⟨"supports_a", "CPU supports the 'A' extension (atomics)", .bool false⟩,
  ⟨"supports_f", "CPU supports the 'F' extension (float)", .bool false⟩,
  ⟨"supports_d", "CPU supports the 'D' extension (double)", .bool false⟩,
  ⟨"enable_m", "Enable the use of 'M' instructions if available", .bool true⟩]

/-- The target with the documentation and the settings, for the shared settings `shared`. -/
def make (shared : SettingGroup) (name doc : String) (settings : List Declaration) :
    Except Error Target := do
  return ⟨name, ← SettingGroup.make name doc (some shared.name) settings, ["base"]⟩

/-- The target called `name`, for the shared settings `shared`. -/
def find (shared : SettingGroup) (name : String) : Except Error Target :=
  match name with
  | "riscv" => make shared name "RISC-V settings" riscvSettings
  | "intel" => make shared name "Intel settings" []
  | "arm32" => make shared name "ARM32 settings" []
  | "arm64" => make shared name "ARM64 settings" []
  | _ => .error (.unknownTarget name)

/-- The targets, for the shared settings `shared`. -/
def all (shared : SettingGroup) : Except Error (List Target) :=
  names.mapM (find shared)

end Target

end Isaforge
