import Isaforge.Shared.Definitions
import Isaforge.Target

/-!
# Reports of the command line

The texts that list targets, instructions, rules with the roles of their variables, and the
layout of a group of settings.
-/

namespace Isaforge.CommandLine

/-- Lines as a text. -/
def unlines (lines : List String) : String :=
  String.join (lines.map (· ++ "\n"))

/-- The name of each target. -/
def targetsReport (targets : List Target) : String :=
  unlines (targets.map (·.name))

/-- The columns of an instruction's name. -/
def nameColumns : Nat := 14

/-- The text with blanks after it, up to `columns` in all. -/
def padded (columns : Nat) (s : String) : String :=
  s.pushn ' ' (columns - s.length)

/-- Each instruction with the short form of its documentation. -/
def instructionsReport (g : InstructionGroup) : String :=
  unlines (g.instructions.map fun i => padded nameColumns i.name ++ " " ++ i.blurb)

/-- The lines of a rule: the rule, and its variables with their roles. -/
def ruleLines (r : Rule) : List String :=
  ("  " ++ r.text) :: r.roles.entries.map fun (v, role) => "    " ++ v.name ++ ": " ++ role.text

/-- The rules of each group. -/
def rulesReport (groups : List RuleGroup) : String :=
  unlines (groups.flatMap fun g =>
    (g.name ++ " (" ++ toString g.rules.length ++ " transforms)") :: g.rules.flatMap ruleLines)

/-- What a setting holds, and its default. -/
def kindText : SettingKind → String
  | .bool default => "bool = " ++ (if default then "true" else "false")
  | .num default => "num = " ++ toString default.toNat
  | .enum values => "enum \x7b" ++ ", ".intercalate values ++ "\x7d"

/-- The lines of a setting: its storage, name and kind, and its short documentation. -/
def settingLines (s : Setting) : List String :=
  let predicate :=
    match s.predicate? with
    | some p => ", predicate " ++ toString p
    | none => ""
  ("  [" ++ toString s.byte ++ "] " ++ s.name ++ " (" ++ kindText s.kind ++ predicate ++ ")") ::
    (if s.blurb = "" then [] else ["      " ++ s.blurb])

/-- The layout of a group of settings. -/
def settingsReport (g : SettingGroup) : String :=
  let parent :=
    match g.parent? with
    | some parent => " (parent " ++ parent ++ ")"
    | none => ""
  unlines
    ((g.name ++ parent) ::
      ("  " ++ toString g.size ++ " bytes, booleans from byte " ++ toString g.booleanOffset) ::
      g.settings.flatMap settingLines)

end Isaforge.CommandLine
