import Isaforge.Role

/-!
# Statistics of a generation run

A run counts the rules it classified, their variables by role, the files it wrote or found up
to date, and the lines of source it made.
-/

namespace Isaforge

/-- The counts of a run. -/
structure Statistics where
  rules : Nat := 0
  inputs : Nat := 0
  outputs : Nat := 0
  intermediates : Nat := 0
  temporaries : Nat := 0
  filesWritten : Nat := 0
  filesUnchanged : Nat := 0
  lines : Nat := 0
deriving DecidableEq, Repr

namespace Statistics

/-- Count a rule whose variables have the roles counted. -/
def recordRule (s : Statistics) (c : RoleCounts) : Statistics :=
  { s with
    rules := s.rules + 1
    inputs := s.inputs + c.inputs
    outputs := s.outputs + c.outputs
    intermediates := s.intermediates + c.intermediates
    temporaries := s.temporaries + c.temporaries }

/-- Count a file of so many lines, written or up to date. -/
def recordFile (s : Statistics) (lines : Nat) (written : Bool) : Statistics :=
  { s with
    filesWritten := s.filesWritten + (if written then 1 else 0)
    filesUnchanged := s.filesUnchanged + (if written then 0 else 1)
    lines := s.lines + lines }

/-- The statistics as a report. -/
def report (s : Statistics) : String :=
  "Meta Session Statistics:\n" ++
  "  Transforms classified: " ++ toString s.rules ++ "\n" ++
  "  Variables: " ++ toString s.inputs ++ " inputs, " ++ toString s.outputs ++ " outputs, " ++
    toString s.intermediates ++ " intermediates, " ++ toString s.temporaries ++ " temporaries\n" ++
  "  Files: " ++ toString s.filesWritten ++ " written, " ++ toString s.filesUnchanged ++
    " unchanged\n" ++
  "  Lines emitted: " ++ toString s.lines ++ "\n"

end Statistics

end Isaforge
