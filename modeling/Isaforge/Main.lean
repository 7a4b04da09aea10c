import Isaforge.CommandLine.Tool

/-!
# The program

The tool on the file system of the machine it runs on.
-/

namespace Isaforge

open Storage

/-- The fault behind an error of the system. -/
def faultOf : IO.Error → FileFault
  | .alreadyExists .. => .alreadyExists
  | .noFileOrDirectory .. => .notFound
  | .inappropriateType _ 20 _ => .notADirectory
  | .inappropriateType _ 21 _ => .isADirectory
  | e => .other (toString e)

/-- Run an action of the system and give its fault as a value. -/
def attempt {α : Type} (action : IO α) : IO (Except FileFault α) := do
  match ← action.toBaseIO with
  | .ok a => return .ok a
  | .error e => return .error (faultOf e)

/-- Write a text to a file unless the file holds it already. -/
def updateFile (path text : String) : IO Bool := do
  match ← (IO.FS.readBinFile path).toBaseIO with
  | .ok content =>
    if content = text.toUTF8 then return false
  | .error _ => pure ()
  IO.FS.writeFile path text
  return true

instance : Output IO where
  makeDirectories p := attempt (IO.FS.createDirAll p.text)
  update p text := attempt (updateFile p.text text)

end Isaforge

/-- Run the tool with the arguments of the process. -/
def main (arguments : List String) : IO UInt32 := do
  let environment? ← IO.getEnv Isaforge.CommandLine.directoryVariable
  let outcome ← Isaforge.CommandLine.Tool.run arguments environment?
  IO.print outcome.out
  IO.eprint outcome.err
  return UInt32.ofNat outcome.exit
