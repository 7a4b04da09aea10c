/-!
# Errors

Everything that can be refused, by cause, and the text it is reported with.  A fault found
while a rule is put together or closed is reported at the site of the rule (`rule`); the fault
itself is the cause.
-/

namespace Isaforge

/-- The two patterns of a rule: the code it matches and the code that replaces it. -/
inductive Side where
  | source
  | destination
deriving DecidableEq, Repr

/-- The name of a side, as messages write it. -/
def Side.text : Side → String
  | .source => "source"
  | .destination => "destination"

/-- Why the file system refused an operation. -/
inductive FileFault where
  | notFound
  | alreadyExists
  | notADirectory
  | isADirectory
  | nameTooLong
  | nulInName
  | other (text : String)
deriving DecidableEq, Repr

/-- The text of a file system fault, with the system's error number. -/
def FileFault.message : FileFault → String
  | .notFound => "No such file or directory (os error 2)"
  | .alreadyExists => "File exists (os error 17)"
  | .notADirectory => "Not a directory (os error 20)"
  | .isADirectory => "Is a directory (os error 21)"
  | .nameTooLong => "File name too long (os error 36)"
  | .nulInName => "file name contained an unexpected NUL byte"
  | .other text => text

/-- What can go wrong. -/
inductive Error where
  | arityMismatch (inst : String) (expected actual : Nat)
  | alreadyBound (inst : String)
  | notPolymorphic (inst : String)
  | tooManyTypeArguments (inst : String) (max actual : Nat)
  | typeNotAllowed (inst typeVar type : String)
  | notAnApplication (found : String)
  | noOutputs (value : String)
  | duplicateDefinition (var : String) (side : Side)
  | inputDefined (var : String)
  | extraInputs (vars : String)
  | emptyPattern (side : Side)
  | ambiguousName (name : String)
  | unknownVariable (var : String)
  | unknownInstruction (id : Nat)
  | duplicateInstruction (group name : String)
  | unknownType (name : String)
  | invalidSetting (group name reason : String)
  | unknownRuleGroup (name : String)
  | unknownTarget (name : String)
  | codeGeneration (reason : String)
  | file (fault : FileFault)
  | rule (site : String) (cause : Error)
deriving DecidableEq, Repr

/-- The text an error is reported with. -/
def Error.message : Error → String
  | .arityMismatch inst expected actual =>
    "`" ++ inst ++ "` takes " ++ toString expected ++ " arguments, got " ++ toString actual
  | .alreadyBound inst => "`" ++ inst ++ "` is already bound to type arguments"
  | .notPolymorphic inst => "`" ++ inst ++ "` is not polymorphic"
  | .tooManyTypeArguments inst max actual =>
    "`" ++ inst ++ "` has " ++ toString max ++ " type variables, got " ++ toString actual ++
      " type arguments"
  | .typeNotAllowed inst typeVar type =>
    "type `" ++ type ++ "` is not allowed for type variable `" ++ typeVar ++ "` of `" ++ inst ++ "`"
  | .notAnApplication found =>
    "definition must wrap an instruction application, found variable `" ++ found ++ "`"
  | .noOutputs value => "definition of `" ++ value ++ "` has no output variables"
  | .duplicateDefinition var side =>
    "'" ++ var ++ "' multiply defined in " ++ side.text ++ " pattern"
  | .inputDefined var => "'" ++ var ++ "' used as both input and def"
  | .extraInputs vars => "extra inputs in destination pattern: " ++ vars
  | .emptyPattern side => side.text ++ " pattern is empty"
  | .ambiguousName name => "two distinct variables named '" ++ name ++ "' in one transform"
  | .unknownVariable var => "variable `" ++ var ++ "` is not part of this transform"
  | .unknownInstruction id => "unknown instruction #" ++ toString id
  | .duplicateInstruction group name =>
    "instruction `" ++ name ++ "` already defined in group `" ++ group ++ "`"
  | .unknownType name => "unknown value type `" ++ name ++ "`"
  | .invalidSetting group name reason =>
    "invalid setting `" ++ group ++ "." ++ name ++ "`: " ++ reason
  | .unknownRuleGroup name => "unknown transform group `" ++ name ++ "`"
  | .unknownTarget name => "unknown target ISA `" ++ name ++ "`"
  | .codeGeneration reason => "Code generation failed: " ++ reason
  | .file fault => fault.message
  | .rule site cause => "transform at " ++ site ++ ": " ++ cause.message

end Isaforge
