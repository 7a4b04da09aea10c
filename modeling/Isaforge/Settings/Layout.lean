import Isaforge.Error
import Isaforge.Repetition
import Isaforge.Text.Blank

/-!
# Groups of settings and their layout

A setting is a boolean, a small number or an enumeration, with a default: the first value of an
enumeration.  `SettingGroup.make` makes a group of declarations.  It accepts them when no two
share a name and each enumeration has from one to 256 distinct values, so that an index fits in
a byte.

The settings of a group are kept in a row of bytes.  Enumerations and numbers come first, in
the order of their declarations, one byte each; then the booleans, in order, one bit each,
eight to a byte.  The number of a boolean's bit is its predicate.
-/

namespace Isaforge

/-- What a setting holds, and its default. -/
inductive SettingKind where
  | bool (default : Bool)
  | num (default : UInt8)
  | enum (values : List String)
deriving DecidableEq, Repr

/-- A setting as it is declared. -/
structure Declaration where
  name : String
  doc : String
  kind : SettingKind
deriving DecidableEq, Repr

namespace Declaration

/-- The declaration is of a boolean. -/
def isBool (d : Declaration) : Bool :=
  match d.kind with
  | .bool _ => true
  | .num _ | .enum _ => false

/-- The largest number of values of an enumeration. -/
def maxValues : Nat := 256

/-- Why the values of an enumeration are refused. -/
def valuesFault? (values : List String) : Option String :=
  if values.isEmpty then some "enumeration has no values"
  else if maxValues < values.length then some "enumeration does not fit in a byte"
  else if (firstRepeat? [] values).isSome then some "enumeration repeats a value"
  else none

/-- Why the declaration is refused after declarations of the names `seen`. -/
def fault? (seen : List String) (d : Declaration) : Option String :=
  if d.name ∈ seen then some "defined more than once"
  else
    match d.kind with
    | .enum values => valuesFault? values
    | .bool _ | .num _ => none

/-- The first declaration that is refused, after declarations of the names `seen`, and why. -/
def firstFault? (seen : List String) : List Declaration → Option (Declaration × String)
  | [] => none
  | d :: ds =>
    match d.fault? seen with
    | some reason => some (d, reason)
    | none => firstFault? (d.name :: seen) ds

end Declaration

/-- A setting with its storage: the byte it is kept in, and for a boolean its predicate. -/
structure Setting extends Declaration where
  byte : Nat
  predicate? : Option Nat
deriving DecidableEq, Repr

namespace Setting

/-- The bit of a boolean within its byte. -/
def mask? (s : Setting) : Option UInt8 :=
  s.predicate?.map fun p => UInt8.ofNat (1 <<< (p % 8))

/-- The default as its byte stores it. -/
def defaultByte (s : Setting) : UInt8 :=
  match s.kind with
  | .bool default => if default then s.mask?.getD 0 else 0
  | .num default => default
  | .enum _ => 0

/-- The short form of the documentation. -/
def blurb (s : Setting) : String :=
  Text.blurb s.doc

end Setting

/-- A group of settings, in the order of their declarations; the settings of its parent are
kept with the parent. -/
structure SettingGroup where
  name : String
  doc : String
  parent? : Option String
  declarations : List Declaration
deriving DecidableEq, Repr

namespace SettingGroup

/-- The group of the declarations, unless one of them is refused. -/
def make (name doc : String) (parent? : Option String) (declarations : List Declaration) :
    Except Error SettingGroup :=
  match Declaration.firstFault? [] declarations with
  | some (d, reason) => .error (.invalidSetting name d.name reason)
  | none => .ok ⟨name, doc, parent?, declarations⟩

/-- The declarations of settings that take a byte. -/
def wide (g : SettingGroup) : List Declaration :=
  g.declarations.filter (!·.isBool)

/-- The declarations of settings that take a bit. -/
def narrow (g : SettingGroup) : List Declaration :=
  g.declarations.filter (·.isBool)

/-- The first byte that holds booleans. -/
def booleanOffset (g : SettingGroup) : Nat :=
  g.wide.length

/-- The number of bytes of the group. -/
def size (g : SettingGroup) : Nat :=
  g.booleanOffset + (g.narrow.length + 7) / 8

/-- The settings with their storage, in the order of the layout. -/
def settings (g : SettingGroup) : List Setting :=
  let offset := g.booleanOffset
  (g.wide.zipIdx.map fun (d, n) => { d with byte := n, predicate? := none }) ++
    (g.narrow.zipIdx.map fun (d, n) => { d with byte := offset + n / 8, predicate? := some n })

/-- The setting called `name`. -/
def find? (g : SettingGroup) (name : String) : Option Setting :=
  g.settings.find? (·.name = name)

/-- The defaults of those of the settings that are kept in byte `n`, together. -/
def defaultByte (settings : List Setting) (n : Nat) : UInt8 :=
  (settings.filter (·.byte = n)).foldl (fun byte s => byte ||| s.defaultByte) 0

/-- The bytes of the group when every setting has its default. -/
def defaultBytes (g : SettingGroup) : List UInt8 :=
  let settings := g.settings
  (List.range g.size).map (defaultByte settings)

end SettingGroup

end Isaforge
