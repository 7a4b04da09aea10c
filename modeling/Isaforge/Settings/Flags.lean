import Isaforge.Settings.Layout
import Isaforge.Source.Code
import Isaforge.Text.CamelCase

/-!
# The flags of a group of settings

Generated code keeps the settings of a group in a value of a type `Flags`, which holds the bytes
of the layout.  Each setting has a getter there: a boolean is a numbered predicate, a number is
its byte, and an enumeration is looked up from its byte, each value by its index and the first
value for any other byte.  Each enumeration has a type of its own.

`Flags.ofGroup` says what is generated for a group and `Flags.code` writes it.
-/

namespace Isaforge

open Source

/-- A value of an enumeration: its variant in generated code, and its text. -/
structure EnumVariant where
  variant : String
  text : String
deriving DecidableEq, Repr

/-- The type of an enumeration. -/
structure EnumType where
  setting : String
  name : String
  variants : List EnumVariant
deriving DecidableEq, Repr

/-- How a getter reads the bytes of the flags. -/
inductive Reading where
  /-- The bit of a predicate. -/
  | predicate (index : Nat)
  /-- A byte as it is. -/
  | byte (offset : Nat)
  /-- The variant that a byte is the index of. -/
  | choice (offset : Nat) (type : String) (variants : List String)
deriving DecidableEq, Repr

/-- The getter of a setting. -/
structure Getter where
  name : String
  doc : String
  reading : Reading
deriving DecidableEq, Repr

/-- The flags of a group. -/
structure Flags where
  group : String
  parent? : Option String
  enums : List EnumType
  size : Nat
  booleanOffset : Nat
  getters : List Getter
  defaults : List UInt8
deriving DecidableEq, Repr

namespace EnumType

/-- The type of an enumeration setting. -/
def ofSetting? (s : Setting) : Option EnumType :=
  match s.kind with
  | .enum values =>
    some ⟨s.name, Text.camelCase s.name, values.map fun v => ⟨Text.camelCase v, v⟩⟩
  | .bool _ | .num _ => none

/-- The definition of the type, and how its values are displayed. -/
def code (group : String) (e : EnumType) : Code :=
  let variants : Code := e.variants.flatMap fun v =>
    Code.doc ("`" ++ v.text ++ "`.") ++ Code.line (v.variant ++ ",")
  let texts : Code := e.variants.flatMap fun v =>
    Code.line (e.name ++ "::" ++ v.variant ++ " => \"" ++ v.text ++ "\",")
  Code.doc ("Values for `" ++ group ++ "." ++ e.setting ++ "`.") ++
  Code.line "#[derive(Debug, Clone, Copy, PartialEq, Eq, Hash)]" ++
  Code.block ("pub enum " ++ e.name ++ " \x7b") variants "\x7d" ++
  Code.blank ++
  Code.block ("impl fmt::Display for " ++ e.name ++ " \x7b")
    (Code.block "fn fmt(&self, f: &mut fmt::Formatter) -> fmt::Result \x7b"
      (Code.block "f.write_str(match *self \x7b" texts "\x7d)")
      "\x7d")
    "\x7d" ++
  Code.blank

end EnumType

namespace Getter

/-- The getter of a setting. -/
def ofSetting (s : Setting) : Getter :=
  ⟨s.name, s.doc,
    match s.kind with
    | .bool _ => .predicate (s.predicate?.getD 0)
    | .num _ => .byte s.byte
    | .enum values => .choice s.byte (Text.camelCase s.name) (values.map Text.camelCase)⟩

/-- The arms that look a variant up by its index, from `index` on. -/
def indexArms (type : String) (index : Nat) : List String → Code
  | [] => []
  | v :: vs => Code.line (toString index ++ " => " ++ type ++ "::" ++ v ++ ",") ++
      indexArms type (index + 1) vs

/-- The arms of the variants: each by its index, and the first for any other byte. -/
def arms (type : String) : List String → Code
  | [] => []
  | first :: rest => indexArms type 1 rest ++ Code.line ("_ => " ++ type ++ "::" ++ first ++ ",")

/-- The type that a getter returns. -/
def resultType : Reading → String
  | .predicate _ => "bool"
  | .byte _ => "u8"
  | .choice _ type _ => type

/-- The expression that reads the bytes. -/
def body : Reading → Code
  | .predicate index => Code.line ("self.numbered_predicate(" ++ toString index ++ ")")
  | .byte offset => Code.line ("self.bytes[" ++ toString offset ++ "]")
  | .choice offset type variants =>
    Code.block ("match self.bytes[" ++ toString offset ++ "] \x7b") (arms type variants) "\x7d"

/-- The method of the getter. -/
def code (g : Getter) : Code :=
  Code.doc g.doc ++
  Code.block ("pub fn " ++ g.name ++ "(&self) -> " ++ resultType g.reading ++ " \x7b")
    (body g.reading) "\x7d"

end Getter

namespace Flags

/-- The flags of a group. -/
def ofGroup (g : SettingGroup) : Flags where
  group := g.name
  parent? := g.parent?
  enums := g.settings.filterMap EnumType.ofSetting?
  size := g.size
  booleanOffset := g.booleanOffset
  getters := g.settings.map Getter.ofSetting
  defaults := g.defaultBytes

/-- A hexadecimal digit. -/
def hexDigit (n : Nat) : String :=
  (Nat.digitChar n).toString

/-- A byte in hexadecimal, with both digits. -/
def byteText (b : UInt8) : String :=
  "0x" ++ hexDigit (b.toNat / 16) ++ hexDigit (b.toNat % 16)

/-- A row of bytes as an array. -/
def bytesText (bytes : List UInt8) : String :=
  "[" ++ ", ".intercalate (bytes.map byteText) ++ "]"

/-- The documentation of the type. -/
def doc (f : Flags) : String :=
  "Flags group `" ++ f.group ++ "`." ++
    match f.parent? with
    | some parent => "\n\nSettings of the `" ++ parent ++ "` group are kept in their own `Flags`."
    | none => ""

/-- The method that tests a numbered predicate. -/
def predicateCode (f : Flags) : Code :=
  Code.doc "Dynamic numbered predicate getter." ++
  Code.block "pub fn numbered_predicate(&self, p: usize) -> bool \x7b"
    (Code.line ("self.bytes[" ++ toString f.booleanOffset ++ " + p / 8] & (1 << (p % 8)) != 0"))
    "\x7d"

/-- The enumerations, the type of the flags, its getters and its default. -/
def code (f : Flags) : Code :=
  Code.line "use std::fmt;" ++
  Code.blank ++
  f.enums.flatMap (EnumType.code f.group) ++
  Code.doc f.doc ++
  Code.line "#[derive(Clone)]" ++
  Code.block "pub struct Flags \x7b"
    (Code.line ("bytes: [u8; " ++ toString f.size ++ "],")) "\x7d" ++
  Code.blank ++
  Code.block "impl Flags \x7b"
    (f.predicateCode ++ f.getters.flatMap fun g => Code.blank ++ g.code) "\x7d" ++
  Code.blank ++
  Code.block "impl Default for Flags \x7b"
    (Code.block "fn default() -> Self \x7b"
      (Code.block "Self \x7b" (Code.line ("bytes: " ++ bytesText f.defaults ++ ",")) "\x7d")
      "\x7d")
    "\x7d"

end Flags

end Isaforge
