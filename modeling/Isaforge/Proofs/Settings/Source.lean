import Isaforge.Proofs.Settings.Getters

/-!
# Source — what the generated source of the flags declares

`Flags.code` is made of parts (`Flags.code_eq_flatten`), so the array of the bytes, its default,
the accessor of predicates, the getters and the enumerations all stand in it (`Flags.written`).
What is evaluated elsewhere is thereby what is generated: the expression of a getter is the body
of its method, and the literals of the default array are those of the default bytes
(`Flags.byteValue?_byteText`).
-/

namespace Isaforge.Flags

open Source

/-! ### Bytes as literals -/

/-- The value of a hexadecimal digit. -/
def digitValue? (c : Char) : Option Nat :=
  "0123456789abcdef".toList.idxOf? c

/-- The byte that a literal of two hexadecimal digits is for. -/
def byteValue? (literal : String) : Option UInt8 :=
  match literal.toList with
  | ['0', 'x', high, low] => do
    return UInt8.ofNat (16 * (← digitValue? high) + (← digitValue? low))
  | _ => none

theorem digitValue?_digitChar : ∀ n < 16, digitValue? (Nat.digitChar n) = some n := by
  decide

/-- A byte is written as a literal for it. -/
theorem byteValue?_byteText (b : UInt8) : byteValue? (byteText b) = some b := by
  have hlist : (byteText b).toList =
      ['0', 'x', Nat.digitChar (b.toNat / 16), Nat.digitChar (b.toNat % 16)] := by
    simp [byteText, hexDigit]
  have hlt : b.toNat / 16 < 16 := by
    have := b.toNat_lt
    omega
  have hhigh := digitValue?_digitChar _ hlt
  have hlow := digitValue?_digitChar _ (Nat.mod_lt b.toNat (by decide : 0 < 16))
  rw [byteValue?, hlist]
  simp only [hhigh, hlow, Option.bind_eq_bind, Option.bind_some, Option.pure_def, Nat.div_add_mod,
    UInt8.ofNat_toNat]

/-! ### The parts of the source -/

/-- The declaration of the array. -/
def arrayCode (f : Flags) : Code :=
  Code.block "pub struct Flags \x7b"
    (Code.line ("bytes: [u8; " ++ toString f.size ++ "],")) "\x7d"

/-- The default, with the bytes of the array as `literals`. -/
def defaultCode (literals : List String) : Code :=
  Code.block "impl Default for Flags \x7b"
    (Code.block "fn default() -> Self \x7b"
      (Code.block "Self \x7b"
        (Code.line ("bytes: [" ++ ", ".intercalate literals ++ "],")) "\x7d")
      "\x7d")
    "\x7d"

/-- The methods of the flags. -/
def methods (f : Flags) : List Code :=
  f.predicateCode :: f.getters.map fun γ => Code.blank ++ γ.code

/-- The parts of the source. -/
def parts (f : Flags) : List Code :=
  [Code.line "use std::fmt;", Code.blank] ++ f.enums.map (EnumType.code f.group) ++
    [Code.doc f.doc, Code.line "#[derive(Clone)]", f.arrayCode, Code.blank,
      Code.block "impl Flags \x7b" f.methods.flatten "\x7d", Code.blank,
      defaultCode (f.defaults.map byteText)]

theorem code_eq_flatten (f : Flags) : f.code = f.parts.flatten := by
  have hbytes : "bytes: " ++ bytesText f.defaults ++ "," =
      "bytes: [" ++ ", ".intercalate (f.defaults.map byteText) ++ "]," := by
    have hopening : "bytes: [" = "bytes: " ++ "[" := rfl
    have hclosing : "]," = "]" ++ "," := rfl
    rw [bytesText, hopening, hclosing]
    simp only [String.append_assoc]
  simp only [code, hbytes, parts, methods, arrayCode, defaultCode, List.flatMap_def,
    List.flatten_append, List.flatten_cons, List.flatten_nil, List.append_assoc, List.append_nil]

theorem infix_code {f : Flags} {c : Code} (h : c ∈ f.parts) : c <:+: f.code := by
  rw [code_eq_flatten]
  exact List.infix_of_mem_flatten h

/-- A method is part of the source, one block deeper. -/
theorem nested_infix_code {f : Flags} {c m : Code} (h : c <:+: m) (hm : m ∈ f.methods) :
    c.nested <:+: f.code := by
  have hbody : c.nested <:+: Code.nested f.methods.flatten :=
    (h.trans (List.infix_of_mem_flatten hm)).map _
  have hblock : Code.block "impl Flags \x7b" f.methods.flatten "\x7d" ∈ f.parts := by
    simp [parts]
  exact (hbody.trans (List.infix_append _ _ _)).trans (infix_code hblock)

/-- What the generated source declares: the array of the bytes, its default, the accessor of
predicates, a method for each getter and a type for each enumeration. -/
structure Written (f : Flags) : Prop where
  array : f.arrayCode <:+: f.code
  defaults : ∃ literals : List String,
    literals.map byteValue? = f.defaults.map some ∧ defaultCode literals <:+: f.code
  predicate : (Code.block "pub fn numbered_predicate(&self, p: usize) -> bool \x7b"
    (Code.line
      ("self.bytes[" ++ toString f.booleanOffset ++ " + p / 8] & (1 << (p % 8)) != 0"))
    "\x7d").nested <:+: f.code
  getter : ∀ γ ∈ f.getters,
    (Code.block ("pub fn " ++ γ.name ++ "(&self) -> " ++ Getter.resultType γ.reading ++ " \x7b")
      (GetterBody.ofReading γ.reading).code "\x7d").nested <:+: f.code
  enum : ∀ e ∈ f.enums, e.code f.group <:+: f.code

theorem written (f : Flags) : f.Written where
  array := infix_code (by simp [parts])
  defaults := by
    refine ⟨f.defaults.map byteText, ?_, infix_code (by simp [parts])⟩
    rw [List.map_map]
    exact List.map_congr_left fun b _ => byteValue?_byteText b
  predicate :=
    nested_infix_code (List.suffix_append _ _).isInfix (List.mem_cons_self ..)
  getter γ hγ := by
    rw [← Getter.body_eq_code]
    refine nested_infix_code ?_ (List.mem_cons_of_mem _ (List.mem_map_of_mem hγ))
    exact (List.suffix_append _ _).isInfix.trans (List.suffix_append _ _).isInfix
  enum e he := by
    refine infix_code (List.mem_append_left _ (List.mem_append_right _ ?_))
    exact List.mem_map_of_mem he

end Isaforge.Flags
