import Isaforge.Proofs.CamelCase
import Isaforge.Proofs.Settings.Layout
import Isaforge.Proofs.Settings.Source
import Isaforge.Shared.Definitions

/-!
# Names — what the generated source of the flags defines

The lines of the source that begin with the word `pub` are those that open its types and methods
(`Flags.publicItems_code`).  A group has no two settings of one name, and an enumeration no two
values, but the source has other names: types and variants are named in camel case, the flags are a
type themselves, and so is the accessor of predicates a method.

So names are distinct where they are in snake case and no setting has one of the fixed names
(`Flags.names_of_make`).  Nothing else is checked: `clashingGroup` is accepted, and every kind
of name is there twice (`clashingGroup_defines_twice`).
-/

namespace Isaforge

open Source Text

/-! ### Public items -/

namespace Source.Code

variable {c c' body : Code} {opening closing : String}

/-- The lines that open public items, in order: those that begin with the word `pub`. -/
def publicItems (c : Code) : List String :=
  (c.map (·.text)).filter fun text => "pub ".toList.isPrefixOf text.toList

/-- No line begins with the letter that a public item begins with. -/
def Plain (c : Code) : Prop :=
  ∀ l ∈ c, l.text.toList.head? ≠ some 'p'

theorem plain_append_iff : Plain (c ++ c') ↔ Plain c ∧ Plain c' :=
  List.forall_mem_append

theorem plain_nested_iff : Plain (nested c) ↔ Plain c :=
  List.forall_mem_map

theorem plain_line_iff {s : String} : Plain (line s) ↔ s.toList.head? ≠ some 'p' :=
  List.forall_mem_singleton

theorem plain_block_iff : Plain (block opening body closing) ↔
    opening.toList.head? ≠ some 'p' ∧ Plain body ∧ closing.toList.head? ≠ some 'p' := by
  rw [block, plain_append_iff, plain_append_iff, plain_line_iff, plain_nested_iff, plain_line_iff,
    and_assoc]

/-- A text does not begin like an item when its two parts do not. -/
theorem head?_append_ne {s t : String} (hs : s.toList.head? ≠ some 'p')
    (ht : t.toList.head? ≠ some 'p') : (s ++ t).toList.head? ≠ some 'p' := by
  rw [String.toList_append, List.head?_append]
  cases hhead : s.toList.head? with
  | none => exact ht
  | some c => rwa [hhead] at hs

theorem head?_camelCase (s : String) : (camelCase s).toList.head? ≠ some 'p' := by
  rw [camelCase, String.toList_ofList]
  exact head?_camelChars s.toList

theorem head?_toString (n : Nat) : (toString n).toList.head? ≠ some 'p' := by
  intro h
  have hmem : 'p' ∈ Nat.toDigits 10 n := Nat.toList_repr ▸ List.mem_of_mem_head? h
  have hdigit : 'p'.isDigit = true := Nat.isDigit_of_mem_toDigits (by decide) (by decide) hmem
  cases hdigit

theorem plain_flatMap {α : Type} {f : α → Code} {as : List α} (h : ∀ a ∈ as, Plain (f a)) :
    Plain (as.flatMap f) := by
  intro l hl
  obtain ⟨a, ha, hl⟩ := List.mem_flatMap.mp hl
  exact h a ha l hl

theorem plain_doc (s : String) : Plain (doc s) := by
  refine List.forall_mem_map.mpr fun l _ => ?_
  dsimp only
  rw [docLine]
  split
  · decide
  · simp

theorem publicItems_append (c c' : Code) :
    publicItems (c ++ c') = publicItems c ++ publicItems c' := by
  rw [publicItems, List.map_append, List.filter_append]
  rfl

theorem publicItems_flatten (cs : List Code) :
    publicItems cs.flatten = cs.flatMap publicItems := by
  induction cs with
  | nil => rfl
  | cons c cs ih => rw [List.flatten_cons, List.flatMap_cons, publicItems_append, ih]

/-- Pieces of code with one item each have these items. -/
theorem publicItems_pieces {α : Type} {f : α → Code} {item : α → String} {as : List α}
    (h : ∀ a ∈ as, publicItems (f a) = [item a]) :
    publicItems (as.map f).flatten = as.map item := by
  rw [publicItems_flatten, List.flatMap_map, List.map_eq_flatMap]
  exact List.flatMap_congr h

theorem Plain.publicItems_eq_nil (h : Plain c) : publicItems c = [] := by
  refine List.filter_eq_nil_iff.mpr fun text htext hpub => ?_
  obtain ⟨l, hl, rfl⟩ := List.mem_map.mp htext
  obtain ⟨rest, hrest⟩ := List.isPrefixOf_iff_prefix.mp hpub
  exact h l hl (by rw [← hrest]; rfl)

theorem publicItems_nested (c : Code) : publicItems (nested c) = publicItems c := by
  rw [publicItems, nested, List.map_map]
  rfl

theorem publicItems_line {s : String} (h : "pub ".toList <+: s.toList) :
    publicItems (line s) = [s] :=
  List.filter_cons_of_pos (List.isPrefixOf_iff_prefix.mpr h)

/-- The items of a block are those of its opening line and those inside. -/
theorem publicItems_block (opening : String) (body : Code) :
    publicItems (block opening body "\x7d") = publicItems (line opening) ++ publicItems body := by
  have hclosing : publicItems (line "\x7d") = [] := rfl
  rw [block, publicItems_append, publicItems_append, publicItems_nested, hclosing, List.append_nil]

/-- A block that a public line opens is one item when there is none inside. -/
theorem publicItems_item (h : "pub ".toList <+: opening.toList) (hbody : Plain body) :
    publicItems (block opening body "\x7d") = [opening] := by
  rw [publicItems_block, publicItems_line h, hbody.publicItems_eq_nil, List.append_nil]

end Source.Code

/-! ### Enumerations -/

namespace EnumType

/-- The line that opens the type. -/
def opening (e : EnumType) : String :=
  "pub enum " ++ e.name ++ " \x7b"

/-- The variants of the type, each below its documentation. -/
def variantCode (e : EnumType) : Code :=
  e.variants.flatMap fun v => Code.doc ("`" ++ v.text ++ "`.") ++ Code.line (v.variant ++ ",")

/-- How the values of the type are displayed. -/
def displayCode (e : EnumType) : Code :=
  Code.block ("impl fmt::Display for " ++ e.name ++ " \x7b")
    (Code.block "fn fmt(&self, f: &mut fmt::Formatter) -> fmt::Result \x7b"
      (Code.block "f.write_str(match *self \x7b" (e.variants.flatMap fun v =>
        Code.line (e.name ++ "::" ++ v.variant ++ " => \"" ++ v.text ++ "\",")) "\x7d)")
      "\x7d")
    "\x7d"

theorem code_eq (group : String) (e : EnumType) :
    e.code group = Code.doc ("Values for `" ++ group ++ "." ++ e.setting ++ "`.") ++
      Code.line "#[derive(Debug, Clone, Copy, PartialEq, Eq, Hash)]" ++
      Code.block e.opening e.variantCode "\x7d" ++ (Code.blank ++ e.displayCode ++ Code.blank) := by
  simp only [code, displayCode, opening, variantCode, List.append_assoc]

/-- The enumeration that a declaration is for. -/
def ofDeclaration? (d : Declaration) : Option EnumType :=
  match d.kind with
  | .enum values =>
    some ⟨d.name, camelCase d.name, values.map fun v => ⟨camelCase v, v⟩⟩
  | .bool _ | .num _ => none

/-- The names of the type and of its variants are texts in camel case. -/
structure Named (e : EnumType) : Prop where
  name : e.name = camelCase e.setting
  variant : ∀ v ∈ e.variants, v.variant = camelCase v.text

/-- The type is the one item of its source. -/
theorem publicItems_code {e : EnumType} (group : String) (h : e.Named) :
    (e.code group).publicItems = [e.opening] := by
  have hvariants : e.variantCode.Plain := by
    refine Code.plain_flatMap fun v hv =>
      Code.plain_append_iff.mpr ⟨Code.plain_doc _, Code.plain_line_iff.mpr ?_⟩
    rw [h.variant v hv]
    exact Code.head?_append_ne (Code.head?_camelCase v.text) (by decide)
  have htexts : Code.Plain (e.variants.flatMap fun v =>
      Code.line (e.name ++ "::" ++ v.variant ++ " => \"" ++ v.text ++ "\",")) := by
    refine Code.plain_flatMap fun v _ => Code.plain_line_iff.mpr ?_
    simp only [String.append_assoc, h.name]
    exact Code.head?_append_ne (Code.head?_camelCase e.setting) (by simp)
  have hdisplay : e.displayCode.Plain :=
    Code.plain_block_iff.mpr ⟨by simp, Code.plain_block_iff.mpr ⟨by decide,
      Code.plain_block_iff.mpr ⟨by decide, htexts, by decide⟩, by decide⟩, by decide⟩
  have hderive : (Code.line "#[derive(Debug, Clone, Copy, PartialEq, Eq, Hash)]").Plain :=
    Code.plain_line_iff.mpr (by decide)
  have hblank : Code.blank.Plain := Code.plain_line_iff.mpr (by decide)
  have hitem : (Code.block e.opening e.variantCode "\x7d").publicItems = [e.opening] :=
    Code.publicItems_item (by simp [opening]) hvariants
  rw [code_eq]
  simp only [Code.publicItems_append, (Code.plain_doc _).publicItems_eq_nil,
    hderive.publicItems_eq_nil, hitem, hblank.publicItems_eq_nil, hdisplay.publicItems_eq_nil,
    List.nil_append, List.append_nil]

end EnumType

/-! ### Getters -/

namespace Getter

/-- The line that opens the method. -/
def opening (γ : Getter) : String :=
  "pub fn " ++ γ.name ++ "(&self) -> " ++ resultType γ.reading ++ " \x7b"

theorem plain_indexArms (type : String) (index : Nat) (variants : List String) :
    (indexArms type index variants).Plain := by
  induction variants generalizing index with
  | nil => exact fun l hl => absurd hl List.not_mem_nil
  | cons v vs ih =>
      refine Code.plain_append_iff.mpr ⟨Code.plain_line_iff.mpr ?_, ih (index + 1)⟩
      simp only [String.append_assoc]
      exact Code.head?_append_ne (Code.head?_toString index) (by simp)

theorem plain_body (reading : Reading) : (body reading).Plain := by
  cases reading with
  | predicate index => exact Code.plain_line_iff.mpr (by simp)
  | byte offset => exact Code.plain_line_iff.mpr (by simp)
  | choice offset type variants =>
      refine Code.plain_block_iff.mpr ⟨by simp, ?_, by decide⟩
      cases variants with
      | nil => exact fun l hl => absurd hl List.not_mem_nil
      | cons first rest =>
          exact Code.plain_append_iff.mpr
            ⟨plain_indexArms type 1 rest, Code.plain_line_iff.mpr (by simp)⟩

/-- The method is the one item of its source. -/
theorem publicItems_code (γ : Getter) : γ.code.publicItems = [γ.opening] := by
  have hitem : (Code.block γ.opening (body γ.reading) "\x7d").publicItems = [γ.opening] :=
    Code.publicItems_item (by simp [opening]) (plain_body γ.reading)
  have hcode : γ.code = Code.doc γ.doc ++ Code.block γ.opening (body γ.reading) "\x7d" := rfl
  rw [hcode, Code.publicItems_append, (Code.plain_doc _).publicItems_eq_nil, hitem]
  rfl

end Getter

/-! ### Flags -/

namespace Flags

/-- The line that opens the type of the flags. -/
def opening : String :=
  "pub struct Flags \x7b"

/-- The line that opens the accessor of predicates. -/
def predicateOpening : String :=
  "pub fn numbered_predicate(&self, p: usize) -> bool \x7b"

/-- The names of the types. -/
def typeNames (f : Flags) : List String :=
  f.enums.map (·.name) ++ ["Flags"]

/-- The names of the methods. -/
def methodNames (f : Flags) : List String :=
  "numbered_predicate" :: f.getters.map (·.name)

/-- The items of the source are the types of the enumerations, that of the flags, the accessor of
predicates and the getters. -/
theorem publicItems_code {f : Flags} (h : ∀ e ∈ f.enums, e.Named) :
    f.code.publicItems = f.enums.map EnumType.opening ++ [opening, predicateOpening] ++
      f.getters.map Getter.opening := by
  have hblank : Code.blank.publicItems = [] := rfl
  have henums : Code.publicItems (f.enums.map (EnumType.code f.group)).flatten =
      f.enums.map EnumType.opening :=
    Code.publicItems_pieces fun e he => EnumType.publicItems_code f.group (h e he)
  have hgetters : Code.publicItems (f.getters.map fun γ => Code.blank ++ γ.code).flatten =
      f.getters.map Getter.opening :=
    Code.publicItems_pieces fun γ _ => by
      rw [Code.publicItems_append, hblank, List.nil_append, Getter.publicItems_code]
  have hpredicate : f.predicateCode.publicItems = [predicateOpening] := by
    rw [predicateCode, Code.publicItems_append, (Code.plain_doc _).publicItems_eq_nil,
      List.nil_append]
    exact Code.publicItems_item (by decide) (Code.plain_line_iff.mpr (by simp))
  have hdefault : (defaultCode (f.defaults.map byteText)).Plain := by
    simp only [defaultCode, Code.plain_block_iff, Code.plain_line_iff]
    exact ⟨by decide, ⟨by decide, ⟨by decide, by simp, by decide⟩, by decide⟩, by decide⟩
  have hopening : f.arrayCode.publicItems = [opening] :=
    Code.publicItems_item (by decide) (Code.plain_line_iff.mpr (by simp))
  have hflags : (Code.block "impl Flags \x7b" f.methods.flatten "\x7d").publicItems =
      predicateOpening :: f.getters.map Getter.opening := by
    have himpl : (Code.line "impl Flags \x7b").publicItems = [] := rfl
    rw [Code.publicItems_block, methods, List.flatten_cons, Code.publicItems_append, himpl,
      hpredicate, hgetters]
    rfl
  have huse : (Code.line "use std::fmt;").publicItems = [] := rfl
  have hderive : (Code.line "#[derive(Clone)]").publicItems = [] := rfl
  rw [code_eq_flatten, parts]
  simp only [List.flatten_append, List.flatten_cons, List.flatten_nil, Code.publicItems_append,
    huse, hblank, henums, (Code.plain_doc _).publicItems_eq_nil, hderive, hopening, hflags,
    hdefault.publicItems_eq_nil, List.append_nil, List.nil_append, List.append_assoc]
  rfl

/-! ### Names of a group -/

variable {g : SettingGroup} {e : EnumType}

/-- One enumeration for each declaration of one, in order. -/
theorem enums_ofGroup (g : SettingGroup) :
    (ofGroup g).enums = g.declarations.filterMap EnumType.ofDeclaration? := by
  have hnarrow : g.narrow.filterMap EnumType.ofDeclaration? = [] := by
    refine List.filterMap_eq_nil_iff.mpr fun d hd => ?_
    have hbool : d.isBool = true := (List.mem_filter.mp hd).2
    cases hkind : d.kind <;> simp [Declaration.isBool, hkind] at hbool
    simp [EnumType.ofDeclaration?, hkind]
  have hwide : g.wide.filterMap EnumType.ofDeclaration? =
      g.declarations.filterMap EnumType.ofDeclaration? := by
    rw [SettingGroup.wide, List.filterMap_filter]
    refine List.filterMap_congr fun d _ => ?_
    cases hkind : d.kind <;> simp [Declaration.isBool, EnumType.ofDeclaration?, hkind]
  have hsettings : (ofGroup g).enums =
      (g.settings.map (·.toDeclaration)).filterMap EnumType.ofDeclaration? := by
    rw [List.filterMap_map]
    rfl
  rw [hsettings, g.declarations_settings, List.filterMap_append, hwide, hnarrow, List.append_nil]

/-- One getter for each declaration. -/
theorem getters_ofGroup (g : SettingGroup) :
    ((ofGroup g).getters.map (·.name)).Perm (g.declarations.map (·.name)) := by
  have hgetters : (ofGroup g).getters.map (·.name) =
      (g.settings.map (·.toDeclaration)).map (·.name) := by
    simp [ofGroup, Getter.ofSetting]
  rw [hgetters]
  exact g.settings_perm.map _

/-- The variants of an enumeration stand in the source. -/
theorem variants_infix_code {f : Flags} (he : e ∈ f.enums) :
    Code.block e.opening e.variantCode "\x7d" <:+: f.code := by
  have hcode : e.code f.group <:+: f.code := f.written.enum e he
  rw [EnumType.code_eq] at hcode
  exact (List.infix_append _ _ _).trans hcode

/-- What the generated source of a group of settings defines. -/
structure NamesOf (g : SettingGroup) (f : Flags) : Prop where
  /-- The lines that open its items, in order. -/
  items : f.code.publicItems = f.enums.map EnumType.opening ++ [opening, predicateOpening] ++
    f.getters.map Getter.opening
  /-- Each enumeration has its variants in one block, a line each. -/
  variants : ∀ e ∈ f.enums, Code.block e.opening e.variantCode "\x7d" <:+: f.code
  enums : f.enums = g.declarations.filterMap EnumType.ofDeclaration?
  getters : (f.getters.map (·.name)).Perm (g.declarations.map (·.name))
  /-- Methods are distinct when no setting has the name of the accessor of predicates. -/
  methods_nodup_iff : f.methodNames.Nodup ↔
    ∀ d ∈ g.declarations, d.name ≠ "numbered_predicate"
  /-- Types are distinct when no enumeration has the name of the flags. -/
  types_nodup_iff : (∀ e ∈ f.enums, IsSnakeCase e.setting) →
    (f.typeNames.Nodup ↔ ∀ e ∈ f.enums, e.setting ≠ "flags")
  /-- Variants of one type are distinct. -/
  variants_nodup : ∀ e ∈ f.enums, (∀ v ∈ e.variants, IsSnakeCase v.text) →
    (e.variants.map (·.variant)).Nodup

theorem exists_declaration (he : e ∈ (ofGroup g).enums) :
    ∃ d ∈ g.declarations, ∃ values, d.kind = .enum values ∧
      e = ⟨d.name, camelCase d.name, values.map fun v => ⟨camelCase v, v⟩⟩ := by
  rw [enums_ofGroup] at he
  obtain ⟨d, hd, hof⟩ := List.mem_filterMap.mp he
  rw [EnumType.ofDeclaration?] at hof
  split at hof
  · rename_i values hkind
    cases hof
    exact ⟨d, hd, values, hkind, rfl⟩
  all_goals cases hof

theorem named_enums : ∀ e ∈ (ofGroup g).enums, e.Named := by
  intro e he
  obtain ⟨d, -, values, -, rfl⟩ := exists_declaration he
  refine ⟨rfl, fun v hv => ?_⟩
  obtain ⟨text, -, rfl⟩ := List.mem_map.mp hv
  rfl

/-- The enumerations are of some of the settings. -/
theorem settings_enums_sublist (g : SettingGroup) :
    ((ofGroup g).enums.map (·.setting)).Sublist (g.declarations.map (·.name)) := by
  rw [enums_ofGroup]
  induction g.declarations with
  | nil => exact .slnil
  | cons d ds ih =>
      rw [List.filterMap_cons, EnumType.ofDeclaration?]
      cases d.kind with
      | bool _ | num _ => exact ih.cons d.name
      | enum values => exact ih.cons_cons d.name

theorem methodNames_nodup_iff (hnodup : (g.declarations.map (·.name)).Nodup) :
    (ofGroup g).methodNames.Nodup ↔ ∀ d ∈ g.declarations, d.name ≠ "numbered_predicate" := by
  have hgetters := getters_ofGroup g
  rw [methodNames, List.nodup_cons, hgetters.nodup_iff, hgetters.mem_iff, and_iff_left hnodup]
  simp

theorem typeNames_nodup_iff (hnodup : (g.declarations.map (·.name)).Nodup)
    (hsnake : ∀ e ∈ (ofGroup g).enums, IsSnakeCase e.setting) :
    (ofGroup g).typeNames.Nodup ↔ ∀ e ∈ (ofGroup g).enums, e.setting ≠ "flags" := by
  have hflags : camelCase "flags" = "Flags" := rfl
  have hnames : (ofGroup g).enums.map (·.name) =
      ((ofGroup g).enums.map (·.setting)).map camelCase := by
    rw [List.map_map]
    exact List.map_congr_left fun e he => (named_enums e he).name
  have henums : ((ofGroup g).enums.map (·.name)).Nodup := by
    rw [hnames]
    exact nodup_map_camelCase (hnodup.sublist (settings_enums_sublist g))
      (List.forall_mem_map.mpr hsnake)
  have hname : ∀ e ∈ (ofGroup g).enums, e.name = "Flags" ↔ e.setting = "flags" := by
    intro e he
    rw [(named_enums e he).name, ← hflags]
    exact ⟨fun h => eq_of_camelCase_eq (hsnake e he) (by decide) h, congrArg camelCase⟩
  rw [typeNames, ← List.concat_eq_append, List.nodup_concat, and_iff_left henums]
  simp only [List.mem_map, not_exists, not_and]
  exact forall₂_congr fun e he => not_congr (hname e he)

/-- **The names of the generated source.**  The items of the source of a group that was made are a
type for each enumeration, that of the flags, the accessor of predicates and a getter for each
setting.  No two methods have one name exactly when no setting has that of the accessor.  When the
names of the enumerations are in snake case, no two types have one name exactly when no enumeration
has that of the flags; and when the values of an enumeration are, no two variants have one name. -/
theorem names_of_make {name doc : String} {parent? : Option String} {ds : List Declaration}
    (hmake : SettingGroup.make name doc parent? ds = .ok g) : NamesOf g (ofGroup g) where
  items := publicItems_code named_enums
  variants e he := variants_infix_code he
  enums := enums_ofGroup g
  getters := getters_ofGroup g
  methods_nodup_iff := by
    obtain ⟨hnodup, -, rfl⟩ := SettingGroup.make_eq_ok_iff.mp hmake
    exact methodNames_nodup_iff hnodup
  types_nodup_iff hsnake := by
    obtain ⟨hnodup, -, rfl⟩ := SettingGroup.make_eq_ok_iff.mp hmake
    exact typeNames_nodup_iff hnodup hsnake
  variants_nodup e he hsnake := by
    obtain ⟨d, hd, values, hkind, rfl⟩ := exists_declaration he
    obtain ⟨-, -, hvalues⟩ := SettingGroup.sound_of_make hmake d hd values hkind
    have hvariants : (values.map fun v => EnumVariant.mk (camelCase v) v).map (·.variant) =
        values.map camelCase := by
      rw [List.map_map]
      rfl
    rw [hvariants]
    exact nodup_map_camelCase hvalues fun v hv => hsnake ⟨camelCase v, v⟩ (List.mem_map_of_mem hv)

/-- The shared settings define no name twice. -/
theorem shared_names_distinct :
    ∃ g, Shared.settings = .ok g ∧ (ofGroup g).typeNames.Nodup ∧ (ofGroup g).methodNames.Nodup ∧
      ∀ e ∈ (ofGroup g).enums, (e.variants.map (·.variant)).Nodup := by
  have hmake : Shared.settings =
      .ok ⟨"shared", "Shared settings group", none, Shared.settingDeclarations⟩ := rfl
  have hnames := names_of_make hmake
  have hvalues : ∀ e ∈ (ofGroup ⟨"shared", "Shared settings group", none,
      Shared.settingDeclarations⟩).enums, ∀ v ∈ e.variants, IsSnakeCase v.text := by
    decide
  exact ⟨_, hmake, (hnames.types_nodup_iff (by decide)).mpr (by decide),
    hnames.methods_nodup_iff.mpr (by decide), fun e he => hnames.variants_nodup e he (hvalues e he)⟩

/-- A boolean called like the accessor of predicates, and an enumeration called like the flags, of
two values that are one name in camel case. -/
def clashingGroup : SettingGroup :=
  ⟨"g", "", none, [⟨"numbered_predicate", "", .bool false⟩, ⟨"flags", "", .enum ["a_b", "a__b"]⟩]⟩

/-- The group is accepted, and its source has two types of one name, two methods of one name, and
two variants of one name. -/
theorem clashingGroup_defines_twice :
    SettingGroup.make "g" "" none clashingGroup.declarations = .ok clashingGroup ∧
      (ofGroup clashingGroup).code.publicItems = ["pub enum Flags \x7b", "pub struct Flags \x7b",
        "pub fn numbered_predicate(&self, p: usize) -> bool \x7b",
        "pub fn flags(&self) -> Flags \x7b",
        "pub fn numbered_predicate(&self) -> bool \x7b"] ∧
      Code.block "pub enum Flags \x7b"
          (Code.line "/// `a_b`." ++ Code.line "AB," ++ Code.line "/// `a__b`." ++ Code.line "AB,")
          "\x7d" <:+: (ofGroup clashingGroup).code := by
  have hopenings : (ofGroup clashingGroup).enums.map EnumType.opening ++
      [opening, predicateOpening] ++ (ofGroup clashingGroup).getters.map Getter.opening =
      ["pub enum Flags \x7b", "pub struct Flags \x7b",
        "pub fn numbered_predicate(&self, p: usize) -> bool \x7b",
        "pub fn flags(&self) -> Flags \x7b",
        "pub fn numbered_predicate(&self) -> bool \x7b"] := by
    decide
  refine ⟨rfl, (publicItems_code named_enums).trans hopenings, ?_⟩
  exact variants_infix_code (f := ofGroup clashingGroup)
    (e := ⟨"flags", "Flags", [⟨"AB", "a_b"⟩, ⟨"AB", "a__b"⟩]⟩) (by decide)

end Flags

end Isaforge
