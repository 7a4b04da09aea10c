import Isaforge.Proofs.Nesting
import Isaforge.Proofs.Settings.Names

/-!
# Nesting — the source of a group of settings

The source of the flags of a group is made of blocks (`Flags.Inline.braced_code`) when the names
and the values of its settings have no braces and no line breaks.  So it is nested, on whatever
page it is written.

Its lines begin with text of the generator, but those of the variants of an enumeration, and those
that say how these are displayed.  When the name of the variant, or of the type, begins with white
space, so does that line (`Flags.Spaced`).
-/

namespace Isaforge

open Source

variable {own : String → Prop}

/-! ### Enumerations -/

/-- The names of the type and its variants, and their texts, have no braces and no line breaks. -/
structure EnumType.Inline (e : EnumType) : Prop where
  name : Source.Inline e.name
  variant : ∀ v ∈ e.variants, Source.Inline v.variant
  text : ∀ v ∈ e.variants, Source.Inline v.text

/-- The line is that of a variant whose name begins with white space, or it says how a variant is
displayed and the name of the type begins with white space. -/
def EnumType.Spaced (e : EnumType) (line : String) : Prop :=
  ∃ v ∈ e.variants,
    startsBlank v.variant = true ∧ line = v.variant ++ "," ∨
    startsBlank e.name = true ∧
      line = e.name ++ "::" ++ v.variant ++ " => \"" ++ v.text ++ "\","

/-- A line that begins with a name begins with white space only when the name does. -/
theorem startsBlank_of_append {s t : String} (ht : startsBlank t = false)
    (h : startsBlank (s ++ t) = true) : startsBlank s = true := by
  rw [startsBlank, String.toList_append, List.head?_append] at h
  rw [startsBlank] at ht ⊢
  cases hhead : s.toList.head? with
  | none =>
      rw [hhead, Option.none_or, ht] at h
      cases h
  | some c =>
      rw [hhead] at h
      exact h

/-- The code of an enumeration is braced, with its spaced variants as the only exceptions. -/
theorem EnumType.Inline.braced_code {e : EnumType} (h : e.Inline)
    (hspaced : ∀ line, e.Spaced line → own line) (group : String) : Braced own (e.code group) := by
  have hvariants : Braced own e.variantCode := by
    refine .flatMap fun v hv => .append (braced_doc _) (.line ?_ fun hblank => ⟨?_, ?_⟩)
    · exact Inline.flat ((h.variant v hv).append (by decide))
    · exact hspaced _ ⟨v, hv, .inl ⟨startsBlank_of_append (by decide) hblank, rfl⟩⟩
    · exact visible_ne_nil_of_mem (c := ',') (by simp) (by decide)
  have htexts : Braced own (e.variants.flatMap fun v =>
      Code.line (e.name ++ "::" ++ v.variant ++ " => \"" ++ v.text ++ "\",")) := by
    refine .flatMap fun v hv => .line ?_ fun hblank => ⟨hspaced _ ⟨v, hv, .inr ⟨?_, rfl⟩⟩, ?_⟩
    · exact Inline.flat (.append (.append (.append (.append (.append h.name (by decide))
        (h.variant v hv)) (by decide)) (h.text v hv)) (by decide))
    · simp only [String.append_assoc] at hblank
      exact startsBlank_of_append (Begun.append (by decide) _).unindented hblank
    · exact visible_ne_nil_of_mem (c := ',') (by simp) (by decide)
  have hdisplay : Braced own e.displayCode := by
    refine .block (opening_around (by decide) (by decide) h.name (by decide) (by decide))
      closing_brace ?_
    refine .block (opening_of_begun (by decide) (by decide) (by decide)) closing_brace ?_
    exact .block (opening_of_begun (by decide) (by decide) (by decide))
      (closing_of_closes (by decide) (by decide) (by decide) (by decide)) htexts
  have hopening : Opening e.opening :=
    opening_around (by decide) (by decide) h.name (by decide) (by decide)
  rw [EnumType.code_eq]
  exact .append
    (.append (.append (braced_doc _) (.text (by decide) (by decide)))
      (.block hopening closing_brace hvariants))
    (.append (.append .blank hdisplay) .blank)

/-! ### Getters -/

namespace Getter

/-- The names that the getter reads its bytes with have no braces and no line breaks. -/
def InlineReading : Reading → Prop
  | .predicate _ | .byte _ => True
  | .choice _ type variants => Source.Inline type ∧ ∀ v ∈ variants, Source.Inline v

theorem inline_resultType {reading : Reading} (h : InlineReading reading) :
    Source.Inline (resultType reading) := by
  cases reading with
  | predicate index =>
      rw [resultType]
      decide
  | byte offset =>
      rw [resultType]
      decide
  | choice offset type variants => exact h.1

/-- The arms that read a stored index name its variants behind the type. -/
theorem braced_indexArms {type : String} (htype : Source.Inline type) {variants : List String}
    (h : ∀ v ∈ variants, Source.Inline v) (index : Nat) :
    Braced own (indexArms type index variants) := by
  induction variants generalizing index with
  | nil => exact .nil
  | cons v vs ih =>
      rw [List.forall_mem_cons] at h
      refine .append (.text ?_ ?_) (ih h.2 (index + 1))
      · exact .append (.append (.append (.append (.append (.of_digits index) (by decide)) htype)
          (by decide)) h.1) (by decide)
      · exact .append (.append (.append (.append (.append (.of_digits index) _) _) _) _) _

theorem braced_arms {type : String} (htype : Source.Inline type) {variants : List String}
    (h : ∀ v ∈ variants, Source.Inline v) : Braced own (arms type variants) := by
  cases variants with
  | nil => exact .nil
  | cons v vs =>
      rw [List.forall_mem_cons] at h
      refine .append (braced_indexArms htype h.2 1) (.text ?_ ?_)
      · exact .append (.append (.append (.append (by decide) htype) (by decide)) h.1) (by decide)
      · exact .append (.append (.append (.append (by decide) _) _) _) _

theorem braced_body {reading : Reading} (h : InlineReading reading) :
    Braced own (body reading) := by
  cases reading with
  | predicate n | byte n => exact .around (by decide) (by decide) (.of_digits n) (by decide)
  | choice offset type variants =>
      exact .block
        (opening_around (by decide) (by decide) (.of_digits offset) (by decide) (by decide))
        closing_brace (braced_arms h.1 h.2)

/-- Every getter is braced, as the variants of its enumeration stand behind the type in it. -/
theorem braced_code {γ : Getter} (hname : Source.Inline γ.name) (h : InlineReading γ.reading) :
    Braced own γ.code := by
  have hopening : Opening γ.opening := by
    refine opening_append ?_ (.append (.append (.append (by decide) _) _) _) (by decide) (by decide)
    exact .append (.append (.append (by decide) hname) (by decide)) (inline_resultType h)
  exact .append (braced_doc γ.doc) (.block hopening closing_brace (braced_body h))

end Getter

/-! ### Flags -/

namespace Flags

theorem inline_byteText (b : UInt8) : Source.Inline (byteText b) := by
  have hdigit : ∀ n < 16, Source.Inline (hexDigit n) := by decide
  have hlt : b.toNat < 256 := b.toNat_lt
  exact .append (.append (by decide) (hdigit (b.toNat / 16) (by omega)))
    (hdigit (b.toNat % 16) (by omega))

/-- The names that the flags are written with have no braces and no line breaks. -/
structure Inline (f : Flags) : Prop where
  enums : ∀ e ∈ f.enums, e.Inline
  getters : ∀ γ ∈ f.getters, Source.Inline γ.name ∧ Getter.InlineReading γ.reading

theorem braced_predicateCode (f : Flags) : Braced own f.predicateCode := by
  have hopening : Opening predicateOpening :=
    opening_of_begun (by decide) (by decide) (by decide)
  exact .append (braced_doc _) (.block hopening closing_brace
    (.around (by decide) (by decide) (.of_digits f.booleanOffset) (by decide)))

/-- The bytes of the array are digits, whatever the settings are. -/
theorem braced_arrayCode (f : Flags) : Braced own f.arrayCode := by
  have hopening : Opening opening := opening_of_begun (by decide) (by decide) (by decide)
  exact .block hopening closing_brace
    (.around (by decide) (by decide) (.of_digits f.size) (by decide))

theorem braced_defaultCode (bytes : List UInt8) :
    Braced own (defaultCode (bytes.map byteText)) := by
  have hbytes : Source.Inline (", ".intercalate (bytes.map byteText)) :=
    .intercalate (by decide) (List.forall_mem_map.mpr fun b _ => inline_byteText b)
  refine .block (opening_of_begun (by decide) (by decide) (by decide)) closing_brace ?_
  refine .block (opening_of_begun (by decide) (by decide) (by decide)) closing_brace ?_
  refine .block (opening_of_begun (by decide) (by decide) (by decide)) closing_brace ?_
  exact .around (by decide) (by decide) hbytes (by decide)

/-- The lines that begin with white space because a name does. -/
def Spaced (f : Flags) (line : String) : Prop :=
  ∃ e ∈ f.enums, e.Spaced line

/-- The source of the flags is made of blocks. -/
theorem Inline.braced_code {f : Flags} (h : f.Inline) : Braced f.Spaced f.code := by
  have henums : ∀ c ∈ f.enums.map (EnumType.code f.group), Braced f.Spaced c :=
    List.forall_mem_map.mpr fun e he =>
      (h.enums e he).braced_code (fun _ hline => ⟨e, he, hline⟩) f.group
  have hmethods : Braced f.Spaced f.methods.flatten := by
    refine .flatten (List.forall_mem_cons.mpr ⟨braced_predicateCode f, ?_⟩)
    refine List.forall_mem_map.mpr fun γ hγ => .append .blank ?_
    exact Getter.braced_code (h.getters γ hγ).1 (h.getters γ hγ).2
  have himpl : Braced f.Spaced (Code.block "impl Flags \x7b" f.methods.flatten "\x7d") :=
    .block (opening_of_begun (by decide) (by decide) (by decide)) closing_brace hmethods
  rw [code_eq_flatten]
  refine .flatten ?_
  simp only [parts, List.forall_mem_append, List.forall_mem_cons]
  exact ⟨⟨⟨.text (by decide) (by decide), .blank, List.forall_mem_nil _⟩, henums⟩, braced_doc f.doc,
    .text (by decide) (by decide), braced_arrayCode f, .blank, himpl, .blank,
    braced_defaultCode f.defaults, List.forall_mem_nil _⟩

end Flags

/-! ### Groups -/

/-- The names and values of the settings have no braces and no line breaks. -/
structure SettingGroup.Inline (g : SettingGroup) : Prop where
  name : ∀ d ∈ g.declarations, Source.Inline d.name
  value : ∀ d ∈ g.declarations, ∀ values, d.kind = .enum values → ∀ v ∈ values, Source.Inline v

namespace Flags

variable {g : SettingGroup}

/-- Every getter reads a setting that was declared. -/
theorem exists_setting {γ : Getter} (hγ : γ ∈ (ofGroup g).getters) :
    ∃ s : Setting, s.toDeclaration ∈ g.declarations ∧ γ = Getter.ofSetting s := by
  obtain ⟨s, hs, rfl⟩ := List.mem_map.mp hγ
  have hmem : s.toDeclaration ∈ g.wide ++ g.narrow :=
    g.declarations_settings ▸ List.mem_map_of_mem hs
  refine ⟨s, ?_, rfl⟩
  rcases List.mem_append.mp hmem with hmem | hmem
  · exact (List.mem_filter.mp hmem).1
  · exact (List.mem_filter.mp hmem).1

/-- The flags of a group are written with the names and values of its settings. -/
theorem inline_ofGroup (h : g.Inline) : (ofGroup g).Inline where
  enums := by
    intro e he
    obtain ⟨d, hd, values, hkind, rfl⟩ := exists_declaration he
    exact {
      name := (h.name d hd).camelCase
      variant := List.forall_mem_map.mpr fun v hv => (h.value d hd values hkind v hv).camelCase
      text := List.forall_mem_map.mpr fun v hv => h.value d hd values hkind v hv }
  getters := by
    intro γ hγ
    obtain ⟨s, hs, rfl⟩ := exists_setting hγ
    refine ⟨h.name _ hs, ?_⟩
    rw [Getter.ofSetting]
    cases hkind : s.kind with
    | bool _ | num _ => trivial
    | enum values =>
        exact ⟨(h.name _ hs).camelCase, List.forall_mem_map.mpr fun v hv =>
          (h.value _ hs values hkind v hv).camelCase⟩

end Flags

end Isaforge
