import Mathlib.Algebra.Order.Ring.Nat
import Mathlib.Data.List.TakeWhile
import Isaforge.Proofs.Reading

/-!
# Spelling — which texts the reader of types takes

A type has one text, but the reader takes others for it: its two numbers may have zeros before
them, and a plus sign before these (`Text.Numeral`, `ValueType.SpelledBy`).  So `i032x+4` is read,
as the type of which the text is `i32x4` (`ValueType.padded_read`).

`ValueType.parse_reads` says **what comes of any text**: the valid types are read from their
spellings, and nothing else is; every other text is an unknown type.  A text without such padding
(`ValueType.Unpadded`) is read only when it is the text of a valid type, so that no two of them are
read as one type.
-/

namespace Isaforge

namespace Text

variable {cs : List Char} {c : Char} {limit n zeros : Nat}

/-! ### Numbers -/

/-- The digits of the number behind so many zeros. -/
def padded (zeros n : Nat) : List Char :=
  List.replicate zeros '0' ++ n.repr.toList

/-- The characters write the number: its digits, maybe behind zeros, maybe behind a plus sign. -/
def Numeral (n : Nat) (cs : List Char) : Prop :=
  ∃ zeros, cs = padded zeros n ∨ cs = '+' :: padded zeros n

theorem numeral_repr (n : Nat) : Numeral n n.repr.toList :=
  ⟨0, .inl rfl⟩

theorem isDigit_of_mem_padded (h : c ∈ padded zeros n) : c.isDigit = true := by
  rcases List.mem_append.mp h with h | h
  · rw [List.eq_of_mem_replicate h]
    rfl
  · exact ValueType.isDigit_of_mem_toList_repr h

theorem padded_ne_nil : padded zeros n ≠ [] := by
  simp [padded]

/-- A number of digits has no sign. -/
theorem padded_ne_plus {rest : List Char} : padded zeros n ≠ '+' :: rest := by
  intro h
  have hdigit : '+'.isDigit = true := isDigit_of_mem_padded (h ▸ List.mem_cons_self)
  exact absurd hdigit (by decide)

theorem digitsValue_padded (zeros n : Nat) : digitsValue (padded zeros n) = n := by
  change Nat.ofDigitChars 10 (padded zeros n) 0 = n
  rw [padded, Nat.ofDigitChars_append, Nat.ofDigitChars_replicate_zero, Nat.mul_zero,
    Nat.toList_repr, Nat.ofDigitChars_ten_toDigits]

theorem digitsValue_concat (cs : List Char) (c : Char) :
    digitsValue (cs ++ [c]) = 10 * digitsValue cs + (c.toNat - '0'.toNat) :=
  List.foldl_append

/-- A digit is the one that is written for its value. -/
theorem eq_digitChar_of_isDigit (h : c.isDigit = true) :
    c.toNat - '0'.toNat < 10 ∧ c = Nat.digitChar (c.toNat - '0'.toNat) := by
  have hdigits : ∀ d < 10, Char.ofNat (48 + d) = Nat.digitChar d := by decide
  obtain ⟨hfirst, hlast⟩ := Bool.and_eq_true_iff.mp h
  have hfirst : 48 ≤ c.toNat := of_decide_eq_true hfirst
  have hlast : c.toNat ≤ 57 := of_decide_eq_true hlast
  have hzero : '0'.toNat = 48 := rfl
  refine ⟨by omega, ?_⟩
  rw [← hdigits _ (by omega), hzero, Nat.add_sub_cancel' hfirst, Char.ofNat_toNat]

/-- Digits are those of the number they write, behind zeros. -/
theorem exists_padded (hne : cs ≠ []) (hdigits : ∀ c ∈ cs, c.isDigit = true) :
    ∃ zeros, cs = padded zeros (digitsValue cs) := by
  induction cs using List.reverseRecOn with
  | nil => exact absurd rfl hne
  | append_singleton cs c ih =>
      obtain ⟨hinit, hlast⟩ := List.forall_mem_append.mp hdigits
      obtain ⟨hlt, hc⟩ := eq_digitChar_of_isDigit (hlast c List.mem_cons_self)
      rw [digitsValue_concat]
      generalize c.toNat - '0'.toNat = d at hlt hc
      simp only [padded, Nat.toList_repr] at ih ⊢
      have hd : Nat.toDigits 10 d = [c] := hc ▸ Nat.toDigits_of_lt_base hlt
      by_cases hnil : cs = []
      · subst hnil
        have hzero : 10 * digitsValue [] + d = d := Nat.zero_add d
        exact ⟨0, by rw [hzero, hd]; rfl⟩
      obtain ⟨zeros, hcs⟩ := ih hnil hinit
      -- A zero before the digit becomes padding; the digits of any other number stay.
      by_cases hzero : digitsValue cs = 0
      · rw [hzero, Nat.toDigits_zero, ← List.replicate_succ'] at hcs
        exact ⟨zeros + 1, by rw [hzero, Nat.mul_zero, Nat.zero_add, hd, ← hcs]⟩
      · refine ⟨zeros, ?_⟩
        rw [← Nat.toDigits_append_toDigits (by decide) (Nat.pos_of_ne_zero hzero) hlt, hd,
          ← List.append_assoc, ← hcs]

theorem readDigits_eq_some_iff : readDigits cs = some n ↔ ∃ zeros, cs = padded zeros n := by
  have hrefused : (cs.isEmpty || !cs.all Char.isDigit) = true ↔
      ¬ (cs ≠ [] ∧ ∀ c ∈ cs, c.isDigit = true) := by
    rw [Bool.or_eq_true, List.isEmpty_iff, Bool.not_eq_true', ← Bool.not_eq_true, List.all_eq_true,
      ne_eq, not_and_or, not_not]
  rw [readDigits]
  constructor
  · intro h
    split at h
    · cases h
    · rename_i hcs
      rw [hrefused, not_not] at hcs
      cases h
      exact exists_padded hcs.1 hcs.2
  · rintro ⟨zeros, rfl⟩
    have htaken : padded zeros n ≠ [] ∧ ∀ c ∈ padded zeros n, c.isDigit = true :=
      ⟨padded_ne_nil, fun _ => isDigit_of_mem_padded⟩
    rw [if_neg (hrefused.not.mpr (not_not.mpr htaken)), digitsValue_padded]

/-- The numbers up to the limit are read from their numerals. -/
theorem readNat_eq_some_iff : readNat limit cs = some n ↔ Numeral n cs ∧ n ≤ limit := by
  unfold readNat
  rw [Option.filter_eq_some_iff, decide_eq_true_iff]
  refine and_congr_left fun _ => ?_
  rw [readDigits_eq_some_iff]
  split
  · rename_i rest
    refine exists_congr fun zeros => ?_
    rw [List.cons.injEq, eq_comm (a := '+' :: rest), or_iff_right padded_ne_plus]
    exact (and_iff_right rfl).symm
  · rename_i hsigned
    refine exists_congr fun zeros => ?_
    rw [or_iff_left (hsigned _)]

/-- A numeral has no letters. -/
theorem Numeral.notMem_x (h : Numeral n cs) : 'x' ∉ cs := by
  have hdigits : ∀ zeros, 'x' ∉ padded zeros n := fun zeros hx =>
    absurd (isDigit_of_mem_padded hx) (by decide)
  obtain ⟨zeros, rfl | rfl⟩ := h
  · exact hdigits zeros
  · simpa using hdigits zeros

end Text

/-! ### Valid types -/

/-- Powers of two are the numbers that the test finds. -/
theorem isPowerOfTwo_iff {n : Nat} : isPowerOfTwo n = true ↔ ∃ k, n = 2 ^ k := by
  rw [isPowerOfTwo, Bool.and_eq_true, bne_iff_ne, beq_iff_eq]
  exact Nat.ne_zero_and_sub_one_eq_zero_iff_isPowerOfTwo

namespace ValueType

variable {s : String} {t : ValueType} {n : Nat} {ws rest : List Char}

theorem valid_iff_lanes : t.Valid ↔ t.lane.Valid ∧ ∃ k ≤ 8, t.lanes = 2 ^ k := by
  rw [Valid, isPowerOfTwo_iff]
  refine and_congr_right fun _ => ?_
  have hmax : ∀ k, 2 ^ k ≤ maxLanes ↔ k ≤ 8 := fun k =>
    Nat.pow_le_pow_iff_right (m := 8) Nat.one_lt_two
  constructor
  · rintro ⟨⟨k, hk⟩, hle⟩
    exact ⟨k, (hmax k).mp (hk ▸ hle), hk⟩
  · rintro ⟨k, hle, hk⟩
    exact ⟨⟨k, hk⟩, hk ▸ (hmax k).mpr hle⟩

/-! ### Spellings -/

/-- The text spells the type: with the letter of its lane and a numeral of the width, and, unless
the type is a scalar, an `x` and a numeral of its lanes. -/
def SpelledBy (t : ValueType) (s : String) : Prop :=
  ∃ bits rest, s.toList = t.lane.kind.letter :: (bits ++ rest) ∧ Text.Numeral t.lane.bits bits ∧
    if t.isVector then ∃ lanes, rest = 'x' :: lanes ∧ Text.Numeral t.lanes lanes else rest = []

theorem spelledBy_text (t : ValueType) : t.SpelledBy t.text := by
  refine ⟨_, _, toList_text t, Text.numeral_repr _, ?_⟩
  split
  · exact ⟨_, rfl, Text.numeral_repr _⟩
  · rfl

/-- The lane is valid, and the reader can count the lanes. -/
def Readable (t : ValueType) : Prop :=
  t.lane.Valid ∧ 0 < t.lanes ∧ t.lanes ≤ maxNumber

theorem ofLetter?_eq_some_iff {c : Char} {kind : LaneKind} :
    LaneKind.ofLetter? c = some kind ↔ c = kind.letter := by
  constructor
  · intro h
    rw [LaneKind.ofLetter?.eq_def] at h
    split at h <;> cases h <;> rfl
  · rintro rfl
    cases kind <;> rfl

/-- No lane is wider than 64 bits. -/
theorem bits_le {l : Lane} (h : l.Valid) : l.bits ≤ 64 := by
  have hwidths : ∀ kind : LaneKind, ∀ bits ∈ kind.widths, bits ≤ 64 := by
    intro kind
    cases kind <;> decide
  exact hwidths l.kind l.bits h

theorem readScalar_eq_some_iff : readScalar ws = some t ↔
    (∃ bits, ws = t.lane.kind.letter :: bits ∧ Text.Numeral t.lane.bits bits) ∧
      t.lane.Valid ∧ t.lanes = 1 := by
  cases ws with
  | nil => simp [readScalar]
  | cons letter digits =>
      simp only [readScalar, Option.bind_eq_bind, Option.bind_eq_some_iff,
        Text.readNat_eq_some_iff, ofLetter?_eq_some_iff, Option.ite_none_right_eq_some,
        Option.some.injEq, List.cons.injEq]
      constructor
      · rintro ⟨bits, ⟨hbits, -⟩, kind, rfl, hvalid, rfl⟩
        exact ⟨⟨digits, ⟨rfl, rfl⟩, hbits⟩, hvalid, rfl⟩
      · obtain ⟨⟨kind, bits⟩, lanes⟩ := t
        rintro ⟨⟨digits, ⟨rfl, rfl⟩, hbits⟩, hvalid, rfl⟩
        have hle : bits ≤ maxNumber := (bits_le hvalid).trans (by decide)
        exact ⟨bits, ⟨hbits, hle⟩, kind, rfl, hvalid, rfl⟩

theorem readLanes_eq_some_iff :
    readLanes rest = some n ↔ Text.Numeral n rest ∧ 2 ≤ n ∧ n ≤ maxNumber := by
  rw [readLanes, Option.filter_eq_some_iff, Text.readNat_eq_some_iff, decide_eq_true_iff]
  tauto

/-! ### Reading -/

theorem parse_of_notMem (h : 'x' ∉ s.toList) :
    parse s = match readScalar s.toList with
      | none => .error (.unknownType s)
      | some t => .ok t := by
  have hall : ∀ c ∈ s.toList, decide (c ≠ 'x') = true := fun c hc =>
    decide_eq_true fun heq => h (heq ▸ hc)
  rw [parse, List.takeWhile_eq_self_iff.mpr hall, List.dropWhile_eq_nil_iff.mpr hall]
  cases readScalar s.toList <;> rfl

theorem parse_of_append (hs : s.toList = ws ++ 'x' :: rest) (h : 'x' ∉ ws) :
    parse s = match readScalar ws with
      | none => .error (.unknownType s)
      | some t => match readLanes rest with
        | none => .error (.unknownType s)
        | some n => t.times n := by
  have hall : ∀ c ∈ ws, decide (c ≠ 'x') = true := fun c hc =>
    decide_eq_true fun heq => h (heq ▸ hc)
  rw [parse, hs, List.takeWhile_append_of_pos hall, List.dropWhile_append_of_pos hall]
  simp only [ne_eq, not_true_eq_false, decide_false, Bool.false_eq_true, not_false_eq_true,
    List.takeWhile_cons_of_neg, List.dropWhile_cons_of_neg, List.append_nil]
  cases readScalar ws <;> rfl

theorem text_of_isVector (h : t.isVector = true) :
    t.text = (scalar t.lane).text ++ "x" ++ toString t.lanes := by
  have hscalar : (scalar t.lane).isVector = false := rfl
  simp only [text, h, hscalar, if_true, Bool.false_eq_true, if_false, String.append_empty,
    String.append_assoc]
  rfl

/-- A vector is made of its scalar, or refused under its own name. -/
theorem scalar_times (hlane : t.lane.Valid) (hvector : t.isVector = true) :
    (scalar t.lane).times t.lanes = if t.Valid then .ok t else .error (.unknownType t.text) := by
  have hvalid : (isPowerOfTwo t.lanes && decide (t.lanes ≤ maxLanes)) = true ↔ t.Valid := by
    rw [Bool.and_eq_true, decide_eq_true_iff]
    exact (and_iff_right hlane).symm
  rw [times, text_of_isVector hvector]
  simp only [scalar, Nat.one_mul, hvalid]

/-- A type that a text spells and that the reader can take in is read when it is valid, and refused
under its own text when it is not. -/
theorem parse_of_spelledBy (ht : t.Readable) (h : t.SpelledBy s) :
    parse s = if t.Valid then .ok t else .error (.unknownType t.text) := by
  obtain ⟨hlane, hpos, hmax⟩ := ht
  obtain ⟨bits, rest, hs, hbits, hrest⟩ := h
  have hx : 'x' ∉ t.lane.kind.letter :: bits := by
    have hletter : 'x' ≠ t.lane.kind.letter := by cases t.lane.kind <;> decide
    rw [List.mem_cons, not_or]
    exact ⟨hletter, hbits.notMem_x⟩
  have hscalar : readScalar (t.lane.kind.letter :: bits) = some (scalar t.lane) :=
    readScalar_eq_some_iff.mpr ⟨⟨bits, rfl, hbits⟩, hlane, rfl⟩
  split at hrest
  · rename_i hvector
    obtain ⟨lanes, rfl, hlanes⟩ := hrest
    have hread : readLanes lanes = some t.lanes :=
      readLanes_eq_some_iff.mpr ⟨hlanes, of_decide_eq_true hvector, hmax⟩
    rw [parse_of_append (by rw [hs, List.cons_append]) hx, hscalar, hread,
      ← scalar_times hlane hvector]
  · rename_i hvector
    subst hrest
    rw [List.append_nil] at hs
    have hone : t.lanes = 1 := by
      have hle : ¬ 1 < t.lanes := fun hlt => hvector (decide_eq_true hlt)
      omega
    have hself : scalar t.lane = t := by rw [scalar, ← hone]
    have hvalid : t.Valid := ⟨hlane, hone ▸ rfl, hone ▸ by decide⟩
    rw [parse_of_notMem (hs ▸ hx), hs, hscalar, if_pos hvalid, hself]

theorem spelledBy_of_readScalar (h : readScalar s.toList = some t) :
    t.Readable ∧ t.SpelledBy s := by
  obtain ⟨⟨bits, hs, hbits⟩, hlane, hone⟩ := readScalar_eq_some_iff.mp h
  have hvector : ¬ t.isVector = true := by simp [isVector, hone]
  refine ⟨⟨hlane, by omega, hone ▸ by decide⟩, bits, [], by rw [hs, List.append_nil], hbits, ?_⟩
  rw [if_neg hvector]

theorem spelledBy_of_readLanes (hs : s.toList = ws ++ 'x' :: rest) (h : readScalar ws = some t)
    (hlanes : readLanes rest = some n) :
    (⟨t.lane, n⟩ : ValueType).Readable ∧ (⟨t.lane, n⟩ : ValueType).SpelledBy s := by
  obtain ⟨⟨bits, rfl, hbits⟩, hlane, -⟩ := readScalar_eq_some_iff.mp h
  obtain ⟨hnumeral, hmore, hmax⟩ := readLanes_eq_some_iff.mp hlanes
  have hvector : (⟨t.lane, n⟩ : ValueType).isVector = true := decide_eq_true hmore
  refine ⟨⟨hlane, Nat.lt_of_lt_of_le Nat.zero_lt_two hmore, hmax⟩, bits, 'x' :: rest, hs, hbits, ?_⟩
  rw [if_pos hvector]
  exact ⟨rest, rfl, hnumeral⟩

/-- Other texts are refused as they are. -/
theorem parse_of_not_spelledBy (h : ∀ t : ValueType, t.Readable → ¬ t.SpelledBy s) :
    parse s = .error (.unknownType s) := by
  by_cases hx : 'x' ∈ s.toList
  · obtain ⟨ws, rest, hs, hws⟩ := List.eq_append_cons_of_mem hx
    rw [parse_of_append hs hws]
    cases hscalar : readScalar ws with
    | none => rfl
    | some t =>
        cases hlanes : readLanes rest with
        | none => rfl
        | some n =>
            obtain ⟨ht, hspelled⟩ := spelledBy_of_readLanes hs hscalar hlanes
            exact absurd hspelled (h _ ht)
  · rw [parse_of_notMem hx]
    cases hscalar : readScalar s.toList with
    | none => rfl
    | some t =>
        obtain ⟨ht, hspelled⟩ := spelledBy_of_readScalar hscalar
        exact absurd hspelled (h _ ht)

theorem Valid.readable (h : t.Valid) : t.Readable :=
  ⟨h.1, Nat.pos_of_ne_zero h.lanes_ne_zero, h.2.2.trans (by decide)⟩

/-- The three outcomes. -/
theorem parse_cases (s : String) :
    (∃ t : ValueType, t.Valid ∧ t.SpelledBy s ∧ parse s = .ok t) ∨
      (∃ t : ValueType, ¬ t.Valid ∧ t.SpelledBy s ∧ parse s = .error (.unknownType t.text)) ∨
      parse s = .error (.unknownType s) := by
  by_cases hspelled : ∃ t : ValueType, t.Readable ∧ t.SpelledBy s
  · obtain ⟨t, ht, hs⟩ := hspelled
    have hparse := parse_of_spelledBy ht hs
    by_cases hvalid : t.Valid
    · exact .inl ⟨t, hvalid, hs, by rw [hparse, if_pos hvalid]⟩
    · exact .inr (.inl ⟨t, hvalid, hs, by rw [hparse, if_neg hvalid]⟩)
  · exact .inr (.inr (parse_of_not_spelledBy fun t ht hs => hspelled ⟨t, ht, hs⟩))

theorem parse_eq_ok_iff : parse s = .ok t ↔ t.Valid ∧ t.SpelledBy s := by
  constructor
  · intro h
    rcases parse_cases s with ⟨u, hvalid, hs, hparse⟩ | ⟨u, -, -, hparse⟩ | hparse
    · cases h.symm.trans hparse
      exact ⟨hvalid, hs⟩
    · cases h.symm.trans hparse
    · cases h.symm.trans hparse
  · rintro ⟨hvalid, hs⟩
    rw [parse_of_spelledBy hvalid.readable hs, if_pos hvalid]

theorem parse_text (h : t.Valid) : parse t.text = .ok t :=
  parse_eq_ok_iff.mpr ⟨h, t.spelledBy_text⟩

/-! ### Padding -/

/-- The text has no plus sign, and in it no number begins with a zero: before a zero there is a
digit. -/
def Unpadded (s : String) : Prop :=
  '+' ∉ s.toList ∧
    ∀ before after, s.toList = before ++ '0' :: after → ∃ c ∈ before.getLast?, c.isDigit = true

/-- Behind a letter, a numeral in an unpadded text is the number as it is written. -/
theorem Unpadded.eq_repr {digits : List Char} {c : Char} (h : Unpadded s)
    (before after : List Char) (hs : s.toList = before ++ c :: (digits ++ after))
    (hc : c.isDigit = false) (hdigits : Text.Numeral n digits) : digits = n.repr.toList := by
  obtain ⟨zeros, rfl | rfl⟩ := hdigits
  · cases zeros with
    | zero => rfl
    | succ zeros =>
        obtain ⟨c', hc', hdigit⟩ :=
          h.2 (before ++ [c]) (Text.padded zeros n ++ after) (by rw [hs, List.append_assoc]; rfl)
        rw [List.getLast?_concat] at hc'
        obtain rfl := Option.some.inj hc'
        exact absurd hdigit (by simp [hc])
  · refine absurd ?_ h.1
    rw [hs]
    simp

theorem letter_isDigit (kind : LaneKind) : kind.letter.isDigit = false := by
  cases kind <;> rfl

/-- Neither widths nor powers of two up to the largest number of lanes have a zero. -/
theorem zero_notMem_text (h : t.Valid) : '0' ∉ t.text.toList := by
  have hwidths : ∀ kind : LaneKind, ∀ bits ∈ kind.widths, '0' ∉ Nat.toDigits 10 bits := by
    intro kind
    cases kind <;> decide
  have hpowers : ∀ k ≤ 8, '0' ∉ Nat.toDigits 10 (2 ^ k) := by decide
  obtain ⟨hlane, k, hk, hlanes⟩ := valid_iff_lanes.mp h
  have hletter : '0' ≠ t.lane.kind.letter := by cases t.lane.kind <;> decide
  rw [toList_text, List.mem_cons, List.mem_append, not_or, not_or, Nat.toList_repr]
  refine ⟨hletter, hwidths _ _ hlane, ?_⟩
  split
  · rw [List.mem_cons, not_or, Nat.toList_repr, hlanes]
    exact ⟨by decide, hpowers k hk⟩
  · exact List.not_mem_nil

theorem unpadded_text (h : t.Valid) : Unpadded t.text := by
  constructor
  · intro hplus
    exact absurd (isAlphanum_of_mem_text hplus) (by decide)
  · intro before after heq
    exact absurd (heq ▸ List.mem_append_right _ List.mem_cons_self) (zero_notMem_text h)

/-- Of the spellings of a type, the one without padding is its text. -/
theorem text_eq_of_unpadded (hs : t.SpelledBy s) (h : Unpadded s) : t.text = s := by
  obtain ⟨bits, rest, hs, hbits, hrest⟩ := hs
  obtain rfl := h.eq_repr [] rest hs (letter_isDigit _) hbits
  rw [← String.toList_inj, toList_text, hs]
  refine congrArg (t.lane.kind.letter :: t.lane.bits.repr.toList ++ ·) ?_
  split at hrest
  · rename_i hvector
    obtain ⟨lanes, rfl, hlanes⟩ := hrest
    have hsplit : s.toList = (t.lane.kind.letter :: t.lane.bits.repr.toList) ++
        'x' :: (lanes ++ []) := by
      rw [hs, List.append_nil, List.cons_append]
    rw [if_pos hvector, ← h.eq_repr _ _ hsplit rfl hlanes]
  · rename_i hvector
    rw [if_neg hvector, hrest]

theorem parse_eq_ok_iff_of_unpadded (h : Unpadded s) : parse s = .ok t ↔ t.Valid ∧ t.text = s := by
  rw [parse_eq_ok_iff]
  refine and_congr_right fun _ => ⟨fun hs => text_eq_of_unpadded hs h, ?_⟩
  rintro rfl
  exact t.spelledBy_text

/-! ### What is read -/

/-- What comes of reading the text. -/
structure Reads (s : String) : Prop where
  /-- The types that are read are the valid ones that the text spells. -/
  accepted_iff : ∀ t, parse s = .ok t ↔ t.Valid ∧ t.SpelledBy s
  /-- Otherwise the type is unknown, under the text, or under that of the type it spells. -/
  refused : ∀ e, parse s = .error e → e = .unknownType s ∨
    ∃ t : ValueType, ¬ t.Valid ∧ t.SpelledBy s ∧ e = .unknownType t.text
  /-- The text of a valid type is read, and has no padding. -/
  named : ∀ t : ValueType, t.Valid → t.text = s → parse s = .ok t ∧ Unpadded s
  /-- Without padding, the types that are read are the valid ones of this text. -/
  unpadded_iff : Unpadded s → ∀ t, parse s = .ok t ↔ t.Valid ∧ t.text = s
  /-- No two texts without padding are read as one type. -/
  injective : ∀ s' t, Unpadded s → Unpadded s' → parse s = .ok t → parse s' = .ok t → s = s'
  /-- A text without padding that is the text of no valid type is an unknown type. -/
  unnamed : Unpadded s → (∀ t : ValueType, t.Valid → t.text ≠ s) →
    parse s = .error (.unknownType s)

/-- **What comes of reading a text**, whatever it is.  The valid types are read from their
spellings, and from nothing else.  So from texts without padding they are read exactly where these
are their own. -/
theorem parse_reads (s : String) : Reads s where
  accepted_iff _ := parse_eq_ok_iff
  refused := by
    intro e he
    rcases parse_cases s with ⟨t, -, -, hparse⟩ | ⟨t, hinvalid, hs, hparse⟩ | hparse
    · cases he.symm.trans hparse
    · cases he.symm.trans hparse
      exact .inr ⟨t, hinvalid, hs, rfl⟩
    · cases he.symm.trans hparse
      exact .inl rfl
  named := by
    rintro t hvalid rfl
    exact ⟨parse_text hvalid, unpadded_text hvalid⟩
  unpadded_iff h _ := parse_eq_ok_iff_of_unpadded h
  injective := by
    intro s' t h h' hs hs'
    rw [← ((parse_eq_ok_iff_of_unpadded h).mp hs).2, ((parse_eq_ok_iff_of_unpadded h').mp hs').2]
  unnamed := by
    intro h hnone
    rcases parse_cases s with ⟨t, hvalid, hs, -⟩ | ⟨t, -, hs, hparse⟩ | hparse
    · exact absurd (text_eq_of_unpadded hs h) (hnone t hvalid)
    · rwa [text_eq_of_unpadded hs h] at hparse
    · exact hparse

/-- A text with padding is read, though no valid type is written so, as what another text says. -/
theorem padded_read : ∃ t : ValueType, parse "i032x+4" = .ok t ∧
    (∀ u : ValueType, u.Valid → u.text ≠ "i032x+4") ∧ t.text = "i32x4" ∧ parse "i32x4" = .ok t := by
  refine ⟨⟨⟨.int, 32⟩, 4⟩, rfl, ?_, rfl, rfl⟩
  intro u hu htext
  exact absurd (htext ▸ (unpadded_text hu).1) (by decide)

end ValueType

end Isaforge
