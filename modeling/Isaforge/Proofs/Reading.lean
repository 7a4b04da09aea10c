import Mathlib.Data.List.Basic
import Isaforge.Proofs.Catalog
import Isaforge.Proofs.Renaming

/-!
# Reading — definitions are read back from their text

A text is read from the front.  `Legible write key ends x y` says that `x` and `y` are told apart,
as far as `key` goes, by what is written for them, and that their texts end at the same place,
whatever follows, as long as that goes on with one of the characters `ends` or not at all.

Names are words, without any of the characters that the texts put between them, so a word ends at
the first of these (`legible_word`).  From there it goes up by what is put around and between the
parts: lists (`legible_intercalate`), heads with their types, expressions by induction, definitions
and patterns.  What is read of a variable is its name, `Var.byName`.
-/

namespace Isaforge

/-! ### Reading from the front -/

section Reading

variable {α β : Type} {write : α → List Char} {key : α → β} {cs ends sep : List Char} {c : Char}
  {x y : α} {xs ys : List α} {r r' w w' : List Char}

/-- The text is at its end or goes on with one of the characters. -/
def Continues (cs r : List Char) : Prop :=
  ∀ c ∈ r.head?, c ∈ cs

theorem continues_nil (cs : List Char) : Continues cs [] :=
  fun _ h => (nomatch h)

theorem continues_cons : Continues cs (c :: r) ↔ c ∈ cs := by
  simp [Continues]

theorem Continues.mono (h : Continues cs r) (hcs : cs ⊆ ends) : Continues ends r :=
  fun c hc => hcs (h c hc)

/-- A text that begins otherwise is not empty, and still does so with more behind it. -/
theorem not_continues_append (h : ¬ Continues cs w) (r : List Char) :
    ¬ Continues cs (w ++ r) := by
  cases w with
  | nil => exact absurd (continues_nil cs) h
  | cons c w =>
      rw [continues_cons] at h
      rwa [List.cons_append, continues_cons]

/-- What is written for `x` and `y` tells them apart by `key` and ends at the same place, when it
goes on with one of the characters. -/
def Legible (write : α → List Char) (key : α → β) (ends : List Char) (x y : α) : Prop :=
  ∀ r r', Continues ends r → Continues ends r' → write x ++ r = write y ++ r' →
    key x = key y ∧ r = r'

/-- A text without the characters `cs` ends where one of them follows. -/
theorem takeWhile_append_of_continues (hw : ∀ c ∈ w, c ∉ cs) (hr : Continues cs r) :
    (w ++ r).takeWhile (· ∉ cs) = w := by
  have hstop : r.takeWhile (· ∉ cs) = [] := by
    cases r with
    | nil => rfl
    | cons c r =>
        rw [continues_cons] at hr
        exact List.takeWhile_cons_of_neg (by simpa using hr)
  rw [List.takeWhile_append_of_pos (fun c hc => by simpa using hw c hc), hstop, List.append_nil]

theorem eq_of_append_eq_append (hw : ∀ c ∈ w, c ∉ cs) (hw' : ∀ c ∈ w', c ∉ cs)
    (hr : Continues cs r) (hr' : Continues cs r') (h : w ++ r = w' ++ r') : w = w' ∧ r = r' := by
  have hword : w = w' := by
    rw [← takeWhile_append_of_continues hw hr, h, takeWhile_append_of_continues hw' hr']
  subst hword
  exact ⟨rfl, List.append_cancel_left h⟩

/-! ### Lists -/

theorem intercalate_cons (sep w : List Char) (ws : List (List Char)) :
    sep.intercalate (w :: ws) = w ++ ws.flatMap (sep ++ ·) := by
  induction ws generalizing w with
  | nil => simp
  | cons w' ws ih =>
      rw [List.intercalate_cons_cons, ih, List.flatMap_cons, List.append_assoc,
        List.append_assoc]

/-- The rest of a list goes on with the separator, or with what follows the list. -/
theorem continues_rest (hsep : sep.head? = some c) (hc : c ∈ cs) (hends : ends ⊆ cs)
    (hr : Continues ends r) : Continues cs ((xs.flatMap fun x => sep ++ write x) ++ r) := by
  obtain ⟨sep', rfl⟩ := List.head?_eq_some_iff.mp hsep
  cases xs with
  | nil => exact hr.mono hends
  | cons x xs => exact continues_cons.mpr hc

variable (cs) in
theorem legible_rest (hsep : sep.head? = some c) (hc : c ∈ cs) (hends : ends ⊆ cs) (hnot : c ∉ ends)
    (h : ∀ x ∈ xs, ∀ y ∈ ys, Legible write key cs x y) :
    Legible (fun xs => xs.flatMap fun x => sep ++ write x) (List.map key) ends xs ys := by
  obtain ⟨sep', rfl⟩ := List.head?_eq_some_iff.mp hsep
  intro r r' hr hr' heq
  induction xs generalizing ys with
  | nil =>
      cases ys with
      | nil => exact ⟨rfl, heq⟩
      | cons y ys =>
          -- What follows the one list would begin with the separator of the other.
          simp only [List.flatMap_nil, List.nil_append] at heq
          rw [heq] at hr
          exact absurd (continues_cons.mp hr) hnot
  | cons x xs ih =>
      cases ys with
      | nil =>
          simp only [List.flatMap_nil, List.nil_append] at heq
          rw [← heq] at hr'
          exact absurd (continues_cons.mp hr') hnot
      | cons y ys =>
          simp only [List.flatMap_cons, List.append_assoc] at heq
          obtain ⟨hkey, hrest⟩ := h x List.mem_cons_self y List.mem_cons_self _ _
            (continues_rest hsep hc hends hr) (continues_rest hsep hc hends hr')
            (List.append_cancel_left heq)
          obtain ⟨hkeys, hr⟩ := ih (fun x hx y hy => h x (List.mem_cons_of_mem _ hx) y
            (List.mem_cons_of_mem _ hy)) hrest
          exact ⟨by rw [List.map_cons, List.map_cons, hkey, hkeys], hr⟩

variable (cs) in
/-- A list is read by its elements, if none of them begins like what may follow the list. -/
theorem legible_intercalate (hsep : sep.head? = some c) (hc : c ∈ cs) (hends : ends ⊆ cs)
    (hnot : c ∉ ends) (h : ∀ x ∈ xs, ∀ y ∈ ys, Legible write key cs x y)
    (hxs : ∀ x ∈ xs, ¬ Continues ends (write x)) (hys : ∀ y ∈ ys, ¬ Continues ends (write y)) :
    Legible (fun xs => sep.intercalate (xs.map write)) (List.map key) ends xs ys := by
  intro r r' hr hr' heq
  cases xs with
  | nil =>
      cases ys with
      | nil => exact ⟨rfl, heq⟩
      | cons y ys =>
          -- What follows the empty list would begin like an element.
          simp only [List.map_nil, List.intercalate_nil, List.nil_append, List.map_cons,
            intercalate_cons, List.append_assoc] at heq
          exact absurd (heq ▸ hr) (not_continues_append (hys y List.mem_cons_self) _)
  | cons x xs =>
      cases ys with
      | nil =>
          simp only [List.map_nil, List.intercalate_nil, List.nil_append, List.map_cons,
            intercalate_cons, List.append_assoc] at heq
          exact absurd (heq ▸ hr') (not_continues_append (hxs x List.mem_cons_self) _)
      | cons y ys =>
          simp only [List.map_cons, intercalate_cons, List.append_assoc, List.flatMap_map] at heq
          obtain ⟨hkey, hrest⟩ := h x List.mem_cons_self y List.mem_cons_self _ _
            (continues_rest hsep hc hends hr) (continues_rest hsep hc hends hr') heq
          obtain ⟨hkeys, hr⟩ := legible_rest cs hsep hc hends hnot
            (fun x hx y hy => h x (List.mem_cons_of_mem _ hx) y (List.mem_cons_of_mem _ hy))
            r r' hr hr' hrest
          exact ⟨by rw [List.map_cons, List.map_cons, hkey, hkeys], hr⟩

end Reading

/-! ### Words -/

/-- The characters that texts put around and between names. -/
def delimiters : List Char :=
  ['(', ')', ',', '.', ';', '<', '=', '>', ' ']

/-- The name is not empty and has no character that a text puts between names. -/
def Word (s : String) : Prop :=
  s ≠ "" ∧ ∀ c ∈ s.toList, c ∉ delimiters

instance (s : String) : Decidable (Word s) :=
  decidable_of_iff (s ≠ "" ∧ s.toList.all (· ∉ delimiters) = true) (by simp [Word])

/-- Letters, digits and underscores make words. -/
theorem word_of_isAlphanum {s : String} (hne : s ≠ "")
    (h : ∀ c ∈ s.toList, c.isAlphanum ∨ c = '_') : Word s := by
  have hdelimiters : ∀ c ∈ delimiters, ¬ (c.isAlphanum ∨ c = '_') := by simp [delimiters]
  exact ⟨hne, fun c hc hmem => hdelimiters c hmem (h c hc)⟩

theorem legible_word {v w : String} (hv : Word v) (hw : Word w) :
    Legible String.toList id delimiters v w := by
  intro r r' hr hr' heq
  obtain ⟨hword, hrest⟩ := eq_of_append_eq_append hv.2 hw.2 hr hr' heq
  exact ⟨String.toList_inj.mp hword, hrest⟩

/-- A word does not begin like what is put between words. -/
theorem Word.not_continues {w : String} (hw : Word w) {ends : List Char} (h : ends ⊆ delimiters)
    (r : List Char) : ¬ Continues ends (w.toList ++ r) := by
  cases hchars : w.toList with
  | nil => exact absurd (String.toList_eq_nil_iff.mp hchars) hw.1
  | cons c cs =>
      have hc : c ∉ delimiters := hw.2 c (hchars ▸ List.mem_cons_self)
      rw [List.cons_append, continues_cons]
      exact fun hmem => hc (h hmem)

theorem Word.not_continues_nil {w : String} (hw : Word w) {ends : List Char}
    (h : ends ⊆ delimiters) : ¬ Continues ends w.toList := by
  have hnot := hw.not_continues h []
  rwa [List.append_nil] at hnot

/-! ### Types -/

namespace ValueType

theorem toList_text (t : ValueType) :
    t.text.toList = t.lane.kind.letter :: (t.lane.bits.repr.toList ++
      if t.isVector then 'x' :: t.lanes.repr.toList else []) := by
  have hletter : t.lane.kind.letter.toString.toList = [t.lane.kind.letter] := by simp
  rw [text, String.toList_append, String.toList_append, hletter]
  split
  · rw [String.toList_append]
    rfl
  · rfl

theorem eq_of_toList_repr_eq {m n : Nat} (h : m.repr.toList = n.repr.toList) : m = n := by
  rw [Nat.toList_repr, Nat.toList_repr] at h
  rw [← Nat.ofDigitChars_ten_toDigits (n := m), h, Nat.ofDigitChars_ten_toDigits]

/-- A number is written with digits only. -/
theorem isDigit_of_mem_toList_repr {c : Char} {n : Nat} (h : c ∈ n.repr.toList) :
    c.isDigit = true := by
  rw [Nat.toList_repr] at h
  exact Nat.isDigit_of_mem_toDigits (by decide) (by decide) h

/-- A type is written with letters and digits. -/
theorem isAlphanum_of_mem_text {t : ValueType} {c : Char} (hc : c ∈ t.text.toList) :
    c.isAlphanum = true := by
  have hletter : t.lane.kind.letter.isAlphanum = true := by cases t.lane.kind <;> rfl
  have hdigits : ∀ n : Nat, ∀ c ∈ n.repr.toList, c.isAlphanum = true := by
    intro n c hc
    rw [Char.isAlphanum, isDigit_of_mem_toList_repr hc, Bool.or_true]
  rw [toList_text] at hc
  rcases List.mem_cons.mp hc with rfl | hc
  · exact hletter
  · rcases List.mem_append.mp hc with hc | hc
    · exact hdigits _ c hc
    · split at hc
      · rcases List.mem_cons.mp hc with rfl | hc
        · rfl
        · exact hdigits _ c hc
      · cases hc

theorem word_text (t : ValueType) : Word t.text := by
  refine word_of_isAlphanum ?_ fun c hc => .inl (isAlphanum_of_mem_text hc)
  intro h
  have := congrArg String.toList h
  rw [toList_text] at this
  cases this

theorem letter_injective : Function.Injective LaneKind.letter := by
  intro k k' h
  have hread : ∀ k : LaneKind, LaneKind.ofLetter? k.letter = some k := by
    intro k
    cases k <;> rfl
  exact Option.some.inj (by rw [← hread, h, hread])

theorem Valid.lanes_ne_zero {t : ValueType} (h : t.Valid) : t.lanes ≠ 0 := by
  intro hzero
  have hpower := h.2.1
  rw [hzero] at hpower
  cases hpower

/-- One lane is written by leaving it out, and more by their number. -/
theorem lanes_eq {t u : ValueType} (ht : t.Valid) (hu : u.Valid)
    (h : (if t.isVector then 'x' :: t.lanes.repr.toList else []) =
      if u.isVector then 'x' :: u.lanes.repr.toList else []) : t.lanes = u.lanes := by
  have ht := ht.lanes_ne_zero
  have hu := hu.lanes_ne_zero
  simp only [isVector, decide_eq_true_eq] at h
  split at h
  · split at h
    · exact eq_of_toList_repr_eq (List.cons.inj h).2
    · cases h
  · split at h
    · cases h
    · omega

/-- Valid types are told apart by their texts. -/
theorem eq_of_text_eq {t u : ValueType} (ht : t.Valid) (hu : u.Valid) (h : t.text = u.text) :
    t = u := by
  have hx : ∀ n : Nat, ∀ c ∈ n.repr.toList, c ∉ ['x'] := by
    intro n c hc hmem
    have hdigit := isDigit_of_mem_toList_repr hc
    rw [List.mem_singleton.mp hmem] at hdigit
    exact absurd hdigit (by decide)
  have hends : ∀ t : ValueType,
      Continues ['x'] (if t.isVector then 'x' :: t.lanes.repr.toList else []) := by
    intro t
    split
    · exact continues_cons.mpr List.mem_cons_self
    · exact continues_nil _
  have hlist := congrArg String.toList h
  rw [toList_text, toList_text, List.cons.injEq] at hlist
  obtain ⟨hletter, hrest⟩ := hlist
  -- The width ends at the `x` of the lanes.
  obtain ⟨hbits, hlanes⟩ := eq_of_append_eq_append (hx _) (hx _) (hends t) (hends u) hrest
  have hlanes : t.lanes = u.lanes := lanes_eq ht hu hlanes
  obtain ⟨⟨kind, bits⟩, lanes⟩ := t
  obtain ⟨⟨kind', bits'⟩, lanes'⟩ := u
  obtain rfl : kind = kind' := letter_injective hletter
  obtain rfl : bits = bits' := eq_of_toList_repr_eq hbits
  obtain rfl : lanes = lanes' := hlanes
  rfl

end ValueType

/-! ### Heads -/

/-- The head applies an instruction of the group, of which the name is a word, and its types are
valid. -/
structure Head.Spelled (insts : InstructionGroup) (h : Head) : Prop where
  word : Word h.name
  types : ∀ t ∈ h.types, t.Valid
  known : ∃ i, insts.get? h.inst = some i ∧ i.name = h.name

variable {insts : InstructionGroup}

theorem Head.toList_text (h : Head) :
    h.text.toList = h.name.toList ++ h.types.flatMap fun t => ['.'] ++ t.text.toList := by
  rw [text, String.toList_append, String.toList_join, List.flatMap_map]
  refine congrArg (h.name.toList ++ ·) (List.flatMap_congr fun t _ => ?_)
  rw [String.toList_append]
  rfl

theorem legible_types {ts us : List ValueType} (hts : ∀ t ∈ ts, t.Valid)
    (hus : ∀ u ∈ us, u.Valid) :
    Legible (fun ts : List ValueType => ts.flatMap fun t => ['.'] ++ t.text.toList) (List.map id)
      ['('] ts us := by
  refine legible_rest delimiters rfl (by decide) (by decide) (by decide) ?_
  intro t ht u hu r r' hr hr' heq
  obtain ⟨htext, hrest⟩ := legible_word t.word_text u.word_text r r' hr hr' heq
  exact ⟨ValueType.eq_of_text_eq (hts t ht) (hus u hu) htext, hrest⟩

/-- A head ends where its arguments begin. -/
theorem Head.legible (hinsts : insts.Reachable) {h h' : Head} (hh : h.Spelled insts)
    (hh' : h'.Spelled insts) : Legible (fun h : Head => h.text.toList) id ['('] h h' := by
  intro r r' hr hr' heq
  simp only [toList_text, List.append_assoc] at heq
  obtain ⟨hname, hrest⟩ := legible_word hh.word hh'.word _ _
    (continues_rest rfl (by decide) (by decide) hr) (continues_rest rfl (by decide) (by decide) hr')
    heq
  obtain ⟨htypes, hr⟩ := legible_types hh.types hh'.types r r' hr hr' hrest
  -- The name says which instruction of the group it is.
  obtain ⟨i, hi, hiname⟩ := hh.known
  obtain ⟨j, hj, hjname⟩ := hh'.known
  have hname : h.name = h'.name := hname
  have hinst : h.inst = h'.inst :=
    hinsts.id_eq hi hj (by rw [hiname, hname, hjname])
  rw [List.map_id, List.map_id] at htypes
  obtain ⟨inst, name, types⟩ := h
  obtain ⟨inst', name', types'⟩ := h'
  obtain rfl : inst = inst' := hinst
  obtain rfl : name = name' := hname
  obtain rfl : types = types' := htypes
  exact ⟨rfl, hr⟩

/-! ### Expressions -/

/-- The variable as its name alone says. -/
def Var.byName (v : Var) : Var :=
  ⟨0, v.name⟩

namespace Expr

/-- The names in the expression are words, and its instructions those of the group. -/
structure Spelled (insts : InstructionGroup) (e : Expr) : Prop where
  words : ∀ v, e.Occurs v → Word v.name
  heads : ∀ h ∈ e.heads, h.Spelled insts

variable {k : Head} {args : List Expr} {e e' : Expr} {r r' : List Char}

theorem Spelled.head (h : (app k args).Spelled insts) : k.Spelled insts :=
  h.heads k (by rw [Expr.heads]; exact List.mem_append_right _ (List.mem_singleton_self _))

theorem Spelled.arg (h : (app k args).Spelled insts) (he : e ∈ args) : e.Spelled insts where
  words v hv := h.words v (.app he hv)
  heads k' hk' := by
    refine h.heads k' ?_
    rw [Expr.heads, headsAll_eq_flatMap]
    exact List.mem_append_left _ (List.mem_flatMap.mpr ⟨e, he, hk'⟩)

/-- What may follow an expression. -/
def ends : List Char :=
  [')', ',', ';', ' ']

theorem toList_text_app (head : Head) (args : List Expr) :
    (app head args).text.toList =
      head.text.toList ++ '(' :: ([',', ' '].intercalate (args.map (·.text.toList)) ++ [')']) := by
  rw [text, textAll_eq_map, String.toList_append, String.toList_append, String.toList_append,
    String.toList_intercalate, List.map_map, List.append_assoc, List.append_assoc]
  rfl

/-- An expression begins with a name. -/
theorem Spelled.not_continues (h : e.Spelled insts) {cs : List Char} (hcs : cs ⊆ delimiters) :
    ¬ Continues cs e.text.toList := by
  cases e with
  | var v => exact (h.words v .var).not_continues_nil hcs
  | app head args =>
      rw [toList_text_app, Head.toList_text, List.append_assoc]
      exact h.head.word.not_continues hcs _

/-- A variable does not go on with type arguments or arguments. -/
theorem word_append_ne {w : String} (hw : Word w) (h : k.Spelled insts) (hr : Continues ends r) :
    w.toList ++ r ≠ (app k args).text.toList ++ r' := by
  intro heq
  rw [toList_text_app, Head.toList_text, List.append_assoc, List.append_assoc,
    List.cons_append] at heq
  have hopening : Continues ['('] ('(' ::
      ([',', ' '].intercalate (args.map (·.text.toList)) ++ [')'] ++ r')) :=
    continues_cons.mpr List.mem_cons_self
  obtain ⟨-, rfl⟩ := legible_word hw h.word _ _ (hr.mono (by decide))
    (continues_rest rfl (by decide) (by decide) hopening) heq
  -- What follows the variable is a dot or a parenthesis.
  cases h : k.types with
  | nil =>
      rw [h] at hr
      exact absurd (continues_cons.mp hr) (by decide)
  | cons t ts =>
      rw [h] at hr
      exact absurd (continues_cons.mp hr) (by decide)

/-- An expression is read but for the identities of its variables. -/
theorem legible (hinsts : insts.Reachable) (h : e.Spelled insts) (h' : e'.Spelled insts) :
    Legible (fun e : Expr => e.text.toList) (rename Var.byName) ends e e' := by
  induction e generalizing e' with
  | var v =>
      intro r r' hr hr' heq
      cases e' with
      | var w =>
          obtain ⟨hname, hrest⟩ := legible_word (h.words v .var) (h'.words w .var) r r'
            (hr.mono (by decide)) (hr'.mono (by decide)) heq
          exact ⟨congrArg (fun name => Expr.var ⟨0, name⟩) hname, hrest⟩
      | app head args => exact absurd heq (word_append_ne (h.words v .var) h'.head hr)
  | app head args ih =>
      intro r r' hr hr' heq
      cases e' with
      | var w => exact absurd heq.symm (word_append_ne (h'.words w .var) h.head hr')
      | app head' args' =>
          simp only [toList_text_app, List.append_assoc, List.cons_append, List.nil_append] at heq
          obtain ⟨hhead, hargs⟩ := Head.legible hinsts h.head h'.head _ _
            (continues_cons.mpr (by decide)) (continues_cons.mpr (by decide)) heq
          obtain rfl : head = head' := hhead
          have hread : Legible
              (fun args : List Expr => [',', ' '].intercalate (args.map (·.text.toList)))
              (List.map (rename Var.byName)) [')'] args args' :=
            legible_intercalate ends rfl (by decide) (by decide) (by decide)
              (fun a ha b hb => ih a ha (h.arg ha) (h'.arg hb))
              (fun a ha => (h.arg ha).not_continues (by decide))
              (fun b hb => (h'.arg hb).not_continues (by decide))
          obtain ⟨hargs, hrest⟩ := hread _ _ (continues_cons.mpr (by decide))
            (continues_cons.mpr (by decide)) (List.cons.inj hargs).2
          exact ⟨by rw [rename_app, rename_app, hargs], (List.cons.inj hrest).2⟩

end Expr

/-! ### Definitions -/

namespace Definition

/-- The names in the definition are words, and its instructions those of the group. -/
structure Spelled (insts : InstructionGroup) (d : Definition) : Prop where
  words : ∀ v ∈ d.outputs, Word v.name
  value : d.value.expr.Spelled insts

/-- What may follow a definition. -/
def ends : List Char :=
  [';', ' ']

theorem toList_bindingText (names : List String) :
    (∃ name, names = [name] ∧ (bindingText names).toList = name.toList) ∨
      (bindingText names).toList =
        '(' :: ([',', ' '].intercalate (names.map String.toList) ++ [')']) := by
  have htuple : ("(" ++ ", ".intercalate names ++ ")").toList =
      '(' :: ([',', ' '].intercalate (names.map String.toList) ++ [')']) := by
    rw [String.toList_append, String.toList_append, String.toList_intercalate, List.append_assoc]
    rfl
  match names with
  | [name] => exact .inl ⟨name, rfl, rfl⟩
  | [] => exact .inr htuple
  | _ :: _ :: _ => exact .inr htuple

/-- A single name is no tuple of names. -/
theorem legible_bindingText {ns ns' : List String} (hns : ∀ n ∈ ns, Word n)
    (hns' : ∀ n ∈ ns', Word n) :
    Legible (fun ns => (bindingText ns).toList) (List.map id) [' '] ns ns' := by
  intro r r' hr hr' heq
  have hopening : ∀ {w : String}, Word w → ∀ {q q' : List Char}, w.toList ++ q ≠ '(' :: q' := by
    intro w hw q q' hparen
    have hopens : ['('] ⊆ delimiters := by decide
    refine hw.not_continues hopens q ?_
    rw [hparen]
    exact continues_cons.mpr List.mem_cons_self
  rcases toList_bindingText ns with ⟨n, rfl, htext⟩ | htext <;>
    rcases toList_bindingText ns' with ⟨n', rfl, htext'⟩ | htext' <;>
    simp only [htext, htext', List.cons_append, List.append_assoc] at heq
  · obtain ⟨hname, hrest⟩ := legible_word (hns n List.mem_cons_self) (hns' n' List.mem_cons_self)
      r r' (hr.mono (by decide)) (hr'.mono (by decide)) heq
    exact ⟨congrArg (fun n => [n]) hname, hrest⟩
  · exact absurd heq (hopening (hns n List.mem_cons_self))
  · exact absurd heq.symm (hopening (hns' n' List.mem_cons_self))
  · have hread : Legible (fun ns => [',', ' '].intercalate (ns.map String.toList)) (List.map id)
        [')'] ns ns' := by
      refine legible_intercalate delimiters rfl (by decide) (by decide) (by decide)
        (fun n hn n' hn' => legible_word (hns n hn) (hns' n' hn'))
        (fun n hn => (hns n hn).not_continues_nil (by decide))
        (fun n hn => (hns' n hn).not_continues_nil (by decide))
    obtain ⟨hnames, hrest⟩ := hread _ _ (continues_cons.mpr (by decide))
      (continues_cons.mpr (by decide)) (List.cons.inj heq).2
    exact ⟨hnames, (List.cons.inj hrest).2⟩

variable {d d' : Definition}

theorem toList_text (d : Definition) :
    d.text.toList = (bindingText (d.outputs.map (·.name))).toList ++
      ' ' :: '<' :: '<' :: ' ' :: d.value.expr.text.toList := by
  rw [text, String.toList_append, String.toList_append, List.append_assoc]
  rfl

/-- A definition begins with a name or with a parenthesis. -/
theorem Spelled.not_continues (h : d.Spelled insts) : ¬ Continues [' '] d.text.toList := by
  rw [toList_text]
  rcases toList_bindingText (d.outputs.map (·.name)) with ⟨n, hn, htext⟩ | htext
  · have hword : Word n := by
      obtain ⟨v, hv, rfl⟩ := List.mem_map.mp (hn ▸ List.mem_singleton_self n)
      exact h.words v hv
    rw [htext]
    exact hword.not_continues (by decide) _
  · rw [htext, List.cons_append, continues_cons]
    decide

/-- A definition is read but for the identities of its variables. -/
theorem legible (hinsts : insts.Reachable) (h : d.Spelled insts) (h' : d'.Spelled insts) :
    Legible (fun d : Definition => d.text.toList) (rename Var.byName) ends d d' := by
  have hwords : ∀ {d : Definition}, d.Spelled insts → ∀ n ∈ d.outputs.map (·.name), Word n := by
    intro d hd n hn
    obtain ⟨v, hv, rfl⟩ := List.mem_map.mp hn
    exact hd.words v hv
  intro r r' hr hr' heq
  simp only [toList_text, List.append_assoc, List.cons_append] at heq
  obtain ⟨hnames, hvalue⟩ := legible_bindingText (hwords h) (hwords h') _ _
    (continues_cons.mpr (by decide)) (continues_cons.mpr (by decide)) heq
  simp only [List.cons.injEq, true_and] at hvalue
  obtain ⟨hvalue, hrest⟩ := Expr.legible hinsts h.value h'.value r r' (hr.mono (by decide))
    (hr'.mono (by decide)) hvalue
  have houtputs : d.outputs.map Var.byName = d'.outputs.map Var.byName := by
    rw [List.map_id, List.map_id] at hnames
    have hmap := congrArg (List.map fun name => Var.mk 0 name) hnames
    rwa [List.map_map, List.map_map] at hmap
  rw [← Application.expr_rename, ← Application.expr_rename] at hvalue
  exact ⟨by rw [rename, rename, houtputs, Application.expr_injective hvalue], hrest⟩

end Definition

/-! ### Patterns -/

theorem Pattern.toList_text (p : Pattern) :
    p.text.toList = [';', ' '].intercalate (p.defs.map (·.text.toList)) := by
  rw [text, String.toList_intercalate, List.map_map]
  rfl

/-- A pattern ends where the definitions do. -/
theorem Pattern.legible (hinsts : insts.Reachable) {p p' : Pattern}
    (h : ∀ d ∈ p.defs, d.Spelled insts) (h' : ∀ d ∈ p'.defs, d.Spelled insts) :
    Legible (fun p : Pattern => p.text.toList) (fun p => p.defs.map (·.rename Var.byName)) [' ']
      p p' := by
  intro r r' hr hr' heq
  simp only [toList_text] at heq
  exact legible_intercalate Definition.ends rfl (by decide) (by decide) (by decide)
    (fun d hd d' hd' => Definition.legible hinsts (h d hd) (h' d' hd'))
    (fun d hd => (h d hd).not_continues) (fun d hd => (h' d hd).not_continues) r r' hr hr' heq

end Isaforge
