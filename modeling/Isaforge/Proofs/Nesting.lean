import Mathlib.Data.List.Infix
import Mathlib.Data.List.TakeWhile
import Isaforge.Proofs.CamelCase
import Isaforge.Proofs.Characters
import Isaforge.Proofs.Page

/-!
# Nesting — braces and indentation of generated code

Braces are read line by line: `readLine` gives how many are open after a line, and fails at one that
closes none.  Comments are skipped.

Lines are nested when their braces are balanced and their indentation follows them (`Nested`): a
line stands four columns further right for each brace that is open before it, but one that begins
with a closing brace stands where the block was opened, and blank lines are left empty.  Single
texts may be excepted, which have white space of their own at their beginning.

Code that is put together from lines without braces, comments and blocks (`Braced`) is nested,
whatever the depth it is written at (`Braced.nested`).  Lines are mostly literal text around names,
so it remains to see that names have no braces and no line breaks (`Inline`), and that camel case
gives them none.
-/

namespace Isaforge.Source

variable {s t : String} {n m k : Nat} {c : Char}

/-! ### Reading braces -/

/-- How many braces are open after a character; none when it closes a brace that is not open. -/
def brace (n : Nat) (c : Char) : Option Nat :=
  if c = '\x7b' then some (n + 1)
  else if c = '\x7d' then (if n = 0 then none else some (n - 1))
  else some n

/-- How many braces are open after a text. -/
def braces (n : Nat) (s : String) : Option Nat :=
  s.toList.foldlM brace n

/-- The white space that a line begins with. -/
def indentation (line : String) : String :=
  String.ofList (line.toList.takeWhile Text.isBlank)

/-- What stands behind the indentation of a line. -/
def visible (line : String) : List Char :=
  line.toList.dropWhile Text.isBlank

/-- The line begins with two slashes, but for its indentation. -/
def isComment (line : String) : Bool :=
  "//".toList.isPrefixOf (visible line)

/-- How many braces are open after a line; comments do not count. -/
def readLine (n : Nat) (line : String) : Option Nat :=
  if isComment line then some n else braces n line

/-- The line begins with a closing brace, but for its indentation. -/
def closes (line : String) : Bool :=
  (visible line).head? = some '\x7d'

/-- The text begins with white space. -/
def startsBlank (s : String) : Bool :=
  s.toList.head?.any Text.isBlank

/-- The text of `n` spaces. -/
def spaces (n : Nat) : String :=
  String.ofList (List.replicate n ' ')

/-- The depth behind two texts is that behind the second, entered from the first. -/
theorem braces_append (n : Nat) (s t : String) :
    braces n (s ++ t) = (braces n s).bind (braces · t) := by
  rw [braces, String.toList_append, List.foldlM_append]
  rfl

theorem toList_spaces (n : Nat) : (spaces n).toList = List.replicate n ' ' :=
  String.toList_ofList

/-- Braces that are open before stay open. -/
theorem brace_add (k : Nat) (h : brace n c = some m) : brace (k + n) c = some (k + m) := by
  rw [brace] at h ⊢
  split at h
  · rename_i hopens
    cases h
    rw [if_pos hopens, Nat.add_assoc]
  · rename_i hopens
    rw [if_neg hopens]
    split at h
    · rename_i hcloses
      rw [if_pos hcloses]
      split at h
      · cases h
      · rename_i hpos
        cases h
        rw [if_neg (by omega), Nat.add_sub_assoc (by omega)]
    · rename_i hcloses
      cases h
      rw [if_neg hcloses]

/-- What stays balanced stays so at a greater depth. -/
theorem braces_add (k : Nat) (h : braces n s = some m) : braces (k + n) s = some (k + m) := by
  rw [braces] at h ⊢
  generalize s.toList = cs at h ⊢
  induction cs generalizing n with
  | nil =>
      cases h
      rfl
  | cons c cs ih =>
      rw [List.foldlM_cons, Option.bind_eq_bind, Option.bind_eq_some_iff] at h ⊢
      obtain ⟨n', hc, hcs⟩ := h
      exact ⟨k + n', brace_add k hc, ih hcs⟩

theorem braces_spaces (k n : Nat) : braces n (spaces k) = some n := by
  rw [braces, toList_spaces]
  induction k with
  | zero => rfl
  | succ k ih =>
      rw [List.replicate_succ, List.foldlM_cons]
      exact ih

theorem dropWhile_spaces_append {p : Char → Bool} (hp : p ' ' = true) (k : Nat) (s : String) :
    (spaces k ++ s).toList.dropWhile p = s.toList.dropWhile p := by
  rw [String.toList_append, toList_spaces]
  exact List.dropWhile_append_of_pos fun c hc => by rw [List.eq_of_mem_replicate hc, hp]

theorem visible_spaces_append (k : Nat) (s : String) : visible (spaces k ++ s) = visible s :=
  dropWhile_spaces_append (by decide) k s

theorem isComment_spaces_append (k : Nat) (s : String) :
    isComment (spaces k ++ s) = isComment s := by
  rw [isComment, isComment, visible_spaces_append]

theorem closes_spaces_append (k : Nat) (s : String) : closes (spaces k ++ s) = closes s := by
  rw [closes, closes, visible_spaces_append]

/-- A text without white space at its beginning is indented by what is put before it. -/
theorem indentation_spaces_append (k : Nat) (h : startsBlank s = false) :
    indentation (spaces k ++ s) = spaces k := by
  have hstop : s.toList.takeWhile Text.isBlank = [] := by
    cases hs : s.toList with
    | nil => rfl
    | cons c cs =>
        rw [startsBlank, hs] at h
        exact List.takeWhile_cons_of_neg (Bool.eq_false_iff.mp h)
  rw [indentation, String.toList_append, toList_spaces, List.takeWhile_append_of_pos, hstop,
    List.append_nil, spaces]
  intro c hc
  rw [List.eq_of_mem_replicate hc]
  decide

/-- A line that is all indentation shows nothing. -/
theorem visible_eq_nil_of_indentation_eq (h : indentation s = s) : visible s = [] := by
  have hall : s.toList.takeWhile Text.isBlank = s.toList := by
    rw [← String.toList_ofList (l := s.toList.takeWhile Text.isBlank), ← indentation, h]
  have hsplit := List.takeWhile_append_dropWhile (p := Text.isBlank) (l := s.toList)
  rw [hall] at hsplit
  exact List.append_right_eq_self.mp hsplit

/-- A text with a character that is not blank has something to see. -/
theorem visible_ne_nil_of_mem (hc : c ∈ s.toList) (hblank : Text.isBlank c = false) :
    visible s ≠ [] := by
  rw [visible, Ne, List.dropWhile_eq_nil_iff]
  exact fun hall => Bool.eq_false_iff.mp hblank (hall c hc)

theorem visible_of_startsBlank_eq_false (h : startsBlank s = false) : visible s = s.toList := by
  rw [visible]
  cases hs : s.toList with
  | nil => rfl
  | cons c cs =>
      rw [startsBlank, hs] at h
      exact List.dropWhile_cons_of_neg (Bool.eq_false_iff.mp h)

/-- The indentation of a line does not matter to the reader. -/
theorem readLine_indented (n depth : Nat) (l : Line) :
    readLine n (Page.indented depth l) = readLine n l.text := by
  rw [Page.indented]
  split
  · rename_i hempty
    rw [hempty]
  · change readLine n (spaces _ ++ l.text) = _
    rw [readLine, isComment_spaces_append, braces_append, braces_spaces]
    rfl

/-- To a reader that counts braces, indentation makes no difference. -/
theorem foldlM_readLine_indented (n depth : Nat) (c : Code) :
    (c.map (Page.indented depth)).foldlM readLine n = (c.map (·.text)).foldlM readLine n := by
  simp only [List.foldlM_map, readLine_indented]

/-! ### Lines that are nested -/

/-- The line stands where it should with `n` braces open before it: indented by `depth` blocks and
one for each of the braces, or by one less when it begins with a closing brace.  Only one of the
texts `own` is indented further, by the white space that it begins with.  A blank line is empty. -/
structure Placed (own : String → Prop) (depth n : Nat) (line : String) : Prop where
  blank : indentation line = line → line = ""
  indented : line ≠ "" → ∃ k, n = k + (if closes line then 1 else 0) ∧
    (indentation line = spaces (4 * (depth + k)) ∨
      ∃ text, own text ∧ startsBlank text = true ∧ line = spaces (4 * (depth + k)) ++ text)

/-- The lines are balanced in braces and indented by them, from `depth` on. -/
structure Nested (own : String → Prop) (depth : Nat) (lines : List String) : Prop where
  /-- No brace is closed that is not open, and in the end as many are open as at first. -/
  balanced : lines.foldlM readLine 0 = some 0
  /-- The braces that are open before a line say where it stands. -/
  placed : ∀ before line after, lines = before ++ line :: after →
    ∃ n, before.foldlM readLine 0 = some n ∧ Placed own depth n line
  /-- A line has no line breaks of its own. -/
  unbroken : ∀ line ∈ lines, '\n' ∉ line.toList

/-- Read with `n` braces open, the lines leave `m` open, and each stands at the depth that the
braces open before it give, `base` of them being around the code. -/
def Laid (base : Nat) : Nat → Code → Nat → Prop
  | n, [], m => n = m
  | n, l :: c, m =>
    (l.text ≠ "" → n = base + l.depth + if closes l.text then 1 else 0) ∧
      ∃ n', readLine n l.text = some n' ∧ Laid base n' c m

section Laid

variable {base : Nat} {c₁ c₂ : Code}

/-- Code laid from one depth to a second, and code from there on, are laid out together. -/
theorem Laid.append (h₁ : Laid base n c₁ k) (h₂ : Laid base k c₂ m) :
    Laid base n (c₁ ++ c₂) m := by
  induction c₁ generalizing n with
  | nil =>
      cases h₁
      exact h₂
  | cons l c₁ ih =>
      obtain ⟨hdepth, n', hread, hrest⟩ := h₁
      exact ⟨hdepth, n', hread, ih hrest⟩

/-- One block deeper, one brace more is around. -/
theorem Laid.nested (h : Laid (base + 1) n c₁ m) : Laid base n c₁.nested m := by
  induction c₁ generalizing n with
  | nil => exact h
  | cons l c₁ ih =>
      obtain ⟨hdepth, n', hread, hrest⟩ := h
      refine ⟨fun hne => ?_, n', hread, ih hrest⟩
      rw [hdepth hne, Nat.add_assoc base, Nat.add_comm 1]
      rfl

/-- The depths of the layout are those that a reader of the lines counts. -/
theorem Laid.reads (h : Laid base n c₁ m) : (c₁.map (·.text)).foldlM readLine n = some m := by
  induction c₁ generalizing n with
  | nil => exact congrArg some h
  | cons l c₁ ih =>
      obtain ⟨-, n', hread, hrest⟩ := h
      rw [List.map_cons, List.foldlM_cons, hread]
      exact ih hrest

/-- The braces that are open before a line. -/
theorem Laid.before {before after : Code} {l : Line}
    (h : Laid base n (before ++ l :: after) m) :
    ∃ k, (before.map (·.text)).foldlM readLine n = some k ∧
      (l.text ≠ "" → k = base + l.depth + if closes l.text then 1 else 0) := by
  induction before generalizing n with
  | nil => exact ⟨n, rfl, h.1⟩
  | cons l' before ih =>
      obtain ⟨-, n', hread, hrest⟩ := h
      rw [List.map_cons, List.foldlM_cons, hread]
      exact ih hrest

end Laid

/-! ### Code that is put together from blocks -/

/-- The line opens and closes nothing. -/
structure Flat (s : String) : Prop where
  unbroken : '\n' ∉ s.toList
  starts : closes s = false
  reads : ∀ n, readLine n s = some n

/-- The line opens a block. -/
structure Opening (s : String) : Prop where
  unbroken : '\n' ∉ s.toList
  starts : closes s = false
  unindented : startsBlank s = false
  reads : ∀ n, readLine n s = some (n + 1)

/-- The line begins with the brace that closes a block. -/
structure Closing (s : String) : Prop where
  unbroken : '\n' ∉ s.toList
  starts : closes s = true
  unindented : startsBlank s = false
  reads : ∀ n, readLine (n + 1) s = some n

/-- The text begins with white space only when it is one of `own`, and then shows something. -/
def Tidy (own : String → Prop) (s : String) : Prop :=
  startsBlank s = true → own s ∧ visible s ≠ []

theorem tidy_of_unindented {own : String → Prop} (h : startsBlank s = false) : Tidy own s :=
  fun hblank => absurd hblank (Bool.eq_false_iff.mp h)

/-- A tidy text is placed where it is written. -/
theorem Tidy.placed {own : String → Prop} {depth : Nat} {l : Line} (h : Tidy own l.text)
    (hn : l.text ≠ "" → n = l.depth + if closes l.text then 1 else 0) :
    Placed own depth n (Page.indented depth l) := by
  rw [Page.indented]
  split
  · exact ⟨fun _ => rfl, fun hne => absurd rfl hne⟩
  · rename_i hne
    change Placed own depth n (spaces (4 * (depth + l.depth)) ++ l.text)
    refine ⟨fun hall => ?_, fun _ => ⟨l.depth, ?_, ?_⟩⟩
    · have hnil := visible_eq_nil_of_indentation_eq hall
      rw [visible_spaces_append] at hnil
      cases hblank : startsBlank l.text with
      | false =>
          rw [visible_of_startsBlank_eq_false hblank, String.toList_eq_nil_iff] at hnil
          exact absurd hnil hne
      | true => exact absurd hnil (h hblank).2
    · rw [closes_spaces_append]
      exact hn hne
    · cases hblank : startsBlank l.text with
      | false => exact .inl (indentation_spaces_append _ hblank)
      | true => exact .inr ⟨l.text, (h hblank).1, hblank, rfl⟩

/-- Code made of flat lines and blocks, in which a line begins with white space only when it is one
of `own`. -/
inductive Braced (own : String → Prop) : Code → Prop where
  | nil : Braced own []
  | line {s : String} : Flat s → Tidy own s → Braced own (Code.line s)
  | block {opening closing : String} {body : Code} : Opening opening → Closing closing →
      Braced own body → Braced own (Code.block opening body closing)
  | append {c₁ c₂ : Code} : Braced own c₁ → Braced own c₂ → Braced own (c₁ ++ c₂)

namespace Braced

variable {own : String → Prop} {code : Code}

/-- What is around the code does not matter to it. -/
theorem laid (h : Braced own code) (b : Nat) : Laid b b code b := by
  induction h generalizing b with
  | nil => exact rfl
  | line hflat _ => exact ⟨fun _ => by simp [hflat.starts], b, hflat.reads b, rfl⟩
  | block hopening hclosing _ ih =>
      refine Laid.append (k := b + 1) (Laid.append (k := b + 1) ?_ (ih (b + 1)).nested) ?_
      · exact ⟨fun _ => by simp [hopening.starts], b + 1, hopening.reads b, rfl⟩
      · exact ⟨fun _ => by simp [hclosing.starts], b, hclosing.reads b, rfl⟩
  | append _ _ ih₁ ih₂ => exact (ih₁ b).append (ih₂ b)

/-- What holds of flat lines and of the lines around blocks holds of every line. -/
theorem forall_text {Q : String → Prop} (h : Braced own code)
    (hflat : ∀ s, Flat s → Tidy own s → Q s)
    (hopening : ∀ s, Opening s → Q s) (hclosing : ∀ s, Closing s → Q s) :
    ∀ l ∈ code, Q l.text := by
  induction h with
  | nil => exact List.forall_mem_nil _
  | line hline htidy => exact List.forall_mem_singleton.mpr (hflat _ hline htidy)
  | block hopens hcloses _ ih =>
      refine List.forall_mem_append.mpr ⟨List.forall_mem_append.mpr ⟨?_, ?_⟩, ?_⟩
      · exact List.forall_mem_singleton.mpr (hopening _ hopens)
      · exact List.forall_mem_map.mpr ih
      · exact List.forall_mem_singleton.mpr (hclosing _ hcloses)
  | append _ _ ih₁ ih₂ => exact List.forall_mem_append.mpr ⟨ih₁, ih₂⟩

theorem unbroken (h : Braced own code) : ∀ l ∈ code, '\n' ∉ l.text.toList :=
  h.forall_text (fun _ hline _ => hline.unbroken) (fun _ hopens => hopens.unbroken)
    fun _ hcloses => hcloses.unbroken

theorem tidy (h : Braced own code) : ∀ l ∈ code, Tidy own l.text :=
  h.forall_text (fun _ _ htidy => htidy) (fun _ hopens => tidy_of_unindented hopens.unindented)
    fun _ hcloses => tidy_of_unindented hcloses.unindented

/-- A line of the code is one line of the page. -/
theorem unbroken_indented (h : Braced own code) (depth : Nat) :
    ∀ l ∈ code, '\n' ∉ (Page.indented depth l).toList := by
  intro l hl
  rw [Page.indented]
  split
  · exact List.not_mem_nil
  · rw [String.toList_append, List.mem_append, not_or]
    refine ⟨fun hmem => ?_, h.unbroken l hl⟩
    rw [String.toList_ofList] at hmem
    cases List.eq_of_mem_replicate hmem

/-- **Code made of blocks is nested**, at whatever depth it is written. -/
theorem nested (h : Braced own code) (depth : Nat) :
    Nested own depth (code.map (Page.indented depth)) where
  balanced := by
    rw [foldlM_readLine_indented]
    exact (h.laid 0).reads
  placed := by
    intro before line after hsplit
    obtain ⟨front, rest, rfl, rfl, hrest⟩ := List.map_eq_append_iff.mp hsplit
    obtain ⟨l, back, rfl, rfl, -⟩ := List.map_eq_cons_iff.mp hrest
    obtain ⟨n, hread, hdepth⟩ := (h.laid 0).before
    refine ⟨n, by rw [foldlM_readLine_indented, hread], ?_⟩
    refine (h.tidy l (List.mem_append_right _ List.mem_cons_self)).placed fun hne => ?_
    rw [hdepth hne, Nat.zero_add]
  unbroken := List.forall_mem_map.mpr (h.unbroken_indented depth)

/-- Code put together from braced pieces is braced. -/
theorem flatten {codes : List Code} (h : ∀ c ∈ codes, Braced own c) :
    Braced own codes.flatten := by
  induction codes with
  | nil => exact .nil
  | cons c codes ih =>
      rw [List.forall_mem_cons] at h
      exact .append h.1 (ih h.2)

theorem flatMap {α : Type} {f : α → Code} {as : List α} (h : ∀ a ∈ as, Braced own (f a)) :
    Braced own (as.flatMap f) :=
  flatten (List.forall_mem_map.mpr h)

end Braced

/-! ### Comments -/

theorem unindented_slashes (s : String) : startsBlank ("//" ++ s) = false := by
  rw [startsBlank, String.toList_append]
  rfl

theorem isComment_slashes (s : String) : isComment ("//" ++ s) = true := by
  rw [isComment, visible_of_startsBlank_eq_false (unindented_slashes s), String.toList_append]
  rfl

/-- A comment may have braces. -/
theorem flat_comment (h : '\n' ∉ s.toList) : Flat ("//" ++ s) where
  unbroken := by simpa using h
  starts := by
    rw [closes, visible_of_startsBlank_eq_false (unindented_slashes s), String.toList_append]
    rfl
  reads n := by rw [readLine, isComment_slashes, if_pos rfl]

theorem not_mem_of_mem_splitLines {cs line : List Char} (h : line ∈ Text.splitLines cs) :
    '\n' ∉ line := by
  fun_induction Text.splitLines cs generalizing line with
  | case1 => cases h
  | case2 cs ih | case3 cs ih =>
      rcases List.mem_cons.mp h with rfl | h
      · exact List.not_mem_nil
      · exact ih h
  | case4 c cs hfeed _ _ ih =>
      obtain rfl := List.mem_singleton.mp h
      exact fun hmem => hfeed (List.mem_singleton.mp hmem).symm
  | case5 c cs hfeed _ line' rest hrest ih =>
      rw [hrest] at ih
      rcases List.mem_cons.mp h with rfl | h
      · rw [List.mem_cons, not_or]
        exact ⟨fun heq => hfeed heq.symm, ih List.mem_cons_self⟩
      · exact ih (List.mem_cons_of_mem _ h)

theorem mem_of_mem_trimChars {cs : List Char} (h : c ∈ Text.trimChars cs) : c ∈ cs := by
  rw [Text.trimChars, Text.trimRight, List.mem_reverse] at h
  have hleft := List.mem_reverse.mp ((List.dropWhile_suffix _).subset h)
  exact (List.dropWhile_suffix _).subset hleft

/-- No line of a documentation holds a line break. -/
theorem not_mem_of_mem_docLines (h : t ∈ Code.docLines s) : '\n' ∉ t.toList := by
  rw [Code.docLines, List.mem_reverse] at h
  have htrimmed : t ∈ Text.trimmedLines s :=
    (List.dropWhile_suffix _).subset
      (List.mem_reverse.mp ((List.dropWhile_suffix _).subset h))
  obtain ⟨line, hline, rfl⟩ := List.mem_map.mp htrimmed
  obtain ⟨cs, hcs, rfl⟩ := List.mem_map.mp hline
  rw [Text.trim, String.toList_ofList, String.toList_ofList]
  exact fun hmem => not_mem_of_mem_splitLines hcs (mem_of_mem_trimChars hmem)

/-- Behind the slashes of a documentation line stand a space and the text, or nothing. -/
theorem exists_docLine (l : String) : ∃ rest, Code.docLine l = "///" ++ rest ∧
    (l = "" ∧ rest = "" ∨ l ≠ "" ∧ rest = " " ++ l) := by
  rw [Code.docLine]
  split
  · rename_i hempty
    exact ⟨"", rfl, .inl ⟨hempty, rfl⟩⟩
  · rename_i hne
    refine ⟨" " ++ l, ?_, .inr ⟨hne, rfl⟩⟩
    rw [← String.append_assoc]
    rfl

/-- A documentation comment, whatever its text. -/
theorem braced_doc {own : String → Prop} (s : String) : Braced own (Code.doc s) := by
  have hline : ∀ l ∈ Code.docLines s, Flat (Code.docLine l) ∧
      startsBlank (Code.docLine l) = false := by
    intro l hl
    obtain ⟨rest, hrest, htext⟩ := exists_docLine l
    have hbreak : '\n' ∉ ("/" ++ rest).toList := by
      rcases htext with ⟨-, rfl⟩ | ⟨-, rfl⟩
      · decide
      · simpa using not_mem_of_mem_docLines hl
    have hslashes : Code.docLine l = "//" ++ ("/" ++ rest) := by
      rw [hrest, ← String.append_assoc]
      rfl
    rw [hslashes]
    exact ⟨flat_comment hbreak, unindented_slashes _⟩
  rw [Code.doc, List.map_eq_flatMap]
  exact .flatMap fun l hl => .line (hline l hl).1 (tidy_of_unindented (hline l hl).2)

/-! ### Text without braces -/

/-- The text has no braces and no line breaks. -/
def Inline (s : String) : Prop :=
  ∀ c ∈ s.toList, c ≠ '\x7b' ∧ c ≠ '\x7d' ∧ c ≠ '\n'

-- The general instance for `∀ c : Char` would go through all characters.
instance (s : String) : Decidable (Inline s) :=
  List.decidableBAll _ s.toList

namespace Inline

theorem iff_free : Inline s ↔ Free ['\x7b', '\x7d', '\n'] s := by
  simp only [Inline, Free, List.mem_cons, List.not_mem_nil, or_false, not_or, ne_eq]

theorem of_common (h : Common s) : Inline s :=
  iff_free.mpr (h.free (by decide))

theorem append (hs : Inline s) (ht : Inline t) : Inline (s ++ t) :=
  iff_free.mpr ((iff_free.mp hs).append (iff_free.mp ht))

theorem intercalate {ts : List String} (hs : Inline s) (hts : ∀ t ∈ ts, Inline t) :
    Inline (s.intercalate ts) :=
  iff_free.mpr (.intercalate (iff_free.mp hs) fun t ht => iff_free.mp (hts t ht))

theorem of_digits (n : Nat) : Inline (toString n) :=
  of_common (.of_digits n)

/-- Braces and line breaks are no capitals. -/
theorem camelCase (hs : Inline s) : Inline (Text.camelCase s) := by
  have hopen : Text.NoCapital '\x7b' := ⟨by decide, by decide +kernel, by decide +kernel⟩
  have hclose : Text.NoCapital '\x7d' := ⟨by decide, by decide +kernel, by decide +kernel⟩
  have hbreak : Text.NoCapital '\n' := ⟨by decide, by decide +kernel, by decide +kernel⟩
  intro c hc
  rw [Text.camelCase, String.toList_ofList] at hc
  refine ⟨?_, ?_, ?_⟩
  · rintro rfl
    exact (hs _ (hopen.mem_of_mem_camelChars hc)).1 rfl
  · rintro rfl
    exact (hs _ (hclose.mem_of_mem_camelChars hc)).2.1 rfl
  · rintro rfl
    exact (hs _ (hbreak.mem_of_mem_camelChars hc)).2.2 rfl

theorem unbroken (hs : Inline s) : '\n' ∉ s.toList :=
  fun hmem => (hs _ hmem).2.2 rfl

/-- An inline text leaves the depth as it is. -/
theorem braces_eq (hs : Inline s) (n : Nat) : braces n s = some n := by
  rw [braces]
  rw [Inline] at hs
  generalize s.toList = cs at hs ⊢
  induction cs with
  | nil => rfl
  | cons c cs ih =>
      rw [List.forall_mem_cons] at hs
      rw [List.foldlM_cons, brace, if_neg hs.1.1, if_neg hs.1.2.1]
      exact ih hs.2

/-- An inline text can stand in a line of its own. -/
theorem flat (hs : Inline s) : Flat s where
  unbroken := hs.unbroken
  starts := by
    rw [closes, decide_eq_false_iff_not]
    intro hhead
    exact (hs _ ((List.dropWhile_suffix _).subset (List.mem_of_mem_head? hhead))).2.1 rfl
  reads n := by
    rw [readLine, hs.braces_eq, ite_self]

end Inline

/-! ### The lines of blocks -/

/-- The text begins, and like neither an indentation nor a comment nor the end of a block. -/
def Begun (s : String) : Prop :=
  ∃ c ∈ s.toList.head?, Text.isBlank c = false ∧ c ≠ '/' ∧ c ≠ '\x7d'

instance (s : String) : Decidable (Begun s) :=
  decidable_of_iff
    (s.toList.head?.any (fun c => Text.isBlank c = false ∧ c ≠ '/' ∧ c ≠ '\x7d') = true) (by
      simp [Begun, Option.any_eq_true])

theorem Begun.append (h : Begun s) (t : String) : Begun (s ++ t) := by
  obtain ⟨c, hc, hfirst⟩ := h
  refine ⟨c, ?_, hfirst⟩
  rw [String.toList_append, List.head?_append, Option.mem_def.mp hc]
  rfl

theorem Begun.unindented (h : Begun s) : startsBlank s = false := by
  obtain ⟨c, hc, hblank, -⟩ := h
  rw [startsBlank, Option.mem_def.mp hc]
  exact hblank

theorem isBlank_eq_false_of_isDigit (h : c.isDigit = true) : Text.isBlank c = false := by
  have hdigit : ∀ n < 58, 48 ≤ n → Text.isBlank (Char.ofNat n) = false := by decide
  have hrange : 48 ≤ c.toNat ∧ c.toNat < 58 := by
    rw [Char.isDigit, Bool.and_eq_true, decide_eq_true_eq, decide_eq_true_eq] at h
    exact ⟨h.1, Nat.lt_succ_of_le h.2⟩
  rw [← Char.ofNat_toNat c]
  exact hdigit c.toNat hrange.2 hrange.1

theorem Begun.of_digits (n : Nat) : Begun (toString n) := by
  obtain ⟨c, cs, hdigits⟩ := List.exists_cons_of_ne_nil (Nat.toDigits_ne_nil (n := n) (b := 10))
  have hdigit : c.isDigit = true :=
    Nat.isDigit_of_mem_toDigits (by decide) (by decide) (hdigits ▸ List.mem_cons_self)
  refine ⟨c, ?_, isBlank_eq_false_of_isDigit hdigit, ?_, ?_⟩
  · rw [show (toString n).toList = c :: cs from Nat.toList_repr.trans hdigits]
    rfl
  all_goals
    rintro rfl
    cases hdigit

theorem isComment_eq_false {cs : List Char} (hs : visible s = c :: cs) (hslash : c ≠ '/') :
    isComment s = false := by
  have hfirst : ('/' == c) = false := beq_eq_false_iff_ne.mpr hslash.symm
  rw [isComment, hs]
  change ('/' == c && ['/'].isPrefixOf cs) = false
  rw [hfirst, Bool.false_and]

/-- A line that begins with a visible character and opens one brace opens a block. -/
theorem opening_of_begun (h : Begun s) (hbreak : '\n' ∉ s.toList) (hbraces : braces 0 s = some 1) :
    Opening s := by
  have hunindented := h.unindented
  obtain ⟨c, hc, -, hslash, hclose⟩ := h
  obtain ⟨cs, hs⟩ := List.head?_eq_some_iff.mp hc
  have hvisible : visible s = c :: cs := (visible_of_startsBlank_eq_false hunindented).trans hs
  exact {
    unbroken := hbreak
    starts := by simp [closes, hvisible, hclose]
    unindented := hunindented
    reads := by
      intro n
      rw [readLine, isComment_eq_false hvisible hslash, if_neg Bool.false_ne_true]
      exact braces_add n hbraces }

/-- A block is opened at the end of a text that has no other braces. -/
theorem opening_append (hs : Inline s) (h : Begun s) (hbreak : '\n' ∉ t.toList)
    (hbraces : braces 0 t = some 1) : Opening (s ++ t) := by
  refine opening_of_begun (h.append t) ?_ ?_
  · rw [String.toList_append, List.mem_append, not_or]
    exact ⟨hs.unbroken, hbreak⟩
  · rw [braces_append, hs.braces_eq]
    exact hbraces

/-- A text of the generator around a name that opens a block at its end. -/
theorem opening_around {left right : String} (hleft : Inline left) (h : Begun left) (hs : Inline s)
    (hbreak : '\n' ∉ right.toList) (hbraces : braces 0 right = some 1) :
    Opening (left ++ s ++ right) :=
  opening_append (hleft.append hs) (h.append s) hbreak hbraces

/-- A line that begins with a brace that closes and closes no other closes a block. -/
theorem closing_of_closes (h : closes s = true) (hunindented : startsBlank s = false)
    (hbreak : '\n' ∉ s.toList) (hbraces : braces 1 s = some 0) : Closing s := by
  obtain ⟨cs, hvisible⟩ := List.head?_eq_some_iff.mp (of_decide_eq_true h)
  exact {
    unbroken := hbreak
    starts := h
    unindented := hunindented
    reads := by
      intro n
      rw [readLine, isComment_eq_false hvisible (by decide), if_neg Bool.false_ne_true]
      exact braces_add n hbraces }

theorem closing_brace : Closing "\x7d" :=
  closing_of_closes (by decide) (by decide) (by decide) (by decide)

namespace Braced

variable {own : String → Prop}

/-- A line that begins with text of the generator. -/
theorem text (hs : Inline s) (h : Begun s) : Braced own (Code.line s) :=
  .line hs.flat (tidy_of_unindented h.unindented)

/-- A line with text of the generator around a name. -/
theorem around {left right : String} (hleft : Inline left) (h : Begun left) (hs : Inline s)
    (hright : Inline right) : Braced own (Code.line (left ++ s ++ right)) :=
  text ((hleft.append hs).append hright) ((h.append s).append right)

theorem blank : Braced own Code.blank :=
  .line (Inline.flat (by decide)) (tidy_of_unindented (by decide))

end Braced

end Isaforge.Source
