import Mathlib.Data.List.TakeWhile
import Isaforge.Proofs.Nesting

/-!
# Documentation — what a documentation text becomes

A documentation text is written as a comment, line by line.  Whatever the text, nothing of it gets
out of the comment: every line that is added begins with three slashes, behind its indentation, and
is one line of the page.  Nor is anything lost: what the lines say behind the slashes are the
trimmed lines of the text, from the first to the last that is not blank (`Page.Documents`).

Ends are cut off twice here, those of a text and those of a list of lines.  What is left is the
middle of the list (`Middle`), and a list has only one (`Middle.eq_dropped`).  The blurb is looked
for in a scan of its own, but this finds the beginning of the same middle (`Middle.find?_eq`).
-/

namespace Isaforge

/-! ### The middle of a list -/

section Middle

variable {α : Type} {p : α → Bool} {xs ys : List α}

/-- The list `ys` is what there is of `xs` from the first to the last element without `p`. -/
def Middle (p : α → Bool) (xs ys : List α) : Prop :=
  ∃ before after, xs = before ++ (ys ++ after) ∧ (∀ x ∈ before, p x = true) ∧
    (∀ x ∈ after, p x = true) ∧ (∀ x ∈ ys.head?, p x = false) ∧ ∀ x ∈ ys.getLast?, p x = false

theorem dropWhile_eq_self (h : ∀ x ∈ xs.head?, p x = false) : xs.dropWhile p = xs := by
  cases xs with
  | nil => rfl
  | cons x xs => exact List.dropWhile_cons_of_neg (by simp [h x rfl])

theorem head?_dropWhile : ∀ x ∈ (xs.dropWhile p).head?, p x = false := by
  intro x hx
  have hnot := List.head?_dropWhile_not p xs
  rwa [hx] at hnot

/-- A list has one middle: what is left when its two ends are dropped. -/
theorem Middle.eq_dropped (h : Middle p xs ys) :
    ((xs.dropWhile p).reverse.dropWhile p).reverse = ys := by
  obtain ⟨before, after, rfl, hbefore, hafter, hhead, hlast⟩ := h
  rw [List.dropWhile_append_of_pos hbefore]
  cases ys with
  | nil => rw [List.nil_append, List.dropWhile_eq_nil_iff.mpr hafter]; rfl
  | cons y ys =>
      have hfront : (y :: ys ++ after).dropWhile p = y :: ys ++ after := dropWhile_eq_self hhead
      have hback : (y :: ys).reverse.dropWhile p = (y :: ys).reverse :=
        dropWhile_eq_self (by rwa [List.head?_reverse])
      rw [hfront, List.reverse_append,
        List.dropWhile_append_of_pos fun x hx => hafter x (List.mem_reverse.mp hx), hback,
        List.reverse_reverse]

theorem middle_dropped : Middle p xs ((xs.dropWhile p).reverse.dropWhile p).reverse := by
  generalize hzs : xs.dropWhile p = zs
  have hsplit : zs = (zs.reverse.dropWhile p).reverse ++ (zs.reverse.takeWhile p).reverse := by
    rw [← List.reverse_append, List.takeWhile_append_dropWhile, List.reverse_reverse]
  refine ⟨xs.takeWhile p, (zs.reverse.takeWhile p).reverse, ?_, ?_, ?_, ?_, ?_⟩
  · rw [← hsplit, ← hzs, List.takeWhile_append_dropWhile]
  · exact fun x hx => List.mem_takeWhile_imp hx
  · exact fun x hx => List.mem_takeWhile_imp (List.mem_reverse.mp hx)
  · -- What is left begins as before its end was dropped.
    have hhead : ∀ x ∈ zs.head?, p x = false := hzs ▸ head?_dropWhile
    intro x hx
    refine hhead x ?_
    rw [hsplit, List.head?_append, hx]
    rfl
  · intro x hx
    rw [List.getLast?_reverse] at hx
    exact head?_dropWhile x hx

/-- A scan for the first element without `p` finds where the middle begins. -/
theorem Middle.find?_eq (h : Middle p xs ys) : xs.find? (fun x => !p x) = ys.head? := by
  obtain ⟨before, after, rfl, hbefore, hafter, hhead, -⟩ := h
  have hnone : ∀ zs : List α, (∀ x ∈ zs, p x = true) → zs.find? (fun x => !p x) = none := by
    intro zs hzs
    exact List.find?_eq_none.mpr fun x hx => by simp [hzs x hx]
  rw [List.find?_append, hnone before hbefore, Option.none_or]
  cases ys with
  | nil => exact hnone after hafter
  | cons y ys => exact List.find?_cons_of_pos (by simp [hhead y rfl])

end Middle

namespace Text

/-! ### Trimmed texts -/

theorem middle_trimChars (cs : List Char) : Middle isBlank cs (trimChars cs) :=
  middle_dropped

/-- Blanks before a trimmed text are trimmed away again. -/
theorem trimChars_append {blanks cs : List Char} (h : ∀ c ∈ blanks, isBlank c = true) :
    trimChars (blanks ++ trimChars cs) = trimChars cs := by
  obtain ⟨-, -, -, -, -, hhead, hlast⟩ := middle_trimChars cs
  have hmiddle : Middle isBlank (blanks ++ trimChars cs) (trimChars cs) :=
    ⟨blanks, [], by rw [List.append_nil], h, List.forall_mem_nil _, hhead, hlast⟩
  exact hmiddle.eq_dropped

/-- A space before a trimmed text is trimmed away again. -/
theorem trim_space (t : String) : trim (" " ++ trim t) = trim t := by
  have hspace : (" " ++ trim t).toList = [' '] ++ trimChars t.toList := by simp [trim]
  rw [trim, hspace, trimChars_append (List.forall_mem_singleton.mpr rfl), trim]

end Text

namespace Source

/-! ### Lines of a documentation text -/

namespace Code

theorem middle_docLines (s : String) : Middle (· = "") (Text.trimmedLines s) (docLines s) :=
  middle_dropped

theorem blurb_eq (s : String) : Text.blurb s = (docLines s).head?.getD "" := by
  have hfind := (middle_docLines s).find?_eq
  rw [← hfind, Text.blurb]
  simp only [decide_not]

/-- There are no lines exactly when the blurb is empty: the first line is not blank. -/
theorem docLines_eq_nil_iff (s : String) : docLines s = [] ↔ Text.blurb s = "" := by
  obtain ⟨-, -, -, -, -, hhead, -⟩ := middle_docLines s
  rw [blurb_eq]
  cases hlines : docLines s with
  | nil => simp
  | cons l ls => simpa [hlines] using hhead

theorem head?_docLines {s : String} (h : Text.blurb s ≠ "") :
    (docLines s).head? = some (Text.blurb s) := by
  rw [blurb_eq]
  obtain ⟨l, ls, hlines⟩ :=
    List.exists_cons_of_ne_nil fun hnil => h ((docLines_eq_nil_iff s).mp hnil)
  rw [hlines]
  rfl

theorem exists_trim_of_mem_docLines {s l : String} (h : l ∈ docLines s) : ∃ t, l = Text.trim t := by
  obtain ⟨before, after, hlines, -⟩ := middle_docLines s
  have hmem : l ∈ Text.trimmedLines s :=
    hlines ▸ List.mem_append_right _ (List.mem_append_left _ h)
  obtain ⟨t, -, rfl⟩ := List.mem_map.mp hmem
  exact ⟨t, rfl⟩

end Code

/-- What a line says as a documentation comment: what stands behind its indentation and three
slashes, trimmed. -/
def docText? (line : String) : Option String :=
  let cs := line.toList.dropWhile (· = ' ')
  if "///".toList.isPrefixOf cs then some (Text.trim (String.ofList (cs.drop 3))) else none

theorem docText?_indented (n : Nat) (rest : String) :
    docText? (spaces n ++ ("///" ++ rest)) = some (Text.trim rest) := by
  have htext : (spaces n ++ ("///" ++ rest)).toList.dropWhile (· = ' ') =
      '/' :: '/' :: '/' :: rest.toList := by
    rw [dropWhile_spaces_append (by decide), String.toList_append]
    rfl
  simp only [docText?, htext]
  exact congrArg (fun t => some (Text.trim t)) String.ofList_toList

namespace Page

theorem indented_docLine (depth : Nat) (l : String) :
    indented depth ⟨0, Code.docLine l⟩ = spaces (indentWidth * depth) ++ Code.docLine l := by
  have hne : Code.docLine l ≠ "" := by
    obtain ⟨rest, hrest, -⟩ := exists_docLine l
    rw [hrest]
    simp
  exact if_neg hne

/-- A documentation line says the trimmed text that it is written for. -/
theorem docText?_indented_docLine (depth : Nat) (t : String) :
    docText? (indented depth ⟨0, Code.docLine (Text.trim t)⟩) = some (Text.trim t) := by
  obtain ⟨rest, hline, ⟨hempty, rfl⟩ | ⟨-, rfl⟩⟩ := exists_docLine (Text.trim t)
  · rw [indented_docLine, hline, docText?_indented, hempty]
    rfl
  · rw [indented_docLine, hline, docText?_indented, Text.trim_space]

/-- What is added to a page, inside `depth` blocks, for a documentation text. -/
structure Documents (depth : Nat) (s : String) (added : List String) : Prop where
  /-- Behind its indentation, a line begins with three slashes, and it has no line breaks. -/
  comment : ∀ line ∈ added,
    (∃ rest, line = spaces (indentWidth * depth) ++ ("///" ++ rest)) ∧ '\n' ∉ line.toList
  /-- What the lines say are the trimmed lines of the text, from the first to the last that is not
  blank. -/
  said : ∃ lines, Middle (· = "") (Text.trimmedLines s) lines ∧
    added.map docText? = lines.map some
  eq_nil_iff : added = [] ↔ Text.blurb s = ""
  /-- The first line is the blurb. -/
  head : Text.blurb s ≠ "" →
    added.head? = some (spaces (indentWidth * depth) ++ ("/// " ++ Text.blurb s))

/-- **What a documentation text becomes**, whatever it is and on whatever page. -/
theorem write_doc (p : Page) (s : String) :
    ∃ added, p.write (Code.doc s) = { p with lines := p.lines ++ added } ∧
      Documents p.depth s added := by
  have hadded : (Code.doc s).map (indented p.depth) =
      (Code.docLines s).map fun l => indented p.depth ⟨0, Code.docLine l⟩ := by
    rw [Code.doc, List.map_map]
    rfl
  refine ⟨(Code.doc s).map (indented p.depth), rfl, ?_, ⟨_, Code.middle_docLines s, ?_⟩, ?_, ?_⟩
  · intro line hline
    obtain ⟨l, hl, rfl⟩ := List.mem_map.mp hline
    have hbraced : Braced (fun _ => False) (Code.doc s) := braced_doc s
    have hunbroken := hbraced.unbroken_indented p.depth l hl
    obtain ⟨t, -, rfl⟩ := List.mem_map.mp hl
    obtain ⟨rest, hrest, -⟩ := exists_docLine t
    exact ⟨⟨rest, by rw [indented_docLine, hrest]⟩, hunbroken⟩
  · rw [hadded, List.map_map]
    refine List.map_congr_left fun l hl => ?_
    obtain ⟨t, rfl⟩ := Code.exists_trim_of_mem_docLines hl
    rw [Function.comp_apply, docText?_indented_docLine]
  · rw [hadded, List.map_eq_nil_iff, Code.docLines_eq_nil_iff]
  · intro hne
    have hline : Code.docLine (Text.blurb s) = "/// " ++ Text.blurb s := if_neg hne
    rw [hadded, List.head?_map, Code.head?_docLines hne, Option.map_some, indented_docLine, hline]

end Page

end Source

end Isaforge
