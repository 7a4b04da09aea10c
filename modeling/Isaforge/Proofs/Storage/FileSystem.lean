import Mathlib.Data.List.Nodup
import Isaforge.Storage.FileSystem
import Isaforge.Proofs.Outcome
import Isaforge.Proofs.Storage.Path

/-!
# File system — what the operations leave as it was

No operation takes anything away: directories stay directories, and what is somewhere stays
(`Grows`).  So a path that leads to a place goes on leading there (`Grows.locate`), whatever is made
or written in between.

Making directories puts directories where there was nothing, on the path or above it
(`made_makeDirectories`), and a second time changes nothing (`makeDirectories_of_made`).

Updating a file changes one place, and the file then has the text (`Updated`); a second time it has
the text already (`update_of_read?`).
-/

namespace Isaforge.Storage.FileSystem

variable {fs fs' fs'' : FileSystem} {p : Path} {ps missing : List Path} {place q : Place}

/-! ### What is at a place -/

theorem lookup_filter_ne {κ α : Type} [BEq κ] [LawfulBEq κ] [DecidableEq κ]
    (l : List (κ × α)) (k q : κ) :
    (l.filter (·.1 ≠ k)).lookup q = if q = k then none else l.lookup q := by
  induction l with
  | nil => simp
  | cons e l ih =>
      obtain ⟨k', a⟩ := e
      by_cases hk : k' = k
      · rw [List.filter_cons_of_neg (by simp [hk]), ih, List.lookup_cons]
        by_cases hq : q = k
        · rw [if_pos hq, if_pos hq]
        · rw [if_neg hq, if_neg hq, beq_eq_false_iff_ne.mpr (hk ▸ hq)]
      · rw [List.filter_cons_of_pos (by simp [hk]), List.lookup_cons, List.lookup_cons, ih]
        by_cases hq : q = k'
        · subst hq
          simp only [beq_self_eq_true, if_neg hk]
        · rw [beq_eq_false_iff_ne.mpr hq]

theorem node?_root (fs : FileSystem) : fs.node? #[] = some .directory :=
  rfl

theorem node?_put (hplace : place ≠ #[]) (node : Node) (q : Place) :
    (fs.put place node).node? q = if q = place then some node else fs.node? q := by
  by_cases hroot : q = #[]
  · rw [hroot, node?_root, node?_root, if_neg hplace.symm]
  · have hq : ¬ q.isEmpty = true := by simpa using hroot
    rw [node?, node?, put, if_neg hq, if_neg hq, List.lookup_append, lookup_filter_ne]
    by_cases heq : q = place
    · rw [if_pos heq, if_pos heq, Option.none_or, List.lookup_cons, heq, beq_self_eq_true]
    · rw [if_neg heq, if_neg heq, List.lookup_cons, beq_eq_false_iff_ne.mpr heq]
      exact Option.or_none

/-! ### Nothing goes away -/

/-- The file system has the directories of the other, and something wherever that has. -/
structure Grows (fs fs' : FileSystem) : Prop where
  workingDirectory : fs'.workingDirectory = fs.workingDirectory
  directory : ∀ q, fs.node? q = some .directory → fs'.node? q = some .directory
  present : ∀ q, fs'.node? q = none → fs.node? q = none

namespace Grows

theorem refl (fs : FileSystem) : Grows fs fs :=
  ⟨rfl, fun _ h => h, fun _ h => h⟩

theorem trans (h : Grows fs fs') (h' : Grows fs' fs'') : Grows fs fs'' where
  workingDirectory := h'.workingDirectory.trans h.workingDirectory
  directory q hq := h'.directory q (h.directory q hq)
  present q hq := h.present q (h'.present q hq)

/-- Anything may be put where there is no directory. -/
theorem put (hplace : fs.node? place ≠ some .directory) (node : Node) :
    Grows fs (fs.put place node) := by
  have hroot : place ≠ #[] := by
    rintro rfl
    exact hplace (node?_root fs)
  refine ⟨rfl, fun q hq => ?_, fun q hq => ?_⟩
  · have hne : q ≠ place := by
      rintro rfl
      exact hplace hq
    rw [node?_put hroot, if_neg hne, hq]
  · rw [node?_put hroot] at hq
    split at hq
    · cases hq
    · exact hq

/-- Names that lead to a directory go on leading there. -/
theorem enter (h : Grows fs fs') {names : List String} (henter : fs.enter place names = .ok q) :
    fs'.enter place names = .ok q := by
  induction names generalizing place with
  | nil => exact henter
  | cons name names ih =>
      rw [FileSystem.enter] at henter ⊢
      split at henter
      · cases henter
      · rename_i hlength
        rw [if_neg hlength]
        dsimp only at henter ⊢
        split at henter
        · cases henter
        · cases henter
        · rename_i hnode
          rw [h.directory _ hnode]
          exact ih henter

theorem holder (h : Grows fs fs') (hholder : fs.holder p = .ok q) : fs'.holder p = .ok q := by
  rw [FileSystem.holder] at hholder ⊢
  split at hholder
  · cases hholder
  · rw [h.workingDirectory]
    exact h.enter hholder

end Grows

/-- Where a path leads. -/
theorem locate_eq_ok_iff :
    fs.locate p = .ok q ↔
      ∃ place, fs.holder p = .ok place ∧
        (p.names.getLast?.getD ".").utf8ByteSize ≤ Path.maxNameBytes ∧
        ¬ (p.names.getLast?.getD "." = "." ∧ fs.node? place = none) ∧
        q = step place (p.names.getLast?.getD ".") := by
  rw [locate, bind_eq_ok_iff]
  refine exists_congr fun place => and_congr_right fun _ => ?_
  dsimp only
  by_cases hlength : Path.maxNameBytes < (p.names.getLast?.getD ".").utf8ByteSize
  · rw [if_pos hlength]
    exact ⟨fun h => (nomatch h), fun h => absurd hlength (Nat.not_lt.mpr h.1)⟩
  · rw [if_neg hlength]
    by_cases hdot : p.names.getLast?.getD "." = "." ∧ fs.node? place = none
    · have hcond :
          (decide (p.names.getLast?.getD "." = ".") && (fs.node? place).isNone) = true := by
        rw [hdot.1, hdot.2]
        rfl
      rw [if_pos hcond]
      exact ⟨fun h => (nomatch h), fun h => absurd hdot h.2.1⟩
    · have hcond :
          ¬ (decide (p.names.getLast?.getD "." = ".") && (fs.node? place).isNone) = true := by
        simpa [Option.isNone_iff_eq_none] using hdot
      rw [if_neg hcond]
      constructor
      · rintro ⟨⟩
        exact ⟨Nat.le_of_not_lt hlength, hdot, rfl⟩
      · rintro ⟨-, -, rfl⟩
        rfl

/-- A path that leads to a place goes on leading there. -/
theorem Grows.locate (h : Grows fs fs') (hlocate : fs.locate p = .ok q) : fs'.locate p = .ok q := by
  obtain ⟨place, hholder, hlength, hdot, hq⟩ := locate_eq_ok_iff.mp hlocate
  refine locate_eq_ok_iff.mpr ⟨place, h.holder hholder, hlength, ?_, hq⟩
  exact fun hnone => hdot ⟨hnone.1, h.present _ hnone.2⟩

theorem isDirectory_iff :
    fs.isDirectory p ↔ ∃ q, fs.locate p = .ok q ∧ fs.node? q = some .directory := by
  rw [isDirectory]
  cases hlocate : fs.locate p with
  | error fault => exact ⟨fun h => (nomatch h), fun ⟨_, h, _⟩ => (nomatch h)⟩
  | ok q => simp

theorem Grows.isDirectory (h : Grows fs fs') (hp : fs.isDirectory p) : fs'.isDirectory p := by
  obtain ⟨q, hlocate, hnode⟩ := isDirectory_iff.mp hp
  exact isDirectory_iff.mpr ⟨q, h.locate hlocate, h.directory q hnode⟩

/-! ### Making directories -/

/-- A directory is made where there is nothing. -/
theorem makeDirectory_eq_ok_iff :
    fs.makeDirectory p = .ok fs' ↔
      ∃ q, fs.locate p = .ok q ∧ fs.node? q = none ∧ fs' = fs.put q .directory := by
  rw [makeDirectory, bind_eq_ok_iff]
  refine exists_congr fun q => and_congr_right fun _ => ?_
  cases hnode : fs.node? q with
  | none =>
      constructor
      · rintro ⟨⟩
        exact ⟨rfl, rfl⟩
      · rintro ⟨-, rfl⟩
        rfl
  | some node => exact ⟨fun h => (nomatch h), fun h => (nomatch h.1)⟩

/-- No directory is made where there is something. -/
theorem makeDirectory_of_node {node : Node} (hlocate : fs.locate p = .ok q)
    (hnode : fs.node? q = some node) : fs.makeDirectory p = .error .alreadyExists := by
  rw [makeDirectory, hlocate]
  simp only [bind, Except.bind, hnode]
  rfl

theorem makeDirectory_of_isDirectory (h : fs.isDirectory p) :
    fs.makeDirectory p = .error .alreadyExists := by
  obtain ⟨q, hlocate, hnode⟩ := isDirectory_iff.mp h
  exact makeDirectory_of_node hlocate hnode

/-- All that is new are directories, where the paths lead. -/
structure Made (ps : List Path) (fs fs' : FileSystem) : Prop where
  grows : Grows fs fs'
  new : ∀ q, fs'.node? q ≠ fs.node? q →
    fs.node? q = none ∧ fs'.node? q = some .directory ∧ ∃ p ∈ ps, fs'.locate p = .ok q

namespace Made

theorem refl (ps : List Path) (fs : FileSystem) : Made ps fs fs :=
  ⟨.refl fs, fun _ h => absurd rfl h⟩

theorem trans (h : Made ps fs fs') (h' : Made ps fs' fs'') : Made ps fs fs'' := by
  refine ⟨h.grows.trans h'.grows, fun q hq => ?_⟩
  by_cases heq : fs'.node? q = fs.node? q
  · obtain ⟨hnone, hnew⟩ := h'.new q (heq ▸ hq)
    exact ⟨heq ▸ hnone, hnew⟩
  · obtain ⟨hnone, hdirectory, p, hp, hlocate⟩ := h.new q heq
    exact ⟨hnone, h'.grows.directory q hdirectory, p, hp, h'.grows.locate hlocate⟩

theorem mono {ps' : List Path} (h : Made ps fs fs') (hsub : ps ⊆ ps') : Made ps' fs fs' := by
  refine ⟨h.grows, fun q hq => ?_⟩
  obtain ⟨hnone, hdirectory, p, hp, hlocate⟩ := h.new q hq
  exact ⟨hnone, hdirectory, p, hsub hp, hlocate⟩

/-- The files are what they were. -/
theorem file_iff (h : Made ps fs fs') {content : ByteArray} :
    fs'.node? q = some (.file content) ↔ fs.node? q = some (.file content) := by
  by_cases heq : fs'.node? q = fs.node? q
  · rw [heq]
  · obtain ⟨hnone, hdirectory, -⟩ := h.new q heq
    rw [hnone, hdirectory]
    simp

end Made

theorem made_makeDirectory (h : fs.makeDirectory p = .ok fs') :
    Made [p] fs fs' ∧ fs'.isDirectory p := by
  obtain ⟨q, hlocate, hnone, rfl⟩ := makeDirectory_eq_ok_iff.mp h
  have hdirectory : fs.node? q ≠ some .directory := by simp [hnone]
  have hroot : q ≠ #[] := by
    rintro rfl
    exact hdirectory (node?_root fs)
  have hgrows : Grows fs (fs.put q .directory) := .put hdirectory .directory
  have hq : (fs.put q .directory).node? q = some .directory := by
    rw [node?_put hroot, if_pos rfl]
  refine ⟨⟨hgrows, fun q' hq' => ?_⟩, isDirectory_iff.mpr ⟨q, hgrows.locate hlocate, hq⟩⟩
  obtain rfl : q' = q := by
    by_contra hne
    rw [node?_put hroot, if_neg hne] at hq'
    exact hq' rfl
  exact ⟨hnone, hq, p, List.mem_singleton_self p, hgrows.locate hlocate⟩

theorem made_makeEach {outcome : Except FileFault Unit} (h : fs.makeEach ps = (fs', outcome)) :
    Made ps fs fs' ∧ (outcome = .ok () → ∀ p ∈ ps, fs'.isDirectory p) := by
  induction ps generalizing fs with
  | nil =>
      cases h
      exact ⟨.refl _ _, fun _ p hp => absurd hp List.not_mem_nil⟩
  | cons p ps ih =>
      -- the rest is made of a file system in which `p` is a directory
      have hrest : ∀ {fs₁ : FileSystem}, Made [p] fs fs₁ → fs₁.isDirectory p →
          fs₁.makeEach ps = (fs', outcome) →
          Made (p :: ps) fs fs' ∧ (outcome = .ok () → ∀ p' ∈ p :: ps, fs'.isDirectory p') := by
        intro fs₁ hmade hp h₁
        obtain ⟨hmade', hall⟩ := ih h₁
        have hfirst : [p] ⊆ p :: ps := List.cons_subset_cons p (List.nil_subset ps)
        refine ⟨(hmade.mono hfirst).trans (hmade'.mono (List.subset_cons_self p ps)), ?_⟩
        intro hok p' hp'
        rcases List.mem_cons.mp hp' with rfl | hp'
        · exact hmade'.grows.isDirectory hp
        · exact hall hok p' hp'
      rw [makeEach] at h
      split at h
      · rename_i fs₁ hmake
        obtain ⟨hmade, hp⟩ := made_makeDirectory hmake
        exact hrest hmade hp h
      · split at h
        · rename_i hp
          exact hrest (.refl _ _) hp h
        · cases h
          exact ⟨.refl _ _, fun hok => (nomatch hok)⟩

theorem made_makeUpwards {missing' : List Path}
    (h : fs.makeUpwards missing ps = .ok (fs', missing')) :
    Made ps fs fs' ∧ missing ⊆ missing' ∧ missing' ⊆ missing ++ ps ∧
      ∀ p, ps.head? = some p → fs'.isDirectory p ∨ p ∈ missing' := by
  induction ps generalizing missing with
  | nil =>
      cases h
      exact ⟨.refl _ _, List.Subset.refl _, List.subset_append_left _ _, fun p hp => (nomatch hp)⟩
  | cons p ps ih =>
      rw [makeUpwards] at h
      split at h
      · rename_i fs₁ hmake
        cases h
        obtain ⟨hmade, hp⟩ := made_makeDirectory hmake
        have hfirst : [p] ⊆ p :: ps := List.cons_subset_cons p (List.nil_subset ps)
        refine ⟨hmade.mono hfirst, List.Subset.refl _, List.subset_append_left _ _, ?_⟩
        rintro p' ⟨⟩
        exact .inl hp
      · obtain ⟨hmade, hsub, hsub', -⟩ := ih h
        refine ⟨hmade.mono (List.subset_cons_self p ps), ?_, ?_, ?_⟩
        · exact fun x hx => hsub (List.mem_cons_of_mem p hx)
        · intro x hx
          have hmem := hsub' hx
          simp only [List.cons_append, List.mem_cons, List.mem_append] at hmem ⊢
          exact or_left_comm.mp hmem
        · rintro p' ⟨⟩
          exact .inr (hsub List.mem_cons_self)
      · split at h
        · rename_i hp
          cases h
          refine ⟨.refl _ _, List.Subset.refl _, List.subset_append_left _ _, ?_⟩
          rintro p' ⟨⟩
          exact .inl hp
        · cases h

/-- Making directories makes directories on the path or above it, also when that fails. -/
theorem made_makeDirectories {outcome : Except FileFault Unit}
    (h : fs.makeDirectories p = (fs', outcome)) :
    Made p.chain fs fs' ∧ (outcome = .ok () → p.chain = [] ∨ fs'.isDirectory p) := by
  rw [makeDirectories] at h
  split at h
  · cases h
    exact ⟨.refl _ _, fun hok => (nomatch hok)⟩
  · rename_i fs₁ missing hup
    obtain ⟨hmade, -, hsub, hhead⟩ := made_makeUpwards hup
    obtain ⟨hmade', hall⟩ := made_makeEach h
    refine ⟨hmade.trans (hmade'.mono (by simpa using hsub)), fun hok => ?_⟩
    rcases p.chain_eq_nil_or with hchain | ⟨ps, hchain⟩
    · exact .inl hchain
    · refine .inr ?_
      rcases hhead p (by rw [hchain]; rfl) with hp | hp
      · exact hmade'.grows.isDirectory hp
      · exact hall hok p hp

/-- When those above it are there, nothing but the directory is made. -/
theorem eq_of_makeDirectories {outcome : Except FileFault Unit} (hlocate : fs.locate p = .ok place)
    (h : fs.makeDirectories p = (fs', outcome)) (hq : fs'.node? q ≠ fs.node? q) : q = place := by
  by_contra hne
  refine hq ?_
  rw [makeDirectories] at h
  rcases p.chain_eq_nil_or with hchain | ⟨ps, hchain⟩
  · rw [hchain] at h
    cases h
    rfl
  · rw [hchain, makeUpwards] at h
    cases hnode : fs.node? place with
    | none =>
        have hroot : place ≠ #[] := by
          rintro rfl
          rw [node?_root] at hnode
          cases hnode
        rw [makeDirectory_eq_ok_iff.mpr ⟨place, hlocate, hnode, rfl⟩] at h
        cases h
        rw [node?_put hroot, if_neg hne]
    | some node =>
        rw [makeDirectory_of_node hlocate hnode] at h
        by_cases hp : fs.isDirectory p
        · simp only [if_pos hp] at h
          cases h
          rfl
        · simp only [if_neg hp] at h
          cases h
          rfl

/-- Directories that are there need not be made. -/
theorem makeDirectories_of_made (h : p.chain = [] ∨ fs.isDirectory p) :
    fs.makeDirectories p = (fs, .ok ()) := by
  rw [makeDirectories]
  rcases p.chain_eq_nil_or with hchain | ⟨ps, hchain⟩
  · rw [hchain]
    rfl
  · have hp : fs.isDirectory p := h.resolve_left (by simp [hchain])
    rw [hchain, makeUpwards, makeDirectory_of_isDirectory hp]
    simp only [hp]
    rfl

/-! ### Updating a file -/

theorem read?_eq_some_iff {content : ByteArray} :
    fs.read? p = some content ↔
      ∃ q, fs.locate p = .ok q ∧ fs.node? q = some (.file content) ∧ p.ofDirectory = false := by
  rw [read?]
  cases hlocate : fs.locate p with
  | error fault => exact ⟨fun h => (nomatch h), fun ⟨_, h, _⟩ => (nomatch h)⟩
  | ok q =>
      simp only [Except.ok.injEq, exists_eq_left']
      cases hnode : fs.node? q with
      | none => simp
      | some node => cases node <;> cases p.ofDirectory <;> simp

/-- A file is written where there is no directory. -/
theorem write_eq_ok_iff {content : ByteArray} :
    fs.write p content = .ok fs' ↔
      ∃ q, fs.locate p = .ok q ∧ fs.node? q ≠ some .directory ∧ p.ofDirectory = false ∧
        fs' = fs.put q (.file content) := by
  have hholds : (∃ place, fs.holder p = .ok place) ∨ ∃ fault, fs.holder p = .error fault := by
    cases fs.holder p with
    | ok place => exact .inl ⟨place, rfl⟩
    | error fault => exact .inr ⟨fault, rfl⟩
  rw [write]
  rcases hholds with ⟨place, hholder⟩ | ⟨fault, hholder⟩
  · rw [hholder]
    simp only [bind, Except.bind]
    cases hof : p.ofDirectory with
    | true => exact ⟨fun h => (nomatch h), fun ⟨_, _, _, h, _⟩ => (nomatch h)⟩
    | false =>
        cases hlocate : fs.locate p with
        | error fault => exact ⟨fun h => (nomatch h), fun ⟨_, h, _⟩ => (nomatch h)⟩
        | ok q =>
            simp only [Bool.false_eq_true, if_false, Except.ok.injEq, exists_eq_left', true_and]
            by_cases hnode : fs.node? q = some .directory
            · rw [if_pos hnode]
              exact ⟨fun h => (nomatch h), fun h => absurd hnode h.1⟩
            · rw [if_neg hnode]
              constructor
              · rintro ⟨⟩
                exact ⟨hnode, rfl⟩
              · rintro ⟨-, rfl⟩
                rfl
  · rw [hholder]
    refine ⟨fun h => (nomatch h), fun ⟨q, hlocate, _⟩ => ?_⟩
    obtain ⟨place, hok, -⟩ := locate_eq_ok_iff.mp hlocate
    rw [hholder] at hok
    cases hok

/-- The file at the path has the text, and all else is what it was. -/
structure Updated (p : Path) (text : String) (fs fs' : FileSystem) : Prop where
  grows : Grows fs fs'
  read : fs'.read? p = some text.toUTF8
  elsewhere : ∀ q, fs'.locate p ≠ .ok q → fs'.node? q = fs.node? q

theorem updated_of_update {text : String} {written : Bool}
    (h : fs.update p text = .ok (fs', written)) : Updated p text fs fs' := by
  rw [update] at h
  split at h
  · rename_i hread
    cases h
    exact ⟨.refl fs, hread, fun _ _ => rfl⟩
  · obtain ⟨fs₁, hwrite, h⟩ := bind_eq_ok_iff.mp h
    cases h
    obtain ⟨q, hlocate, hnode, hof, rfl⟩ := write_eq_ok_iff.mp hwrite
    have hroot : q ≠ #[] := by
      rintro rfl
      exact hnode (node?_root fs)
    have hgrows : Grows fs (fs.put q (.file text.toUTF8)) := .put hnode (.file text.toUTF8)
    have hlocate' := hgrows.locate hlocate
    refine ⟨hgrows, read?_eq_some_iff.mpr ⟨q, hlocate', ?_, hof⟩, fun q' hq' => ?_⟩
    · rw [node?_put hroot, if_pos rfl]
    · have hne : q' ≠ q := by
        rintro rfl
        exact hq' hlocate'
      rw [node?_put hroot, if_neg hne]

/-- No directory is made where there was none. -/
theorem Updated.not_directory {text : String} (h : Updated p text fs fs')
    (hq : fs.node? q ≠ some .directory) : fs'.node? q ≠ some .directory := by
  by_cases hlocate : fs'.locate p = .ok q
  · obtain ⟨q', hlocate', hnode, -⟩ := read?_eq_some_iff.mp h.read
    rw [hlocate] at hlocate'
    cases hlocate'
    rw [hnode]
    simp
  · rwa [h.elsewhere q hlocate]

/-- Where there is no directory, a file can be updated. -/
theorem update_succeeds (text : String) (hlocate : fs.locate p = .ok q)
    (hnode : fs.node? q ≠ some .directory) (hof : p.ofDirectory = false) :
    ∃ fs' written, fs.update p text = .ok (fs', written) := by
  rw [update]
  split
  · exact ⟨fs, false, rfl⟩
  · rw [write_eq_ok_iff.mpr ⟨q, hlocate, hnode, hof, rfl⟩]
    exact ⟨_, true, rfl⟩

/-- A file that has the text is not written. -/
theorem update_of_read? {text : String} (h : fs.read? p = some text.toUTF8) :
    fs.update p text = .ok (fs, false) := by
  rw [update, if_pos h]

/-- What has been read stays to be read when nothing changes where it is. -/
theorem Grows.read? {content : ByteArray} (h : Grows fs fs')
    (hsame : ∀ q, fs.locate p = .ok q → fs'.node? q = fs.node? q)
    (hread : fs.read? p = some content) : fs'.read? p = some content := by
  obtain ⟨q, hlocate, hnode, hof⟩ := read?_eq_some_iff.mp hread
  exact read?_eq_some_iff.mpr ⟨q, h.locate hlocate, (hsame q hlocate).trans hnode, hof⟩

/-! ### Files of one directory -/

/-- A file of a directory is in the place of that directory. -/
theorem locate_join {name : String} (hname : Path.IsFileName name)
    (h : fs.locate (p.join ⟨name⟩) = .ok q) :
    ∃ base, fs.enter (if p.isAbsolute then #[] else fs.workingDirectory) p.names = .ok base ∧
      q = base.push name := by
  obtain ⟨base, hholder, -, -, hq⟩ := locate_eq_ok_iff.mp h
  have hlast : (p.join ⟨name⟩).names.getLast?.getD "." = name := by
    rw [Path.names_join hname, List.getLast?_concat, Option.getD_some]
  refine ⟨base, ?_, ?_⟩
  · rw [holder] at hholder
    split at hholder
    · cases hholder
    · rwa [Path.names_join hname, Path.isAbsolute_join hname, List.dropLast_concat] at hholder
  · rw [hq, hlast, step, if_neg hname.ne_dot, if_neg hname.ne_dots]

/-- Files of different names are in different places. -/
theorem locate_join_ne {name name' : String} (hname : Path.IsFileName name)
    (hname' : Path.IsFileName name') (hne : name ≠ name')
    (h : fs.locate (p.join ⟨name⟩) = .ok q) : fs.locate (p.join ⟨name'⟩) ≠ .ok q := by
  intro h'
  obtain ⟨base, hbase, rfl⟩ := locate_join hname h
  obtain ⟨base', hbase', hpush⟩ := locate_join hname' h'
  rw [hbase] at hbase'
  cases hbase'
  exact hne (Array.push_eq_push.mp hpush).1

end Isaforge.Storage.FileSystem
