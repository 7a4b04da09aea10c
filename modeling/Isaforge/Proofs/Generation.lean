import Isaforge.Generation
import Isaforge.Proofs.Classification
import Isaforge.Proofs.Legalizer.Refusal
import Isaforge.Proofs.Storage.FileSystem

/-!
# Generation — what a run leaves in the files

What a run generates depends on the definitions and the targets alone (`sources`), and what it
counts is added to the counts so far (`Statistics.ofRules`, `Statistics.ofFiles`).

* A run that succeeds leaves every source in its file, and the other files as they were.  So another
  one finds all of them up to date, and changes nothing (`regeneration_stable`).
* When a group breaks off, no file has been written yet (`rejected_group_leaves_files`): the passes
  are all generated before the first file is updated.

A run succeeds where there are no directories in the places of the files (`run_succeeds`).
-/

namespace Isaforge

open Source Storage

/-! ### Counts -/

namespace Statistics

/-- The counts of a run and of those before it. -/
instance : Add Statistics where
  add s t :=
    { rules := s.rules + t.rules
      inputs := s.inputs + t.inputs
      outputs := s.outputs + t.outputs
      intermediates := s.intermediates + t.intermediates
      temporaries := s.temporaries + t.temporaries
      filesWritten := s.filesWritten + t.filesWritten
      filesUnchanged := s.filesUnchanged + t.filesUnchanged
      lines := s.lines + t.lines }

/-- The counts of the rules. -/
def ofRules (rules : List Rule) : Statistics :=
  { rules := rules.length
    inputs := (rules.map (·.roles.counts.inputs)).sum
    outputs := (rules.map (·.roles.counts.outputs)).sum
    intermediates := (rules.map (·.roles.counts.intermediates)).sum
    temporaries := (rules.map (·.roles.counts.temporaries)).sum }

/-- The counts of the pages of files, some of which are written. -/
def ofFiles (written unchanged : Nat) (pages : List Page) : Statistics :=
  { filesWritten := written
    filesUnchanged := unchanged
    lines := (pages.map (·.lineCount)).sum }

/-- The number of variables, of any role. -/
def variableCount (s : Statistics) : Nat :=
  s.inputs + s.outputs + s.intermediates + s.temporaries

theorem add_assoc (s t u : Statistics) : s + t + u = s + (t + u) := by
  simp only [HAdd.hAdd, Add.add, mk.injEq]
  exact ⟨Nat.add_assoc .., Nat.add_assoc .., Nat.add_assoc .., Nat.add_assoc .., Nat.add_assoc ..,
    Nat.add_assoc .., Nat.add_assoc .., Nat.add_assoc ..⟩

theorem add_ofRules_nil (s : Statistics) : s + ofRules [] = s :=
  rfl

theorem ofRules_append (rules rules' : List Rule) :
    ofRules (rules ++ rules') = ofRules rules + ofRules rules' := by
  simp only [ofRules, List.length_append, List.map_append, List.sum_append]
  rfl

theorem recordRule_eq_add (s : Statistics) (r : Rule) :
    s.recordRule r.roles.counts = s + ofRules [r] := by
  simp only [ofRules, List.map_cons, List.map_nil, List.sum_singleton]
  rfl

theorem recordFile_eq_add (s : Statistics) (page : Page) (written : Bool) :
    s.recordFile page.lineCount written =
      s + ofFiles (if written then 1 else 0) (if written then 0 else 1) [page] := by
  simp only [ofFiles, List.map_cons, List.map_nil, List.sum_singleton]
  rfl

theorem ofFiles_cons (written unchanged written' unchanged' : Nat) (page : Page)
    (pages : List Page) :
    ofFiles written unchanged [page] + ofFiles written' unchanged' pages =
      ofFiles (written + written') (unchanged + unchanged') (page :: pages) := by
  simp only [ofFiles, List.map_cons, List.map_nil, List.sum_cons, List.sum_nil]
  rfl

theorem ofRules_add_ofFiles (rules : List Rule) (written unchanged : Nat) (pages : List Page) :
    ofRules rules + ofFiles written unchanged pages =
      { ofRules rules with
        filesWritten := written
        filesUnchanged := unchanged
        lines := (pages.map (·.lineCount)).sum } := by
  simp only [HAdd.hAdd, Add.add, mk.injEq]
  refine ⟨rfl, rfl, rfl, rfl, rfl, ?_, ?_, ?_⟩ <;> exact Nat.zero_add _

/-- The variables of rules that were built are counted once each, whatever their roles. -/
theorem variableCount_ofRules {rules : List Rule} (h : ∀ r ∈ rules, r.Built) :
    (ofRules rules).variableCount =
      (rules.map fun r => {v | Roles.Mentioned (r.src.defs ++ r.dst.defs) v}.ncard).sum := by
  induction rules with
  | nil => rfl
  | cons r rules ih =>
      have hroles : r.roles = .classify r.src.defs r.dst.defs :=
        (h r List.mem_cons_self).close_eq.1
      have hset : {v | Roles.Mentioned (r.src.defs ++ r.dst.defs) v} =
          ↑r.roles.vars.toFinset := by
        ext v
        simp [hroles, Roles.mem_vars_classify]
      have hnodup : r.roles.vars.Nodup := by
        rw [hroles]
        exact Roles.nodup_vars_classify _ _
      have hcard :
          {v | Roles.Mentioned (r.src.defs ++ r.dst.defs) v}.ncard = r.roles.counts.total := by
        rw [hset, Set.ncard_coe_finset, List.toFinset_card_of_nodup hnodup, Roles.total_counts,
          Roles.vars, List.length_map, Roles.size]
      have hrest := ih fun r' hr' => h r' (List.mem_cons_of_mem r hr')
      rw [List.map_cons, List.sum_cons, hcard, ← hrest]
      simp only [variableCount, ofRules, List.map_cons, List.sum_cons, RoleCounts.total]
      omega

end Statistics

namespace Generation

variable {d : Definitions} {targets : List Target} {directory : Path} {s s' : Statistics}
  {fs fs' : FileSystem} {insts : InstructionGroup} {g : RuleGroup} {gs : List RuleGroup}
  {page : Page} {files : List (String × Page)} {cause : Error}

theorem countRules_eq_add (s : Statistics) (g : RuleGroup) :
    countRules s g = s + .ofRules g.rules := by
  obtain ⟨name, doc, rules⟩ := g
  rw [countRules]
  induction rules generalizing s with
  | nil => exact s.add_ofRules_nil.symm
  | cons r rules ih =>
      rw [List.foldl_cons, ih, Statistics.recordRule_eq_add, Statistics.add_assoc,
        ← Statistics.ofRules_append]
      rfl

/-! ### The passes -/

/-- The lines of the passes, each below an empty line. -/
def passLines (insts : InstructionGroup) (gs : List RuleGroup) : Code :=
  gs.flatMap fun g => Code.blank ++ (Legalizer.groupEmission insts g).lines

theorem write_write (page : Page) (c c' : Code) :
    (page.write c).write c' = page.write (c ++ c') := by
  simp only [Page.write, List.map_append, List.append_assoc]

/-- Groups that do not break off are written, and their rules counted, before the next. -/
theorem writePasses_append (page : Page) (s : Statistics) (gs : List RuleGroup)
    {before : List RuleGroup}
    (h : ∀ g ∈ before, (Legalizer.groupEmission insts g).error? = none) :
    writePasses insts page s (before ++ gs) =
      writePasses insts (page.write (passLines insts before))
        (s + .ofRules (before.flatMap (·.rules))) gs := by
  induction before generalizing page s with
  | nil =>
      have hpage : page.write (passLines insts []) = page := by
        simp [passLines, Page.write]
      rw [hpage, List.flatMap_nil, Statistics.add_ofRules_nil, List.nil_append]
  | cons g before ih =>
      have hg := h g List.mem_cons_self
      rw [List.cons_append, writePasses, Page.emit, hg]
      dsimp only
      rw [ih _ _ fun g' hg' => h g' (List.mem_cons_of_mem g hg'), write_write, write_write,
        countRules_eq_add, Statistics.add_assoc, ← Statistics.ofRules_append]
      simp only [passLines, List.flatMap_cons, List.append_assoc]

theorem writePasses_of_ok (page : Page) (s : Statistics)
    (h : ∀ g ∈ gs, (Legalizer.groupEmission insts g).error? = none) :
    writePasses insts page s gs =
      (page.write (passLines insts gs), s + .ofRules (gs.flatMap (·.rules)), .ok ()) := by
  have hnil := writePasses_append page s [] h
  rwa [List.append_nil, writePasses] at hnil

/-- The rules of the group that breaks off are counted too. -/
theorem writePasses_of_error (page : Page) (s : Statistics) (after : List RuleGroup)
    {before : List RuleGroup}
    (h : ∀ g ∈ before, (Legalizer.groupEmission insts g).error? = none)
    (hg : (Legalizer.groupEmission insts g).error? = some cause) :
    (writePasses insts page s (before ++ g :: after)).2 =
      (s + .ofRules ((before ++ [g]).flatMap (·.rules)), .error cause) := by
  rw [writePasses_append page s (g :: after) h, writePasses, Page.emit, hg, countRules_eq_add,
    Statistics.add_assoc, ← Statistics.ofRules_append, List.flatMap_append,
    List.flatMap_singleton]

/-- The groups do not break off, or one is the first to do so. -/
theorem exists_first_error (insts : InstructionGroup) (gs : List RuleGroup) :
    (∀ g ∈ gs, (Legalizer.groupEmission insts g).error? = none) ∨
      ∃ before g after cause, gs = before ++ g :: after ∧
        (∀ g ∈ before, (Legalizer.groupEmission insts g).error? = none) ∧
        (Legalizer.groupEmission insts g).error? = some cause := by
  induction gs with
  | nil => exact .inl fun g hg => absurd hg List.not_mem_nil
  | cons g gs ih =>
      cases hg : (Legalizer.groupEmission insts g).error? with
      | some cause =>
          exact .inr ⟨[], g, gs, cause, rfl, fun g hg => absurd hg List.not_mem_nil, hg⟩
      | none =>
          rcases ih with hall | ⟨before, g', after, cause, rfl, hbefore, hg'⟩
          · exact .inl (List.forall_mem_cons.mpr ⟨hg, hall⟩)
          · exact .inr ⟨g :: before, g', after, cause, rfl,
              List.forall_mem_cons.mpr ⟨hg, hbefore⟩, hg'⟩

/-- A group breaks off at a rule that cannot be used or at an instruction that is unknown. -/
theorem group_error (hbuilt : ∀ r ∈ g.rules, r.Built)
    (hg : (Legalizer.groupEmission insts g).error? = some cause) :
    (∃ reason, cause = .codeGeneration reason) ∨ ∃ index, cause = .unknownInstruction index := by
  cases hms : Legalizer.matchers g with
  | error cause' =>
      obtain ⟨⟨r, reason, rfl⟩, -⟩ := Legalizer.of_matchersFrom_eq_error hms
      rw [Legalizer.groupEmission, hms] at hg
      exact .inl ⟨_, (Option.some.inj hg).symm⟩
  | ok ms =>
      rw [Legalizer.error?_groupEmission hbuilt hms] at hg
      obtain ⟨id, -, rfl⟩ := Option.map_eq_some_iff.mp hg
      exact .inr ⟨id.index, rfl⟩

/-! ### The files -/

/-- The sources of the definitions and the targets, with the names of their files. -/
def sources (d : Definitions) (targets : List Target) : List (String × Page) :=
  ("legalizer.rs", legalizerOpening.write (passLines d.instructions d.ruleGroups)) ::
    settingsFiles d.settings targets

theorem length_sources (d : Definitions) (targets : List Target) :
    (sources d targets).length = targets.length + 2 := by
  simp [sources, settingsFiles]

theorem toList_targetFile (n : String) :
    ("settings-" ++ n ++ ".rs").toList = "settings-".toList ++ n.toList ++ ".rs".toList := by
  rw [String.toList_append, String.toList_append]

theorem isFileName_targetFile {n : String} (h : '/' ∉ n.toList) :
    Path.IsFileName ("settings-" ++ n ++ ".rs") where
  ne_empty hempty := by
    have hlist := congrArg String.toList hempty
    simp at hlist
  no_slash := by
    rw [toList_targetFile]
    simpa using h
  ne_dot hdot := by
    have hlist := congrArg String.toList hdot
    simp at hlist
  ne_dots hdots := by
    have hlist := congrArg String.toList hdots
    simp at hlist

theorem isFileName_legalizer : Path.IsFileName "legalizer.rs" :=
  ⟨by decide, by decide, by decide, by decide⟩

theorem isFileName_settings : Path.IsFileName "settings.rs" :=
  ⟨by decide, by decide, by decide, by decide⟩

theorem isFileName_sources (hslash : ∀ t ∈ targets, '/' ∉ t.name.toList) :
    ∀ file ∈ sources d targets, Path.IsFileName file.1 := by
  intro file hfile
  simp only [sources, settingsFiles, List.mem_cons, List.mem_map] at hfile
  rcases hfile with rfl | rfl | ⟨t, ht, rfl⟩
  · exact isFileName_legalizer
  · exact isFileName_settings
  · exact isFileName_targetFile (hslash t ht)

/-- The files of targets of different names have different names, and so do the other two. -/
theorem nodup_sources (hnames : (targets.map (·.name)).Nodup) :
    ((sources d targets).map (·.1)).Nodup := by
  have htargets : (targets.map fun t => "settings-" ++ t.name ++ ".rs").Nodup := by
    have hinjective : Function.Injective fun n : String => "settings-" ++ n ++ ".rs" := by
      intro n n' h
      have hlist := congrArg String.toList h
      simp only [toList_targetFile, List.append_assoc, List.append_cancel_left_eq,
        List.append_cancel_right_eq] at hlist
      exact String.toList_inj.mp hlist
    have hmap := hnames.map hinjective
    rwa [List.map_map] at hmap
  simp only [sources, settingsFiles, List.map_cons, List.map_map, Function.comp_def,
    List.nodup_cons, List.mem_cons, List.mem_map, not_or, not_exists, not_and]
  refine ⟨⟨by decide, fun t _ h => ?_⟩, fun t _ h => ?_, htargets⟩
  · have hlist := congrArg String.toList h
    simp at hlist
  · have hlist := congrArg String.toList h
    simp at hlist

/-- The files of a directory hold the pages, and all else is what it was. -/
structure Holding (directory : Path) (files : List (String × Page)) (fs fs' : FileSystem) :
    Prop where
  grows : FileSystem.Grows fs fs'
  read : ∀ file ∈ files, fs'.read? (directory.join ⟨file.1⟩) = some file.2.text.toUTF8
  elsewhere : ∀ q, (∀ file ∈ files, fs'.locate (directory.join ⟨file.1⟩) ≠ .ok q) →
    fs'.node? q = fs.node? q

/-- One more file is updated before the rest. -/
theorem Holding.cons {fs₁ : FileSystem} {name : String}
    (hname : Path.IsFileName name) (hfiles : ∀ file ∈ files, Path.IsFileName file.1)
    (hnew : ∀ file ∈ files, name ≠ file.1)
    (hupdated : FileSystem.Updated (directory.join ⟨name⟩) page.text fs fs₁)
    (h : Holding directory files fs₁ fs') : Holding directory ((name, page) :: files) fs fs' where
  grows := hupdated.grows.trans h.grows
  read := by
    refine List.forall_mem_cons.mpr ⟨?_, h.read⟩
    -- the rest of the files are in other places
    refine h.grows.read? (fun q hq => h.elsewhere q fun file hfile => ?_) hupdated.read
    exact FileSystem.locate_join_ne hname (hfiles file hfile) (hnew file hfile) (h.grows.locate hq)
  elsewhere q hq := by
    obtain ⟨hfirst, hrest⟩ := List.forall_mem_cons.mp hq
    rw [h.elsewhere q hrest]
    exact hupdated.elsewhere q fun hlocate => hfirst (h.grows.locate hlocate)

theorem updateFiles_cons (directory : Path) (s : Statistics) (name : String) (page : Page)
    (files : List (String × Page)) (fs : FileSystem) :
    updateFiles (m := StateM FileSystem) directory s ((name, page) :: files) fs =
      match fs.update (directory.join ⟨name⟩) page.text with
      | .error fault => ((s, .error (.file fault)), fs)
      | .ok (fs, written) =>
        updateFiles (m := StateM FileSystem) directory (s.recordFile page.lineCount written) files
          fs := by
  rw [updateFiles]
  simp only [bind, StateT.bind, Output.update, pure]
  cases fs.update (directory.join ⟨name⟩) page.text with
  | error fault => rfl
  | ok result => rfl

/-- Updating files of different names leaves the pages in all of them. -/
theorem holding_of_updateFiles (hfiles : ∀ file ∈ files, Path.IsFileName file.1)
    (hnodup : (files.map (·.1)).Nodup)
    (h : updateFiles (m := StateM FileSystem) directory s files fs = ((s', .ok ()), fs')) :
    Holding directory files fs fs' ∧ ∃ written unchanged, written + unchanged = files.length ∧
      s' = s + .ofFiles written unchanged (files.map (·.2)) := by
  induction files generalizing s fs with
  | nil =>
      cases h
      refine ⟨⟨.refl _, fun file hfile => absurd hfile List.not_mem_nil, fun _ _ => rfl⟩, ?_⟩
      exact ⟨0, 0, rfl, rfl⟩
  | cons file files ih =>
      obtain ⟨name, page⟩ := file
      obtain ⟨hname, hfiles⟩ := List.forall_mem_cons.mp hfiles
      obtain ⟨hnew, hnodup⟩ := List.nodup_cons.mp hnodup
      rw [updateFiles_cons] at h
      split at h
      · cases h
      · rename_i fs₁ isWritten hupdate
        obtain ⟨hholding, written, unchanged, hsum, rfl⟩ := ih hfiles hnodup h
        have hne : ∀ file ∈ files, name ≠ file.1 := by
          intro file hfile heq
          have hmem : file.1 ∈ files.map (·.1) := List.mem_map_of_mem hfile
          exact hnew (heq ▸ hmem)
        refine ⟨hholding.cons hname hfiles hne (FileSystem.updated_of_update hupdate), ?_⟩
        refine ⟨(if isWritten then 1 else 0) + written, (if isWritten then 0 else 1) + unchanged,
          ?_, ?_⟩
        · rw [List.length_cons, ← hsum]
          cases isWritten <;> simp <;> omega
        · rw [Statistics.recordFile_eq_add, Statistics.add_assoc, Statistics.ofFiles_cons,
            List.map_cons]

/-- Files that hold their pages are found up to date. -/
theorem updateFiles_of_read?
    (h : ∀ file ∈ files, fs.read? (directory.join ⟨file.1⟩) = some file.2.text.toUTF8) :
    updateFiles (m := StateM FileSystem) directory s files fs =
      ((s + .ofFiles 0 files.length (files.map (·.2)), .ok ()), fs) := by
  induction files generalizing s with
  | nil => rfl
  | cons file files ih =>
      obtain ⟨name, page⟩ := file
      obtain ⟨hfirst, hrest⟩ := List.forall_mem_cons.mp h
      rw [updateFiles_cons, FileSystem.update_of_read? hfirst]
      dsimp only
      rw [ih hrest, Statistics.recordFile_eq_add, Statistics.add_assoc, Statistics.ofFiles_cons,
        List.map_cons, List.length_cons, Nat.add_comm files.length]
      rfl

/-- What keeps files from being updated is a fault of the file system. -/
theorem fault_of_updateFiles
    (h : updateFiles (m := StateM FileSystem) directory s files fs = ((s', .error cause), fs')) :
    ∃ fault, cause = .file fault := by
  induction files generalizing s fs with
  | nil => cases h
  | cons file files ih =>
      rw [updateFiles_cons] at h
      split at h
      · rename_i fault _
        cases h
        exact ⟨fault, rfl⟩
      · exact ih h

/-! ### A run -/

theorem run_eq (d : Definitions) (targets : List Target) (directory : Path) (s : Statistics)
    (fs : FileSystem) :
    run (m := StateM FileSystem) d targets directory s fs =
      match fs.makeDirectories directory with
      | (fs, .error fault) => ((s, .error (.file fault)), fs)
      | (fs, .ok ()) =>
        match writePasses d.instructions legalizerOpening s d.ruleGroups with
        | (_, s, .error cause) => ((s, .error cause), fs)
        | (page, s, .ok ()) =>
          updateFiles (m := StateM FileSystem) directory s
            (("legalizer.rs", page) :: settingsFiles d.settings targets) fs := by
  rw [run]
  simp only [bind, StateT.bind, Output.makeDirectories, pure]
  obtain ⟨fs₁, outcome⟩ := fs.makeDirectories directory
  cases outcome with
  | error fault => rfl
  | ok _ =>
      dsimp only
      obtain ⟨page, s, outcome⟩ := writePasses d.instructions legalizerOpening s d.ruleGroups
      cases outcome <;> rfl

/-- Where there are no directories, files can be updated. -/
theorem updateFiles_succeeds (s : Statistics) (hfiles : ∀ file ∈ files, Path.IsFileName file.1)
    (h : ∀ file ∈ files, ∃ q, fs.locate (directory.join ⟨file.1⟩) = .ok q ∧
      fs.node? q ≠ some .directory) :
    ∃ s' fs', updateFiles (m := StateM FileSystem) directory s files fs = ((s', .ok ()), fs') := by
  induction files generalizing s fs with
  | nil => exact ⟨s, fs, rfl⟩
  | cons file files ih =>
      obtain ⟨name, page⟩ := file
      obtain ⟨hname, hfiles⟩ := List.forall_mem_cons.mp hfiles
      obtain ⟨⟨q, hlocate, hnode⟩, hrest⟩ := List.forall_mem_cons.mp h
      obtain ⟨fs₁, isWritten, hupdate⟩ := FileSystem.update_succeeds page.text hlocate hnode
        (Path.not_ofDirectory_join hname)
      rw [updateFiles_cons, hupdate]
      refine ih _ hfiles fun file hfile => ?_
      obtain ⟨q', hlocate', hnode'⟩ := hrest file hfile
      have hupdated := FileSystem.updated_of_update hupdate
      exact ⟨q', hupdated.grows.locate hlocate', hupdated.not_directory hnode'⟩

/-- **A run succeeds** when the directory can be made, no group breaks off, and there are no
directories in the places of the files. -/
theorem run_succeeds (s : Statistics) (hslash : ∀ t ∈ targets, '/' ∉ t.name.toList)
    (hmake : fs.makeDirectories directory = (fs', .ok ()))
    (hgroups : ∀ g ∈ d.ruleGroups, (Legalizer.groupEmission d.instructions g).error? = none)
    (hplaces : ∀ file ∈ sources d targets, ∃ q, fs'.locate (directory.join ⟨file.1⟩) = .ok q ∧
      fs'.node? q ≠ some .directory) :
    ∃ s₁ fs₁, run (m := StateM FileSystem) d targets directory s fs = ((s₁, .ok ()), fs₁) := by
  rw [run_eq, hmake, writePasses_of_ok _ _ hgroups]
  exact updateFiles_succeeds _ (isFileName_sources hslash) hplaces

/-- A run that succeeds makes the directory, generates all groups, and updates the files. -/
theorem of_run_eq_ok
    (h : run (m := StateM FileSystem) d targets directory s fs = ((s', .ok ()), fs')) :
    ∃ fs₁, fs.makeDirectories directory = (fs₁, .ok ()) ∧
      (∀ g ∈ d.ruleGroups, (Legalizer.groupEmission d.instructions g).error? = none) ∧
      updateFiles (m := StateM FileSystem) directory
        (s + .ofRules (d.ruleGroups.flatMap (·.rules))) (sources d targets) fs₁ =
          ((s', .ok ()), fs') := by
  rw [run_eq] at h
  split at h
  · cases h
  · rename_i fs₁ hmake
    rcases exists_first_error d.instructions d.ruleGroups with
      hgroups | ⟨before, g, after, cause, hsplit, hbefore, hg⟩
    · rw [writePasses_of_ok _ _ hgroups] at h
      exact ⟨fs₁, hmake, hgroups, h⟩
    · have hpasses := writePasses_of_error legalizerOpening s after hbefore hg
      rw [← hsplit] at hpasses
      generalize writePasses d.instructions legalizerOpening s d.ruleGroups = passes at h hpasses
      obtain ⟨page, rest⟩ := passes
      cases hpasses
      cases h

/-- What a run leaves that succeeds and adds `counts` to the counts so far. -/
structure Regenerates (d : Definitions) (targets : List Target) (directory : Path)
    (s s₁ counts : Statistics) (fs fs₁ : FileSystem) : Prop where
  /-- Every source is in its file. -/
  read : ∀ file ∈ sources d targets,
    fs₁.read? (directory.join ⟨file.1⟩) = some file.2.text.toUTF8
  /-- Every other file is what it was. -/
  elsewhere : ∀ q, (∀ file ∈ sources d targets, fs₁.locate (directory.join ⟨file.1⟩) ≠ .ok q) →
    ∀ content, fs₁.node? q = some (.file content) ↔ fs.node? q = some (.file content)
  counted : s₁ = s + counts
  files : counts.filesWritten + counts.filesUnchanged = targets.length + 2
  rules : counts.rules = (d.ruleGroups.map (·.rules.length)).sum
  /-- The variables of a rule are counted once each. -/
  variableCount : counts.variableCount = ((d.ruleGroups.flatMap (·.rules)).map fun r =>
    {v | Roles.Mentioned (r.src.defs ++ r.dst.defs) v}.ncard).sum
  /-- The same run once more finds all files up to date, and else counts the same. -/
  again : run (m := StateM FileSystem) d targets directory s₁ fs₁ =
    ((s₁ + { counts with filesWritten := 0, filesUnchanged := targets.length + 2 }, .ok ()), fs₁)

/-- **Regeneration is stable.**  For any definitions of rules that were built, targets of different
names without slashes, directory and file system: when a run succeeds, every source is in its file,
and every other file is what it was.  The same run once more succeeds and changes nothing; it finds
all files up to date, and else adds to the counts what the first one added: the rules, their
variables, each once, and the lines. -/
theorem regeneration_stable {s₁ : Statistics} {fs₁ : FileSystem}
    (hbuilt : ∀ g ∈ d.ruleGroups, ∀ r ∈ g.rules, r.Built)
    (hnames : (targets.map (·.name)).Nodup) (hslash : ∀ t ∈ targets, '/' ∉ t.name.toList)
    (hrun : run (m := StateM FileSystem) d targets directory s fs = ((s₁, .ok ()), fs₁)) :
    ∃ counts, Regenerates d targets directory s s₁ counts fs fs₁ := by
  obtain ⟨fs', hmake, hgroups, hupdate⟩ := of_run_eq_ok hrun
  obtain ⟨hmade, hdirectory⟩ := FileSystem.made_makeDirectories hmake
  obtain ⟨hholding, written, unchanged, hsum, hs₁⟩ :=
    holding_of_updateFiles (isFileName_sources hslash) (nodup_sources hnames) hupdate
  rw [length_sources] at hsum
  rw [Statistics.add_assoc, Statistics.ofRules_add_ofFiles] at hs₁
  refine ⟨_, hholding.read, fun q hq content => ?_, hs₁, hsum, List.length_flatMap, ?_, ?_⟩
  · rw [hholding.elsewhere q hq]
    exact hmade.file_iff
  · refine Statistics.variableCount_ofRules fun r hr => ?_
    obtain ⟨g, hg, hr⟩ := List.mem_flatMap.mp hr
    exact hbuilt g hg r hr
  · -- the directory is there, and so are the files
    have hthere : fs₁.makeDirectories directory = (fs₁, .ok ()) :=
      FileSystem.makeDirectories_of_made
        ((hdirectory rfl).imp id hholding.grows.isDirectory)
    have hagain := updateFiles_of_read? (s := s₁ + .ofRules (d.ruleGroups.flatMap (·.rules)))
      hholding.read
    rw [length_sources, Statistics.add_assoc, Statistics.ofRules_add_ofFiles, sources] at hagain
    rw [run_eq, hthere, writePasses_of_ok _ _ hgroups]
    exact hagain

/-- The shared settings and instructions, with groups of rules. -/
def sharedWith (gs : List RuleGroup) : Definitions where
  settings := ⟨"shared", "Shared settings group", none, Shared.settingDeclarations⟩
  instructions := Shared.group
  ruleGroups := gs

/-- The RISC-V target. -/
def riscv : Target :=
  ⟨"riscv", ⟨"riscv", "RISC-V settings", some "shared", Target.riscvSettings⟩, ["base"]⟩

/-- A directory with a file of settings that is no text. -/
def staleSettings : FileSystem where
  nodes := [(#["out"], .directory), (#["out", "settings.rs"], .file ⟨#[0xff]⟩)]

/-- The stale file is replaced, and a second run finds it and the other two up to date. -/
theorem staleSettings_regenerated :
    ∃ s₁ s₂ fs₁,
      run (m := StateM FileSystem) (sharedWith [⟨"expand", "", [Legalizer.nestedExpansion]⟩])
        [riscv] ⟨"out"⟩ {} staleSettings = ((s₁, .ok ()), fs₁) ∧
      fs₁.read? (Path.join ⟨"out"⟩ ⟨"settings.rs"⟩) =
        some (settingsPage (sharedWith []).settings).text.toUTF8 ∧
      run (m := StateM FileSystem) (sharedWith [⟨"expand", "", [Legalizer.nestedExpansion]⟩])
        [riscv] ⟨"out"⟩ s₁ fs₁ = ((s₂, .ok ()), fs₁) ∧
      s₂.filesWritten = s₁.filesWritten ∧ s₂.filesUnchanged = s₁.filesUnchanged + 3 ∧
      s₂.rules = s₁.rules + 1 := by
  have hbuilt : ∀ g ∈ (sharedWith [⟨"expand", "", [Legalizer.nestedExpansion]⟩]).ruleGroups,
      ∀ r ∈ g.rules, r.Built := by
    simpa [sharedWith] using Legalizer.nestedExpansion_accepted.built
  have hgen : ∀ g ∈ (sharedWith [⟨"expand", "", [Legalizer.nestedExpansion]⟩]).ruleGroups,
      (Legalizer.groupEmission Shared.group g).error? = none := by
    intro g hg
    rw [List.mem_singleton.mp hg]
    rfl
  have hslash : ∀ t ∈ [riscv], '/' ∉ t.name.toList := by decide
  have hmake : staleSettings.makeDirectories ⟨"out"⟩ = (staleSettings, .ok ()) := rfl
  obtain ⟨s₁, fs₁, hrun⟩ := run_succeeds {} hslash hmake hgen (by
    intro file hfile
    simp only [sources, settingsFiles, List.map_cons, List.map_nil, List.mem_cons,
      List.not_mem_nil, or_false] at hfile
    rcases hfile with rfl | rfl | rfl
    · exact ⟨#["out", "legalizer.rs"], rfl, by decide⟩
    · exact ⟨#["out", "settings.rs"], rfl, by decide⟩
    · exact ⟨#["out", "settings-riscv.rs"], rfl, by decide⟩)
  obtain ⟨counts, h⟩ := regeneration_stable hbuilt (by decide) hslash hrun
  refine ⟨s₁, _, fs₁, hrun, h.read _ (List.mem_cons_of_mem _ List.mem_cons_self), h.again,
    rfl, rfl, ?_⟩
  exact congrArg (s₁.rules + ·) h.rules

/-- What a run leaves when a group breaks off, for `cause`, after the groups `before`. -/
structure BreaksOff (insts : InstructionGroup) (directory : Path) (before : List RuleGroup)
    (g : RuleGroup) (cause : Error) (s s' : Statistics) (fs fs' : FileSystem) : Prop where
  earlier : ∀ g' ∈ before, (Legalizer.groupEmission insts g').error? = none
  error : (Legalizer.groupEmission insts g).error? = some cause
  cause : (∃ reason, cause = .codeGeneration reason) ∨ ∃ index, cause = .unknownInstruction index
  /-- The files are what they were. -/
  file_iff : ∀ q content, fs'.node? q = some (.file content) ↔ fs.node? q = some (.file content)
  /-- All that is new is the directory, and directories above it. -/
  new : ∀ q, fs'.node? q ≠ fs.node? q →
    fs'.node? q = some .directory ∧ ∃ p ∈ directory.chain, fs'.locate p = .ok q
  /-- When those above it were there, it is the directory alone. -/
  new_eq : ∀ place, fs.locate directory = .ok place → ∀ q, fs'.node? q ≠ fs.node? q → q = place
  filesWritten : s'.filesWritten = s.filesWritten
  filesUnchanged : s'.filesUnchanged = s.filesUnchanged
  lines : s'.lines = s.lines
  /-- The rules are counted up to those of the group, and with them. -/
  rules : s'.rules = s.rules + ((before ++ [g]).map (·.rules.length)).sum

/-- **A rejected group leaves the files.**  For any definitions of rules that were built, targets,
directory and file system: when a run fails and no operation on files did, then a group broke off,
for a rule that cannot be used or an instruction that is unknown.  The files are what they were, and
all that is new is the directory, or those above it that were missing as well.  No file and no line
was counted, and of the rules those of the groups up to and including that one. -/
theorem rejected_group_leaves_files
    (hbuilt : ∀ g ∈ d.ruleGroups, ∀ r ∈ g.rules, r.Built)
    (hrun : run (m := StateM FileSystem) d targets directory s fs = ((s', .error cause), fs'))
    (hcause : ∀ fault, cause ≠ .file fault) :
    ∃ before g after, d.ruleGroups = before ++ g :: after ∧
      BreaksOff d.instructions directory before g cause s s' fs fs' := by
  rw [run_eq] at hrun
  split at hrun
  · cases hrun
    exact absurd rfl (hcause _)
  · rename_i fs₁ hmake
    rcases exists_first_error d.instructions d.ruleGroups with
      hgroups | ⟨before, g, after, cause', hsplit, hbefore, hg⟩
    · rw [writePasses_of_ok _ _ hgroups] at hrun
      obtain ⟨fault, rfl⟩ := fault_of_updateFiles hrun
      exact absurd rfl (hcause fault)
    · have hpasses := writePasses_of_error legalizerOpening s after hbefore hg
      rw [← hsplit] at hpasses
      generalize writePasses d.instructions legalizerOpening s d.ruleGroups = passes
        at hrun hpasses
      obtain ⟨page, rest⟩ := passes
      cases hpasses
      cases hrun
      obtain ⟨hmade, -⟩ := FileSystem.made_makeDirectories hmake
      have hmem : g ∈ d.ruleGroups := by
        rw [hsplit]
        exact List.mem_append_right before List.mem_cons_self
      exact ⟨before, g, after, hsplit, {
        earlier := hbefore
        error := hg
        cause := group_error (hbuilt g hmem) hg
        file_iff := fun q content => hmade.file_iff
        new := fun q hq => (hmade.new q hq).2
        new_eq := fun place hplace q hq => FileSystem.eq_of_makeDirectories hplace hmake hq
        filesWritten := rfl
        filesUnchanged := rfl
        lines := rfl
        rules := congrArg (s.rules + ·) List.length_flatMap }⟩

/-- The second of two groups has two rules for one instruction: their three rules and nine variables
are counted, and there is no file. -/
theorem repeated_rule_leaves_files :
    ∃ fs₁ reason,
      run (m := StateM FileSystem)
        (sharedWith [⟨"expand", "", [Legalizer.nestedExpansion]⟩,
          ⟨"again", "", [Legalizer.nestedExpansion, Legalizer.nestedExpansion]⟩])
        [riscv] ⟨"build/out"⟩ {} {} =
          (({ rules := 3, inputs := 6, outputs := 3 }, .error (.codeGeneration reason)), fs₁) ∧
      ∀ q content, fs₁.node? q ≠ some (.file content) := by
  have hbuilt : ∀ g ∈ (sharedWith [⟨"expand", "", [Legalizer.nestedExpansion]⟩,
      ⟨"again", "", [Legalizer.nestedExpansion, Legalizer.nestedExpansion]⟩]).ruleGroups,
      ∀ r ∈ g.rules, r.Built := by
    simpa [sharedWith] using Legalizer.nestedExpansion_accepted.built
  have hrun : ∃ fs₁ reason,
      run (m := StateM FileSystem)
        (sharedWith [⟨"expand", "", [Legalizer.nestedExpansion]⟩,
          ⟨"again", "", [Legalizer.nestedExpansion, Legalizer.nestedExpansion]⟩])
        [riscv] ⟨"build/out"⟩ {} {} =
          (({ rules := 3, inputs := 6, outputs := 3 }, .error (.codeGeneration reason)), fs₁) :=
    ⟨_, _, rfl⟩
  obtain ⟨fs₁, reason, hrun⟩ := hrun
  obtain ⟨before, g, after, -, h⟩ := rejected_group_leaves_files hbuilt hrun (by simp)
  refine ⟨fs₁, reason, hrun, fun q content hq => ?_⟩
  -- the file system was empty
  have hnone := (h.file_iff q content).mp hq
  rw [FileSystem.node?] at hnone
  split at hnone <;> cases hnone

end Generation

end Isaforge
