import AiDb.Store

/-!
# Table files

A table file is a content under a number of the directory; a reader keeps the
content it was opened on, whatever becomes of the number. `Disk.Sane` holds of
every directory a run reaches.
-/

namespace AiDb

open Library Compaction

/-- Every number leads to a content, no two numbers to the same one, and a
finished content is a table. -/
structure Disk.Sane (d : Disk) : Prop where
  linked : ∀ n file, d.ssts.lookup n = some file → file < d.files.length
  apart : ∀ n m file, d.ssts.lookup n = some file → d.ssts.lookup m = some file → n = m
  wellFormed : ∀ (file : Nat) (f : SstFile), d.files[file]? = some (.complete f) → f.WellFormed

variable {d d' : Disk} {w w' : World} {s s' : Sys}

theorem Disk.sane_empty : (World.empty len).disk.Sane where
  linked n file h := by simp [World.empty] at h
  apart n m file h := by simp [World.empty] at h
  wellFormed file f h := by simp [World.empty] at h

theorem Disk.Sane.of_sub (h : d.Sane) (hs : ∀ n file, d'.ssts.lookup n = some file → d.ssts.lookup n = some file)
    (hf : d'.files = d.files) : d'.Sane where
  linked n file hl := by rw [hf]; exact h.linked n file (hs n file hl)
  apart n m file hn hm := h.apart n m file (hs n file hn) (hs m file hm)
  wellFormed := by rw [hf]; exact h.wellFormed

theorem Disk.lookup_removeSst (h : (d.removeSst n).ssts.lookup m = some file) : d.ssts.lookup m = some file := by
  unfold Disk.removeSst at h
  by_cases hm : m = n
  · subst hm
    rw [AList.lookup_erase] at h
    cases h
  · rwa [AList.lookup_erase_ne hm] at h

theorem Disk.lookup_removeSsts (h : (d.removeSsts rs).ssts.lookup m = some file) :
    d.ssts.lookup m = some file := by
  induction rs generalizing d with
  | nil => exact h
  | cons r rs ih => exact Disk.lookup_removeSst (ih h)

theorem Disk.lookup_createSst : (d.createSst n).ssts.lookup m =
    if m = n then some ((d.ssts.lookup n).getD d.files.length) else d.ssts.lookup m := by
  unfold Disk.createSst
  cases hn : d.ssts.lookup n with
  | none =>
    by_cases hm : m = n
    · subst hm
      simp
    · simp [hm]
  | some file =>
    by_cases hm : m = n
    · subst hm
      simp [hn]
    · simp [hm]

theorem Disk.length_createSst : d.files.length ≤ (d.createSst n).files.length := by
  unfold Disk.createSst
  cases d.ssts.lookup n <;> simp

@[simp] theorem Disk.length_finishSst (d : Disk) (n : Nat) (f : SstFile) : (d.finishSst n f).files.length = d.files.length := by
  unfold Disk.finishSst
  split <;> simp

theorem Disk.Sane.createSst (h : d.Sane) (n : Nat) : (d.createSst n).Sane where
  linked m file hl := by
    rw [Disk.lookup_createSst] at hl
    split_ifs at hl with hm
    · unfold Disk.createSst
      cases hn : d.ssts.lookup n with
      | none =>
        rw [hn] at hl
        cases hl
        simp
      | some file' =>
        rw [hn] at hl
        cases hl
        simpa using h.linked n _ hn
    · exact lt_of_lt_of_le (h.linked m file hl) Disk.length_createSst
  apart := by
    -- the content of `n` is its own, or a new one
    have hown : ∀ m file, m ≠ n → d.ssts.lookup m = some file →
        some file ≠ some ((d.ssts.lookup n).getD d.files.length) := by
      intro m file hm hl heq
      cases hn : d.ssts.lookup n with
      | none =>
        rw [hn] at heq
        cases heq
        exact absurd (h.linked m _ hl) (lt_irrefl _)
      | some file' =>
        rw [hn] at heq
        cases heq
        exact hm (h.apart m n _ hl hn)
    intro m m' file hl hl'
    rw [Disk.lookup_createSst] at hl hl'
    split_ifs at hl hl' with hm hm' hm'
    · rw [hm, hm']
    · exact absurd hl.symm (hown m' file hm' hl')
    · exact absurd hl'.symm (hown m file hm hl)
    · exact h.apart m m' file hl hl'
  wellFormed file f hf := by
    unfold Disk.createSst at hf
    cases hn : d.ssts.lookup n with
    | none =>
      rw [hn] at hf
      dsimp only at hf
      rw [List.getElem?_append] at hf
      split_ifs at hf with hlt
      · exact h.wellFormed file f hf
      · cases hfile : file - d.files.length with
        | zero => rw [hfile] at hf; cases hf
        | succ k => rw [hfile] at hf; cases hf
    | some file' =>
      rw [hn] at hf
      dsimp only at hf
      rw [List.getElem?_set] at hf
      split_ifs at hf
      · cases hf
      · exact h.wellFormed file f hf

theorem Disk.Sane.removeSst (h : d.Sane) (n : Nat) : (d.removeSst n).Sane :=
  h.of_sub (fun _ _ => Disk.lookup_removeSst) rfl

theorem Disk.Sane.removeSsts (h : d.Sane) (rs : List SSTableReader) : (d.removeSsts rs).Sane := by
  induction rs generalizing d with
  | nil => exact h
  | cons r rs ih => exact ih (h.removeSst r.fileNumber)

theorem Disk.Sane.finishSst (h : d.Sane) (n : Nat) (hf : f.WellFormed) : (d.finishSst n f).Sane := by
  unfold Disk.finishSst
  split
  · refine ⟨fun m file hm => by simpa using h.linked m file hm, h.apart, fun file g hg => ?_⟩
    rw [List.getElem?_set] at hg
    split_ifs at hg
    · cases hg
      exact hf
    · exact h.wellFormed file g hg
  · exact h

theorem Disk.Sane.withSst (h : d.Sane) (n : Nat) (hf : f.WellFormed) : (d.withSst n f).Sane :=
  (h.createSst n).finishSst n hf

theorem Disk.Written.sane (hd : d.Written n es d') (h : d.Sane) : d'.Sane := by
  cases hd with
  | untouched => exact h
  | created => exact h.createSst n
  | abandoned => exact (h.createSst n).removeSst n
  | finished _ hf => exact h.withSst n hf

-- ---------------------------------------------------------------------------
-- The files of other numbers
-- ---------------------------------------------------------------------------

def Disk.Spares (n : Nat) (d d' : Disk) : Prop :=
  ∀ m file, m ≠ n → d.ssts.lookup m = some file →
    d'.ssts.lookup m = some file ∧ d'.files[file]? = d.files[file]?

theorem Disk.Spares.refl (n : Nat) (d : Disk) : d.Spares n d := fun _ _ _ h => ⟨h, rfl⟩

theorem Disk.Spares.trans {d'' : Disk} (h : d.Spares n d') (h' : d'.Spares n d'') : d.Spares n d'' := by
  intro m file hm hl
  obtain ⟨hl', hf⟩ := h m file hm hl
  obtain ⟨hl'', hf'⟩ := h' m file hm hl'
  exact ⟨hl'', hf'.trans hf⟩

theorem Disk.Sane.spares_createSst (h : d.Sane) (n : Nat) : d.Spares n (d.createSst n) := by
  intro m file hm hl
  refine ⟨by rw [Disk.lookup_createSst, if_neg hm]; exact hl, ?_⟩
  unfold Disk.createSst
  cases hn : d.ssts.lookup n with
  | none => exact List.getElem?_append_left (h.linked m file hl)
  | some file' =>
    have hne : file' ≠ file := fun heq => hm (h.apart m n file hl (heq ▸ hn))
    exact List.getElem?_set_ne hne

theorem Disk.Sane.spares_finishSst (h : d.Sane) (n : Nat) (f : SstFile) : d.Spares n (d.finishSst n f) := by
  intro m file hm hl
  refine ⟨by rw [Disk.finishSst_ssts]; exact hl, ?_⟩
  unfold Disk.finishSst
  cases hn : d.ssts.lookup n with
  | none => rfl
  | some file' =>
    have hne : file' ≠ file := fun heq => hm (h.apart m n file hl (heq ▸ hn))
    exact List.getElem?_set_ne hne

theorem Disk.spares_removeSst (d : Disk) (n : Nat) : d.Spares n (d.removeSst n) := by
  intro m file hm hl
  exact ⟨(AList.lookup_erase_ne hm).trans hl, rfl⟩

theorem Disk.Sane.spares_withSst (h : d.Sane) (n : Nat) (f : SstFile) : d.Spares n (d.withSst n f) :=
  (h.spares_createSst n).trans ((h.createSst n).spares_finishSst n f)

theorem Disk.Written.spares (hd : d.Written n es d') (h : d.Sane) : d.Spares n d' := by
  cases hd with
  | untouched => exact .refl n d
  | created => exact h.spares_createSst n
  | abandoned => exact (h.spares_createSst n).trans ((d.createSst n).spares_removeSst n)
  | finished => exact h.spares_withSst n _

/-- Contents that do not belong to `n` are as they were, and no number leads to them that
did not before. -/
def Disk.Leaves (n : Nat) (d d' : Disk) : Prop :=
  ∀ file < d.files.length, d.ssts.lookup n ≠ some file →
    d'.files[file]? = d.files[file]? ∧ ∀ m, d'.ssts.lookup m = some file → d.ssts.lookup m = some file

theorem Disk.leaves_createSst (n : Nat) (d : Disk) : d.Leaves n (d.createSst n) := by
  intro file hlt hn
  refine ⟨?_, fun m hm => ?_⟩
  · unfold Disk.createSst
    cases hl : d.ssts.lookup n with
    | none => exact List.getElem?_append_left hlt
    | some file' =>
      rw [hl] at hn
      exact List.getElem?_set_ne fun heq => hn (congrArg some heq)
  · rw [Disk.lookup_createSst] at hm
    split_ifs at hm with heq
    · cases hl : d.ssts.lookup n with
      | none =>
        rw [hl] at hm
        cases hm
        exact absurd hlt (lt_irrefl _)
      | some file' =>
        rw [hl] at hm hn
        exact absurd hm hn
    · exact hm

theorem Disk.Leaves.removeSsts (h : d.Leaves n d') (rs : List SSTableReader) : d.Leaves n (d'.removeSsts rs) := by
  intro file hlt hn
  obtain ⟨hfile, hback⟩ := h file hlt hn
  exact ⟨by rw [Disk.removeSsts_files]; exact hfile, fun m hm => hback m (Disk.lookup_removeSsts hm)⟩

theorem Disk.leaves_withSst (n : Nat) (d : Disk) (f : SstFile) : d.Leaves n (d.withSst n f) := by
  intro file hlt hn
  obtain ⟨hfile, hback⟩ := d.leaves_createSst n file hlt hn
  rw [Disk.withSst, Disk.finishSst_ssts]
  refine ⟨?_, hback⟩
  have hne : (d.createSst n).ssts.lookup n ≠ some file := fun heq => hn (hback n heq)
  unfold Disk.finishSst
  split
  · rename_i file' hl
    rw [hl] at hne
    rw [List.getElem?_set_ne fun heq => hne (congrArg some heq)]
    exact hfile
  · exact hfile

theorem Disk.Written.leaves (h : d.Written n es d') : d.Leaves n d' := by
  cases h with
  | untouched => exact fun file _ _ => ⟨rfl, fun _ => id⟩
  | created => exact d.leaves_createSst n
  | abandoned =>
    intro file hlt hn
    obtain ⟨hfile, hback⟩ := d.leaves_createSst n file hlt hn
    exact ⟨hfile, fun m hm => hback m (Disk.lookup_removeSst hm)⟩
  | finished => exact d.leaves_withSst n _

theorem Disk.Written.length_le (h : d.Written n es d') : d.files.length ≤ d'.files.length := by
  cases h with
  | untouched => exact le_refl _
  | created => exact Disk.length_createSst
  | abandoned => exact Disk.length_createSst
  | finished =>
    rw [Disk.withSst, Disk.length_finishSst]
    exact Disk.length_createSst

-- ---------------------------------------------------------------------------
-- Writing a table
-- ---------------------------------------------------------------------------

/-- A number was handed out, and a table written under it or not. -/
structure Sys.TableStep (s s' : Sys) : Prop where
  kept : s.MemtablesKept s'
  levels : s'.db.sstables.length = s.db.sstables.length
  nextFileNumber : s'.db.nextFileNumber = s.db.nextFileNumber + 1
  handed : s'.world.handed = s.handOut.world.handed
  unreadable : s'.world.unreadable = s.world.unreadable
  calm : s.world.faults = [] → s'.world.faults = []
  sane : s.world.disk.Sane → s'.world.disk.Sane

theorem Sys.noOverwrite_handOut (s : Sys) :
    s.handOut.world.NoOverwrite ↔ s.db.nextFileNumber ∉ s.world.disk.ssts ∧ s.world.NoOverwrite := by
  simp [World.NoOverwrite, Sys.handOut]

theorem Sys.TableStep.unused (h : s.TableStep s') (hno : s'.world.NoOverwrite) :
    s.db.nextFileNumber ∉ s.world.disk.ssts ∧ s.world.NoOverwrite := by
  rw [← s.noOverwrite_handOut]
  unfold World.NoOverwrite at hno ⊢
  rwa [← h.handed]

theorem Sys.AtTables.tableStep (hsane : s.world.disk.Sane → d.Sane) (hlen : levels.length = s.db.sstables.length)
    (h : s'.AtTables { s.handOut.db with sstables := levels } s.handOut.world d) : s.TableStep s' := by
  obtain ⟨⟨vs, hdb⟩, manifest, hat⟩ := h
  refine ⟨⟨?_, ?_, ?_, ?_, hat.writes_eq⟩, by rw [hdb]; exact hlen, ?_, hat.handed_eq, hat.unreadable_eq, hat.calm, fun h => ?_⟩
  iterate 5 simp only [hdb, Sys.handOut]
  rw [hat.disk_eq]
  exact (hsane h).of_sub (fun _ _ => id) rfl

theorem flushMemtableToSstable_step (m : MemTable) (s : Sys) :
    Triple (flushMemtableToSstable m) s (fun _ => s.TableStep) (fun _ => s.TableStep) := by
  refine (flushMemtableToSstable_spec m s).mono ?_ ?_
  · rintro _ s' (⟨hes, hdb, hat⟩ | ⟨hes, f, r, hwf, hentries, hdb, hat, -⟩)
    · exact Sys.AtTables.tableStep (Disk.Written.abandoned hes).sane rfl (.intro hdb hat)
    · exact Sys.AtTables.tableStep (Disk.Written.finished hes hwf hentries).sane (List.length_modify ..) (.intro hdb hat)
  · rintro _ s' ⟨hdb, d, hwritten, hat⟩
    exact Sys.AtTables.tableStep hwritten.sane rfl (.intro hdb hat)

theorem length_updateLevels (task : CompactionTask) (r : SSTableReader) (levels : Levels) :
    (updateLevels task r levels).length = levels.length := by
  simp [updateLevels]

theorem Sys.Compacted.tableStep (h : s.Compacted task removed s') : s.TableStep s' := by
  obtain ⟨es, f, r, -, -, hwf, -, -, -, -, hat⟩ := h
  exact Sys.AtTables.tableStep (fun h => (h.withSst _ hwf).removeSsts removed) (length_updateLevels ..) hat

theorem compact_step (task : CompactionTask) (s : Sys) (hn : s.db.nextFileNumber ≠ 0) :
    Triple (compact task) s (fun _ => s.TableStep) (fun _ => s.TableStep) := by
  refine (compact_spec task s hn).mono ?_ ?_
  · rintro _ s' (⟨-, hdb, hat⟩ | hc)
    · exact Sys.AtTables.tableStep (Disk.Written.abandoned rfl).sane rfl (.intro hdb hat)
    · exact hc.tableStep
  · rintro _ s' (⟨es, d, hd, hat⟩ | ⟨removed, -, hc⟩)
    · rcases hd with ⟨-, hd⟩ | rfl
      · exact Sys.AtTables.tableStep hd.sane rfl hat
      · exact Sys.AtTables.tableStep id rfl hat
    · exact hc.tableStep

-- ---------------------------------------------------------------------------
-- Flushes that return
-- ---------------------------------------------------------------------------

theorem Disk.Sane.withSst_complete (h : d.Sane) (n : Nat) (f : SstFile) :
    ∃ file, (d.withSst n f).ssts.lookup n = some file ∧ (d.withSst n f).files[file]? = some (.complete f) := by
  have hlookup : (d.createSst n).ssts.lookup n = some ((d.ssts.lookup n).getD d.files.length) := by
    rw [Disk.lookup_createSst, if_pos rfl]
  have hlt := (h.createSst n).linked n _ hlookup
  refine ⟨_, by rw [Disk.withSst, Disk.finishSst_ssts]; exact hlookup, ?_⟩
  rw [Disk.withSst, Disk.finishSst, hlookup]
  simp [hlt]

/-- Without a fault only an empty key stops the flush of a memtable. -/
theorem flushMemtableToSstable_calm (hsane : s.world.disk.Sane) (hcalm : s.world.faults = [])
    (hasc : Ascending m.table) : Triple (flushMemtableToSstable m) s (fun _ _ => True) (fun _ _ => False) := by
  unfold flushMemtableToSstable
  refine takeFileNumber_bind ?_
  refine Triple.get_bind ?_
  have hat : s.handOut.world.At s.world.disk s.handOut.world := World.At.refl _
  refine ((onWorld_spec (createSst_spec s.db.nextFileNumber hat)).mono (fun _ _ => id) ?_).bind ?_
  · exact fun _ _ hf => hf.2.1 hcalm
  rintro _ s1 ⟨-, hat1⟩
  refine ((onWorld_spec (writeTable_spec _ _ _ hat1)).mono (fun _ _ => id) ?_).bind ?_
  · exact fun _ _ hf => hf.2.1 hcalm hasc
  rintro _ s2 ⟨-, ⟨hes, -⟩ | ⟨hes, f, -, -, hat2⟩⟩
  · rw [if_pos hes]
    exact Triple.pure trivial
  · rw [if_neg hes]
    refine ((onWorld_spec (openWithCache_spec _ hat2)).mono (fun _ _ => id) ?_).bind ?_
    · obtain ⟨file, hlookup, hcontent⟩ := hsane.withSst_complete s.db.nextFileNumber f
      exact fun _ _ hf => (hf.2.1 hcalm).2 file f hlookup hcontent
    · exact fun r s3 _ => Triple.modify_bind (Triple.pure trivial)

theorem MemTable.table_ascending {m : MemTable} (h : ∀ e ∈ m.iter, e.1.userKey ≠ []) : Ascending m.table := by
  refine ⟨m.table_sorted, fun e he => ?_⟩
  rw [MemTable.table, MemTable.latestVersions_eq] at he
  obtain ⟨x, hx, rfl⟩ := List.mem_map.mp (mem_survivors he).1
  exact h x hx

theorem flushMemtables_calm (hsane : s.world.disk.Sane) (hcalm : s.world.faults = [])
    (hkeys : ∀ m ∈ s.db.memtables, ∀ e ∈ m.iter, e.1.userKey ≠ []) :
    Triple flushMemtables s (fun _ _ => True) (fun _ _ => False) := by
  let I : Sys → Prop := fun s => s.world.disk.Sane ∧ s.world.faults = [] ∧
    ∀ m ∈ s.db.immutableMemtables, Ascending m.table
  have hloop : Triple (flushImmutables s.frozen.db.immutableMemtables.length) s.frozen (fun _ => I) (fun _ _ => False) := by
    refine flushImmutables_rule ?_ _ ?_
    · rintro s m rest ⟨hsane, hcalm, hasc⟩ himm
      have hm : Ascending m.table := hasc m (by rw [himm]; exact List.mem_cons_self)
      have hrun := flushMemtableToSstable_calm (s := s.popped rest) hsane hcalm hm
      refine (hrun.and (flushMemtableToSstable_step m (s.popped rest))).mono ?_ (fun _ _ hf => hf.1)
      rintro _ s' ⟨-, hstep⟩
      refine ⟨hstep.sane hsane, hstep.calm hcalm, fun m' hm' => hasc m' ?_⟩
      rw [hstep.kept.immutableMemtables] at hm'
      rw [himm]
      exact List.mem_cons_of_mem _ hm'
    · have hk := s.tablesKept_frozen
      refine ⟨hsane.of_sub (by rw [hk.ssts]; exact fun _ _ => id) hk.files, ?_, fun m hm => MemTable.table_ascending (hkeys m ?_)⟩
      · unfold Sys.frozen
        split
        · exact hcalm
        · exact hcalm
      · unfold Sys.frozen at hm
        split at hm
        · simp [DB.memtables, hm]
        · simpa [Sys.freeze, DB.freeze, DB.memtables, or_comm] using hm
  exact flushMemtables_eq (hloop.mono (fun _ _ _ => trivial) fun _ _ => id)

end AiDb
