import AiDb.Overlap
import AiDb.Recording

/-!
# What the version lists

`VersionSet::current` is meant to list the tables of the handle. A compaction logs
its output and its inputs; flushing a memtable logs nothing, and opening puts every
table of the directory into level 0 whatever the manifest says. So the version and
the handle agree as long as every call leaves level 0 empty.
-/

namespace AiDb

open Library Compaction

variable {s s' : Sys}

def versionNumbers (v : Version) : List (List Nat) := v.map (·.map FileMetaData.fileNumber)

def tableNumbers (levels : Levels) : List (List Nat) := levels.map (·.map SSTableReader.fileNumber)

-- ---------------------------------------------------------------------------
-- The edits of a compaction
-- ---------------------------------------------------------------------------

theorem versionNumbers_edited (v : Version) (out level : Nat) (file : FileMetaData) (ns : List Nat) :
    versionNumbers ((v.modify out (· ++ [file])).modify level (·.filter (·.fileNumber ∉ ns))) =
      ((versionNumbers v).modify out (· ++ [file.fileNumber])).modify level (·.filter (· ∉ ns)) := by
  unfold versionNumbers
  rw [map_modify (h := (·.filter (· ∉ ns))), map_modify (h := (· ++ [file.fileNumber]))]
  · simp
  · intro l
    simp [List.filter_map, Function.comp_def]

theorem Compacts.edited {ns : List Nat} (h : Compacts ns n level t t') (hnodup : t.flatten.Nodup) :
    (([] :: t.tail).modify (level + 1) (· ++ [n])).modify level (·.filter (· ∉ ns)) = [] :: t'.tail := by
  cases h with
  | level0 => simp
  | @deeper x l0 above rest next below hx =>
    subst hx
    have hx : x ∉ rest := by
      simp only [List.flatten_cons, List.flatten_append, List.nodup_append, List.cons_append, List.nodup_cons,
        List.mem_append, not_or] at hnodup
      exact hnodup.2.1.2.1.1.1
    have hfilter : rest.filter (· ∉ [x]) = rest := by
      refine List.filter_eq_self.mpr fun y hy => ?_
      simpa using fun heq : y = x => hx (heq ▸ hy)
    have hmodify := fun f (ls : List (List Nat)) => modify_append_length (f := f) above ls 0
    simp only [Nat.add_zero] at hmodify
    simp only [List.tail_cons, List.modify_succ_cons, modify_append_length, hmodify, List.modify_zero_cons]
    simpa using hfilter

theorem compactOutput_number (task : CompactionTask) (s : Sys) :
    Triple (compactOutput task) s
      (fun o _ => ∀ reader file, o = some (reader, file) →
        reader.fileNumber = s.db.nextFileNumber ∧ file.fileNumber = s.db.nextFileNumber)
      (fun _ _ => True) := by
  unfold compactOutput
  refine takeFileNumber_bind (Triple.get_bind ?_)
  have hjob := onWorld_spec (s := s.handOut)
    (runJob_spec task.inputs task.outputLevel s.handOut.db.options.blockSize s.db.nextFileNumber (.refl _))
  refine (hjob.mono (fun _ _ => id) fun _ _ _ => trivial).bind ?_
  rintro result s1 ⟨-, merged, -, hresult⟩
  split
  · exact Triple.pure (by simp)
  rename_i hne
  have hnumber : result.fileNumber = s.db.nextFileNumber := by
    rcases hresult with ⟨-, hzero, -⟩ | ⟨-, hnumber, -⟩
    · exact absurd hzero hne
    · exact hnumber
  have hopen := onWorld_spec (s := s1) (openWithCache_spec s.db.nextFileNumber (.refl _))
  refine (hopen.mono (fun _ _ => id) fun _ _ _ => trivial).bind ?_
  rintro reader s2 ⟨-, -, file, f, -, -, hreader, -⟩
  refine Triple.get_bind ((Triple.returns (Q := fun _ _ => True) fun _ _ _ => trivial).bind fun smallest s3 _ => ?_)
  split
  · refine Triple.pure ?_
    rintro _ _ ⟨⟩
    exact ⟨by rw [hreader]; rfl, hnumber⟩
  · exact Triple.throw trivial

-- ---------------------------------------------------------------------------
-- The invariant
-- ---------------------------------------------------------------------------

/-- The version lists the tables of the levels from 1 on, and none of level 0. -/
structure Sys.Listed (s : Sys) : Prop where
  alone : s.Alone
  below : ∀ r ∈ s.db.sstables.flatten, r.fileNumber < s.db.nextFileNumber
  distinct : (s.db.sstables.flatten.map SSTableReader.fileNumber).Nodup
  deep : versionNumbers s.db.versionSet.current = [] :: (tableNumbers s.db.sstables).tail

theorem Sys.Listed.of_db (h : s.Listed) (halone : s'.Alone) (hsst : s'.db.sstables = s.db.sstables)
    (hnext : s.db.nextFileNumber ≤ s'.db.nextFileNumber) (hset : s'.db.versionSet = s.db.versionSet) : s'.Listed where
  alone := halone
  below r hr := lt_of_lt_of_le (h.below r (by rwa [hsst] at hr)) hnext
  distinct := by rw [hsst]; exact h.distinct
  deep := by rw [hset, hsst]; exact h.deep

theorem Sys.Listed.logs (h : s.Listed) (hl : s.Logs s') : s'.Listed := by
  have halone := h.alone.logs hl
  obtain ⟨wal, n, logs, faults, -, rfl⟩ := hl
  exact h.of_db halone rfl le_rfl rfl

theorem Sys.Listed.fresh (h : s.Listed) (hr : r.fileNumber = s.db.nextFileNumber) :
    ((r :: s.db.sstables.flatten).map SSTableReader.fileNumber).Nodup := by
  rw [List.map_cons, List.nodup_cons, hr]
  refine ⟨fun hmem => ?_, h.distinct⟩
  obtain ⟨r', hr', heq⟩ := List.mem_map.mp hmem
  exact absurd (h.below r' hr') (by omega)

theorem flushMemtableToSstable_listed (h : s.Listed) (himm : s.db.immutableMemtables = m :: rest)
    (hr : flushMemtableToSstable m (s.popped rest) = .ok n s') : s'.Listed := by
  have halone := ((flushMemtableToSstable_alone h.alone himm).ok hr).1
  rcases (flushMemtableToSstable_spec m (s.popped rest)).ok hr with ⟨-, hdb, -⟩ | ⟨-, f, r, -, -, hdb, -, ho⟩
  · exact h.of_db halone (by rw [hdb]; rfl) (by rw [hdb]; exact Nat.le_succ _) (by rw [hdb]; rfl)
  · have hnumber : r.fileNumber = s.db.nextFileNumber := by rw [ho.reader]; rfl
    obtain ⟨l0, ls, hsst⟩ := List.exists_cons_of_ne_nil h.alone.reached.levels
    have hsst' : s'.db.sstables = (r :: l0) :: ls := by
      rw [hdb]
      simp [DB.installFront, Sys.handOut, Sys.popped, hsst]
    have hnext : s'.db.nextFileNumber = s.db.nextFileNumber + 1 := by rw [hdb]; rfl
    have hflat : s'.db.sstables.flatten = r :: s.db.sstables.flatten := by simp [hsst', hsst]
    refine ⟨halone, fun r' hr' => ?_, by rw [hflat]; exact h.fresh hnumber, ?_⟩
    · rw [hflat] at hr'
      rcases List.mem_cons.mp hr' with rfl | hr'
      · omega
      · have := h.below r' hr'
        omega
    · have hset : s'.db.versionSet = s.db.versionSet := by rw [hdb]; rfl
      rw [hset, h.deep, hsst', hsst]
      rfl

theorem compact_listed (h : s.Listed) (hpick : pickCompaction s.db.options.maxLevels s.db.sstables = some (some task))
    (hr : compact task s = .ok () s') : s'.Listed ∧ (s'.db.sstables = s.db.sstables ∨
      ∃ r, Compacts task.inputs r task.level s.db.sstables s'.db.sstables) := by
  have halone := ((compact_alone h.alone hpick).ok hr).1
  rw [compact_eq] at hr
  obtain ⟨o, s1, hout, hfinish⟩ := bind_eq_ok hr
  have hdb1 := (compactOutput_db task s).ok hout
  cases o with
  | none =>
    obtain rfl : s1 = s' := by cases hfinish; rfl
    have hsst : s1.db.sstables = s.db.sstables := by rw [hdb1]; rfl
    exact ⟨h.of_db halone hsst (by rw [hdb1]; exact Nat.le_succ _) (by rw [hdb1]; rfl), .inl hsst⟩
  | some out =>
    obtain ⟨reader, file⟩ := out
    obtain ⟨hreader, hfile⟩ := (compactOutput_number task s).ok hout reader file rfl
    obtain ⟨_, s2, hedits, hinstall⟩ := bind_eq_ok hfinish
    obtain ⟨vs, hvs, hs2⟩ := (logEdits_recorded _ s1).ok hedits
    have hinst : Triple (installOutput task reader) s2 (fun _ s' => task.outputLevel < s2.db.sstables.length ∧
        s'.db = { s2.db with sstables := updateLevels task reader s2.db.sstables }) (fun _ _ => True) := by
      unfold installOutput
      refine Triple.get_bind (Triple.get_bind ?_)
      split
      · rename_i hlen
        refine Triple.modify_bind ?_
        exact (onWorld_db _ _).mono (fun _ _ hdb => ⟨hlen.2, hdb⟩) fun _ _ _ => trivial
      · exact Triple.throw trivial
    obtain ⟨hlen, hdb'⟩ := hinst.ok hinstall
    have hsst2 : s2.db.sstables = s.db.sstables := by rw [hs2, hdb1]; rfl
    have hset1 : s1.db.versionSet = s.db.versionSet := by rw [hdb1]; rfl
    have hsst' : s'.db.sstables = updateLevels task reader s.db.sstables := by rw [hdb', hsst2]
    have hset' : s'.db.versionSet = vs := by rw [hdb', hs2]
    have hnext' : s'.db.nextFileNumber = s.db.nextFileNumber + 1 := by rw [hdb', hs2, hdb1]; rfl
    rw [hsst2] at hlen
    have hcompacts : Compacts task.inputs reader task.level s.db.sstables s'.db.sstables := by
      rw [hsst']
      exact updateLevels_compacts hpick h.alone.intact.arcs hlen reader
    obtain ⟨others, hperm, hperm'⟩ := hcompacts.perm
    have hold : others.Subset s.db.sstables.flatten := fun r hr => hperm.mem_iff.mpr (List.mem_append_right _ hr)
    refine ⟨⟨halone, fun r hr => ?_, ?_, ?_⟩, .inr ⟨reader, hcompacts⟩⟩
    · rcases List.mem_cons.mp (hperm'.mem_iff.mp hr) with rfl | hr
      · omega
      · have := h.below r (hold hr)
        omega
    · have hfresh := h.fresh hreader
      rw [List.map_cons, List.nodup_cons, (hperm.map SSTableReader.fileNumber).nodup_iff, List.map_append] at hfresh
      rw [(hperm'.map SSTableReader.fileNumber).nodup_iff, List.map_cons, List.nodup_cons]
      exact ⟨fun hmem => hfresh.1 (List.map_subset _ hold hmem), (List.nodup_append.mp hfresh.2).2.1⟩
    · have hnumbers := hcompacts.map SSTableReader.fileNumber
      rw [hreader] at hnumbers
      have hout : task.outputLevel = task.level + 1 := by
        rcases pickCompaction_cases hpick with ⟨_, _, -, -, rfl⟩ | ⟨-, i, _, _, -, -, rfl⟩ <;> rfl
      rw [hset', applyEdits_compaction hvs, versionNumbers_edited, hset1, hfile, h.deep, hout]
      exact hnumbers.edited (by rw [← List.map_flatten]; exact h.distinct)

-- ---------------------------------------------------------------------------
-- Calls
-- ---------------------------------------------------------------------------

theorem flushTables_listed (h : s.Listed) (hr : flushTables s = .ok () s') : s'.Listed := by
  refine flushTables_returns (fun s m rest n s' hF himm hr => flushMemtableToSstable_listed hF himm hr)
    (fun s s' hF hl => hF.logs hl) ?_ hr
  have hk := s.tablesKept_frozen
  refine h.of_db h.alone.frozen hk.sstables (le_of_eq hk.nextFileNumber.symm) ?_
  unfold Sys.frozen
  split <;> rfl

theorem maybeTriggerCompaction_listed (h : s.Listed) (hr : maybeTriggerCompaction s = .ok () s') : s'.Listed ∧
    (s'.db.sstables = s.db.sstables ∨ ∃ task r, pickCompaction s.db.options.maxLevels s.db.sstables = some (some task) ∧
      Compacts task.inputs r task.level s.db.sstables s'.db.sstables) := by
  have hrun : Triple maybeTriggerCompaction s (fun _ s' => s'.Listed ∧ (s'.db.sstables = s.db.sstables ∨
      ∃ task r, pickCompaction s.db.options.maxLevels s.db.sstables = some (some task) ∧
        Compacts task.inputs r task.level s.db.sstables s'.db.sstables)) (fun _ _ => True) := by
    unfold maybeTriggerCompaction
    refine Triple.get_bind ?_
    dsimp only
    split
    · exact Triple.throw trivial
    · exact Triple.pure ⟨h, .inl rfl⟩
    · rename_i task hpick
      refine Triple.returns fun _ s' hr => ?_
      obtain ⟨hl, hsst⟩ := compact_listed h hpick hr
      exact ⟨hl, hsst.imp_right fun ⟨r, hc⟩ => ⟨task, r, hpick, hc⟩⟩
  exact hrun.ok hr

structure Sys.Agrees (s : Sys) : Prop where
  listed : s.Listed
  level0 : s.db.sstables.headD [] = []

theorem Sys.Agrees.enter {db : DB} {w : World} (h : Sys.Agrees ⟨db, w⟩) (env : Env) : Sys.Agrees ⟨db, w.enter env⟩ :=
  ⟨⟨h.listed.alone.enter env, h.listed.below, h.listed.distinct, h.listed.deep⟩, h.level0⟩

theorem Sys.level0_of_tables (h : s.tables.headD [] = []) : s.db.sstables.headD [] = [] := by
  rwa [← List.length_eq_zero_iff, ← s.length_level0, List.length_eq_zero_iff]

theorem Compacts.level0_nil (h : Compacts inputs out level t t') (ht : t.headD [] = []) : t'.headD [] = [] := by
  cases h with
  | level0 => rfl
  | deeper => exact ht

theorem maybeTriggerCompaction_agrees (h : s.Agrees) (hr : maybeTriggerCompaction s = .ok () s') : s'.Agrees := by
  obtain ⟨hlisted, hsst | ⟨task, r, hpick, hc⟩⟩ := maybeTriggerCompaction_listed h.listed hr
  · exact ⟨hlisted, by rw [hsst]; exact h.level0⟩
  · refine ⟨hlisted, ?_⟩
    exact hc.level0_nil h.level0

/-- What a flush writes to level 0, its compaction takes away again. -/
def Sys.FlushesThrough (s : Sys) : Prop :=
  tablesOf s.db.memtables = [] ∨ maxLevel0Files ≤ (tablesOf s.db.memtables).length ∧
    (∃ key, live (firstStored (tablesOf s.db.memtables) key) ≠ none) ∧ ∀ file off, s.world.unreadable file off = false

theorem flushTables_level0 (h : s.Agrees) (hr : flushTables s = .ok () s') : s'.tables.headD [] = tablesOf s.db.memtables := by
  have hlisted := flushTables_listed h.listed hr
  rw [((flushTables_emptied hr).tables hlisted.alone.numbered.unused h.listed.alone.intact).2]
  have hl0 : s.tables.headD [] = [] := by
    rw [← List.length_eq_zero_iff, s.length_level0, h.level0]
    rfl
  have hne : s.tables ≠ [] := by simpa [Sys.tables] using h.listed.alone.reached.levels
  obtain ⟨l0, ls, ht⟩ := List.exists_cons_of_ne_nil hne
  rw [ht] at hl0 ⊢
  obtain rfl : l0 = [] := hl0
  simp

theorem flush_agrees (h : s.Agrees) (hthrough : s.FlushesThrough) (hr : flush s = .ok () s') : s'.Agrees := by
  obtain ⟨s1, h1, h2⟩ := flush_cases hr
  have hl0 := flushTables_level0 h h1
  have hlisted := flushTables_listed h.listed h1
  rcases hthrough with hnone | ⟨hfour, ⟨key, hlive⟩, hread⟩
  · rw [hnone] at hl0
    exact maybeTriggerCompaction_agrees ⟨hlisted, Sys.level0_of_tables hl0⟩ h2
  · have hread1 : ∀ file off, s1.world.unreadable file off = false := by
      rw [(flushTables_emptied h1).unreadable]
      exact hread
    have hsound : s1.Sound :=
      ⟨hlisted.alone.intact.serving hlisted.alone.numbered hread1, hlisted.alone.reached.bounded⟩
    obtain ⟨-, -, hmerges⟩ := maybeTriggerCompaction_merges hsound h2
    refine ⟨(maybeTriggerCompaction_listed hlisted h2).1, Sys.level0_of_tables ?_⟩
    generalize s1.tables = t, s'.tables = t' at hmerges hl0
    cases hmerges with
    | idle hidle =>
      rcases hidle with hlt | hdead
      · rw [hl0] at hlt
        omega
      · rw [hl0] at hdead
        exact absurd (hdead key) hlive
    | level0 => rfl
    | deeper hlt =>
      simp only [List.headD_cons] at hl0
      rw [hl0] at hlt
      omega

theorem Call.run_agrees {c : Call} (h : s.Agrees) (hflush : c = .flush ∨ c = .close → s.FlushesThrough)
    (htables : c = .flushTables → tablesOf s.db.memtables = []) (hr : c.run s = .ok () s') : s'.Agrees := by
  have hkept : ∀ s s' : Sys, s.Agrees → s.TablesKept s' → s'.db.versionSet = s.db.versionSet → s'.Alone → s'.Agrees :=
    fun s s' h hk hset halone => ⟨h.listed.of_db halone hk.sstables (le_of_eq hk.nextFileNumber.symm) hset,
      by rw [hk.sstables]; exact h.level0⟩
  have hlogs : ∀ s s' : Sys, s.Agrees → s.Logs s' → s'.Agrees := by
    intro s s' h hl
    have hk := hl.tablesKept
    exact ⟨h.listed.logs hl, by rw [hk.sstables]; exact h.level0⟩
  by_cases hc : c.IsWrite
  · refine (Call.write_rule (I := Sys.Agrees) ?_ ?_ ?_ hlogs hc s h).ok hr
    · exact fun s n h => hkept s _ h (s.tablesKept_bump n) rfl (h.listed.alone.bump n)
    · exact fun s ops h => hkept s _ h (s.tablesKept_insert ops) rfl (h.listed.alone.insert ops)
    · exact fun s h => hkept s _ h s.tablesKept_freeze rfl h.listed.alone.freeze
  · cases c with
    | flushTables =>
      refine ⟨flushTables_listed h.listed hr, Sys.level0_of_tables ?_⟩
      rw [flushTables_level0 h hr, htables rfl]
    | maybeTriggerCompaction => exact maybeTriggerCompaction_agrees h hr
    | flush => exact flush_agrees h (hflush (.inl rfl)) hr
    | close =>
      obtain ⟨s1, h1, hl⟩ := close_cases hr
      exact hlogs s1 s' (flush_agrees h (hflush (.inr rfl)) h1) hl
    | _ => exact absurd trivial hc

-- ---------------------------------------------------------------------------
-- Runs
-- ---------------------------------------------------------------------------

/-- A step that returns and leaves nothing in level 0. -/
def State.SettlesLevel0 (st : State) (env : Env) (a : Action) : Prop :=
  (st.exec env a).1 = .ok () ∧
    match a with
    | .openDb _ => st.db = none → st.world.disk.ssts = ∅ ∧ st.world.disk.manifest.getD [] = []
    | .call .flush | .call .close => ∀ db, st.db = some db → Sys.FlushesThrough ⟨db, st.world.enter env⟩
    | .call .flushTables => ∀ db, st.db = some db → tablesOf db.memtables = []
    | .crash => False
    | _ => True

theorem openDb_agrees {w : World} (hsane : w.disk.Sane) (hno : w.NoOverwrite) (hssts : w.disk.ssts = ∅)
    (hmanifest : w.disk.manifest.getD [] = []) (hr : openDb o w = .ok db w') : Sys.Agrees ⟨db, w'⟩ := by
  obtain ⟨hsame, recovered, tables, vs, lo, hi, rfl, -, hloads, -, hhi, -, hvalid, hvs⟩ := (openDb_spec o w).ok hr
  obtain rfl : VersionSet.new o.maxLevels = vs := by simpa [hmanifest, manifestLines, recoverLines] using hvs
  obtain rfl : tables = [] := by
    cases tables with
    | nil => rfl
    | cons r rs =>
      obtain ⟨n, hn, -⟩ := hloads.mem List.mem_cons_self
      simp [sortedSsts, hssts] at hn
  have hreached : Sys.Reached ⟨openedDb o recovered w.disk.replayedLog w.writes (latestWal w.disk) [] (VersionSet.new o.maxLevels), w'⟩ :=
    openedDb_reached hsane hsame hloads hhi
  obtain ⟨dir, logs, manifest, faults, arcs, -, -, rfl⟩ := hsame
  refine ⟨⟨⟨hreached, le_refl 2, ?_, hno⟩, by simp [openedDb], by simp [openedDb], ?_⟩, rfl⟩
  · intro n hn
    rw [hssts] at hn
    exact absurd hn (AList.notMem_empty n)
  · have hlevels : o.maxLevels ≠ 0 := by
      intro hzero
      unfold Options.validate at hvalid
      split_ifs at hvalid
    obtain ⟨k, hk⟩ := Nat.exists_eq_succ_of_ne_zero hlevels
    simp [openedDb, versionNumbers, tableNumbers, VersionSet.new, Version.new, hk, List.replicate_succ]

theorem agrees_invariant : Invariant Sys.Agrees (fun w => w.disk.Sane ∧ w.NoOverwrite) State.SettlesLevel0 where
  leave h := ⟨h.listed.alone.reached.sane, h.listed.alone.numbered.unused⟩
  enterOpen h := h.enter _
  enterClosed h := h
  opened := by
    intro w env o hw hP
    obtain ⟨hssts, hmanifest⟩ := hP.2 rfl
    have hok := hP.1
    unfold State.exec at hok
    dsimp only at hok
    refine Triple.intro (fun db w' hr => ?_) (fun e w' hr => ?_)
    · exact openDb_agrees (w := w.enter env) hw.1 hw.2 hssts hmanifest hr
    · rw [hr] at hok
      cases hok
  called := by
    intro db w env c h hP
    have hok : (State.after (c.run ⟨db, w.enter env⟩)).1 = .ok () := hP.1
    refine Triple.intro (fun u s' hr => ?_) (fun e s' hr => ?_)
    · refine Call.run_agrees (h.enter env) ?_ ?_ hr
      · rintro (rfl | rfl) <;> exact hP.2 db rfl
      · rintro rfl
        exact hP.2 db rfl
    · rw [hr] at hok
      cases e <;> cases hok
  dropped := by
    intro db w env h _
    have halone := (h.enter env).listed.alone
    exact ((reached_rule.dropDb halone.reached.frozen).and (dropDb_numbered _ halone.numbered)).mono
      (fun _ _ h => ⟨h.1.sane, h.2.unused⟩) (fun _ _ h => ⟨h.1.sane, h.2.unused⟩)

/-- In a run whose steps all return and leave nothing in level 0, the version lists the
tables of every level. -/
theorem version_lists_tables (len : CompressedLen) (run : List (Env × Action)) (db : DB) (w : World)
    (halong : (State.init len).Along State.SettlesLevel0 run) (hrun : (State.init len).runs run = ⟨some db, w⟩)
    (level : Nat) :
    (((db.versionSet.current.getD level []).map FileMetaData.fileNumber : List Nat) : Multiset Nat) =
      ((db.sstables.getD level []).map SSTableReader.fileNumber : List Nat) := by
  have hinit : (State.init len).Holds Sys.Agrees (fun w => w.disk.Sane ∧ w.NoOverwrite) :=
    ⟨Disk.sane_empty, by simp [State.init, World.NoOverwrite, World.empty]⟩
  have hJ := agrees_invariant.runs hinit halong
  rw [hrun] at hJ
  have hJ : Sys.Agrees ⟨db, w⟩ := hJ
  have hnumbers : versionNumbers db.versionSet.current = tableNumbers db.sstables := by
    have hl0 : db.sstables.headD [] = [] := hJ.level0
    obtain ⟨l0, ls, hsst⟩ : ∃ l0 ls, db.sstables = l0 :: ls :=
      List.exists_cons_of_ne_nil hJ.listed.alone.reached.levels
    rw [hJ.listed.deep, hsst]
    rw [hsst] at hl0
    obtain rfl : l0 = [] := hl0
    rfl
  have hlevel := congrArg (·.getD level []) hnumbers
  simp only [versionNumbers, tableNumbers, List.getD_eq_getElem?_getD, List.getElem?_map] at hlevel
  refine congrArg _ ?_
  simp only [List.getD_eq_getElem?_getD]
  cases hv : db.versionSet.current[level]? <;> cases ht : db.sstables[level]? <;> simp_all

def fourPuts : List (Env × Action) :=
  oneSession .calm { Options.plain with memtableSize := 1 } (List.replicate 4 (.calm, .put [97] [1]))

def fourFrozen : List (Env × Action) := fourPuts ++ [(.calm, .call .flush)]

def State.flushesThrough (st : State) : Bool :=
  st.db.all fun db => maxLevel0Files ≤ (tablesOf db.memtables).length &&
    (live (firstStored (tablesOf db.memtables) [97])).isSome

def State.level1Numbers (st : State) : Option (List Nat × List Nat) :=
  st.db.map fun db => ((db.versionSet.current.getD 1 []).map FileMetaData.fileNumber,
    (db.sstables.getD 1 []).map SSTableReader.fileNumber)

theorem version_lists_tables_fourFrozen : (State.init .unused).Along State.SettlesLevel0 fourFrozen ∧
    ((State.init .unused).runs fourFrozen).level1Numbers = some ([6], [6]) ∧
    ∃ db w, (State.init .unused).runs fourFrozen = ⟨some db, w⟩ ∧ ∀ level,
      (((db.versionSet.current.getD level []).map FileMetaData.fileNumber : List Nat) : Multiset Nat) =
        ((db.sstables.getD level []).map SSTableReader.fileNumber : List Nat) := by
  have halong : (State.init .unused).Along State.SettlesLevel0 fourFrozen := by
    have hputs : (State.init .unused).Along State.SettlesLevel0 fourPuts :=
      ⟨⟨by decide +kernel, fun _ => ⟨rfl, rfl⟩⟩, ⟨by decide +kernel, trivial⟩, ⟨by decide +kernel, trivial⟩,
        ⟨by decide +kernel, trivial⟩, ⟨by decide +kernel, trivial⟩, trivial⟩
    have hthrough : ((State.init .unused).runs fourPuts).flushesThrough = true := by decide +kernel
    refine State.along_append hputs ⟨⟨by decide +kernel, fun db hdb => ?_⟩, trivial⟩
    rw [State.flushesThrough, hdb, Option.all_some, Bool.and_eq_true, decide_eq_true_eq] at hthrough
    exact .inr ⟨hthrough.1, ⟨[97], Option.isSome_iff_ne_none.mp hthrough.2⟩, fun _ _ => rfl⟩
  have hnumbers : ((State.init .unused).runs fourFrozen).level1Numbers = some ([6], [6]) := by decide +kernel
  obtain ⟨db, hdb, -⟩ := Option.map_eq_some_iff.mp hnumbers
  have hrun : (State.init .unused).runs fourFrozen = ⟨some db, ((State.init .unused).runs fourFrozen).world⟩ := by
    rw [← hdb]
  exact ⟨halong, hnumbers, db, _, hrun, version_lists_tables .unused fourFrozen db _ halong hrun⟩

/-- A flush does not record its table. -/
theorem version_misses_flushed : ∃ db w, (State.init .unused).runs
      (oneSession .calm .plain [(.calm, .put [97] [1]), (.calm, .flush)]) = ⟨some db, w⟩ ∧
    (((db.versionSet.current.getD 0 []).map FileMetaData.fileNumber : List Nat) : Multiset Nat) ≠
      ((db.sstables.getD 0 []).map SSTableReader.fileNumber : List Nat) := by
  have hnumbers : ((State.init .unused).runs (oneSession .calm .plain
      [(.calm, .put [97] [1]), (.calm, .flush)])).db.map (fun db =>
        ((db.versionSet.current.getD 0 []).map FileMetaData.fileNumber,
          (db.sstables.getD 0 []).map SSTableReader.fileNumber)) = some ([], [2]) := by decide +kernel
  obtain ⟨db, hdb, hnumbers⟩ := Option.map_eq_some_iff.mp hnumbers
  rw [Prod.mk.injEq] at hnumbers
  refine ⟨db, _, by rw [← hdb], ?_⟩
  rw [hnumbers.1, hnumbers.2]
  simp

end AiDb
