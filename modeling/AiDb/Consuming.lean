import AiDb.Reached
import AiDb.Compaction.Job

/-!
# What a compaction consumes

A compaction that returns has taken its inputs out of their level, unless its
merge left nothing to write: then the job returns the file number 0, and
`DB::compact` returns before it comes to the levels. The same task is picked the
next time.
-/

namespace AiDb

open Library Compaction

variable {s s' : Sys} {w w' : World}

-- ---------------------------------------------------------------------------
-- Readers are told apart
-- ---------------------------------------------------------------------------

/-- No two readers of the levels are one allocation, and the next one is none of
them, whatever was written over. -/
structure Sys.Distinct (s : Sys) : Prop where
  reached : s.Reached
  arc_lt : ∀ r ∈ s.db.sstables.flatten, r.arc < s.world.arcs
  arcs : (s.db.sstables.flatten.map SSTableReader.arc).Nodup

theorem Sys.Distinct.kept (h : s.Distinct) (hr : s'.Reached) (hsst : s'.db.sstables = s.db.sstables)
    (harcs : s.world.arcs ≤ s'.world.arcs) : s'.Distinct where
  reached := hr
  arc_lt r hmem := by
    rw [hsst] at hmem
    exact lt_of_lt_of_le (h.arc_lt r hmem) harcs
  arcs := by rw [hsst]; exact h.arcs

theorem Sys.Distinct.tablesKept (h : s.Distinct) (hk : s.TablesKept s') (hb : s'.Bounded) : s'.Distinct :=
  h.kept (h.reached.tablesKept hk hb) hk.sstables (le_of_eq hk.arcs.symm)

theorem Sys.Distinct.install (h : s.Distinct) (hr : s'.Reached) (hold : s.db.sstables.flatten.Perm (inputs ++ others))
    (hnew : s'.db.sstables.flatten.Perm (r :: others)) (hge : s.world.arcs ≤ r.arc) (hlt : r.arc < s'.world.arcs) :
    s'.Distinct where
  reached := hr
  arc_lt x hx := by
    rcases List.mem_cons.mp (hnew.mem_iff.mp hx) with rfl | hx
    · exact hlt
    · have := h.arc_lt x (hold.mem_iff.mpr (List.mem_append_right _ hx))
      omega
  arcs := by
    have harcs := h.arcs
    simp only [(hold.map SSTableReader.arc).nodup_iff, List.map_append, List.nodup_append] at harcs
    simp only [(hnew.map SSTableReader.arc).nodup_iff, List.map_cons, List.nodup_cons]
    refine ⟨fun hmem => ?_, harcs.2.1⟩
    obtain ⟨x, hx, heq⟩ := List.mem_map.mp hmem
    have := h.arc_lt x (hold.mem_iff.mpr (List.mem_append_right _ hx))
    omega

theorem Sys.Distinct.logs (h : s.Distinct) (hl : s.Logs s') : s'.Distinct := by
  refine h.tablesKept hl.tablesKept ?_
  obtain ⟨wal, n, logs, faults, -, rfl⟩ := hl
  exact h.reached.bounded

theorem Sys.Distinct.compacted (h : s.Distinct) (hr : s'.Reached)
    (hpick : pickCompaction s.db.options.maxLevels s.db.sstables = some (some task)) (hc : s.Compacted task removed s') :
    s'.Distinct ∧ ∃ r, s.world.arcs ≤ r.arc ∧ Compacts task.inputs r task.level s.db.sstables s'.db.sstables := by
  obtain ⟨es, f, r, -, -, -, -, ho, -, hlevel, ⟨vs, hdb⟩, -⟩ := hc
  have hcompacts : Compacts task.inputs r task.level s.db.sstables s'.db.sstables := by
    rw [hdb]
    exact updateLevels_compacts hpick h.arcs hlevel r
  obtain ⟨others, hold, hnew⟩ := hcompacts.perm
  exact ⟨h.install hr hold hnew ho.arc_ge ho.arc_lt, r, ho.arc_ge, hcompacts⟩

theorem distinct_rule : CallRule Sys.Distinct Sys.Distinct where
  weaken _ := id
  logs _ _ h hl := h.logs hl
  round s m rest h himm := by
    refine ((reached_rule.round s m rest h.reached himm).and (flushMemtableToSstable_spec m (s.popped rest))).mono ?_ ?_
    · rintro n s' ⟨hr, ⟨-, hdb, hat⟩ | ⟨-, f, r, -, -, hdb, hat, ho⟩⟩
      · exact h.kept hr (by rw [hdb]; rfl) hat.arcs_le
      · obtain ⟨l, ls, hl⟩ := List.exists_cons_of_ne_nil h.reached.levels
        refine h.install hr (List.Perm.refl ([] ++ s.db.sstables.flatten)) ?_ ho.arc_ge ho.arc_lt
        have hsst : s'.db.sstables = s.db.sstables.modify 0 (r :: ·) := by rw [hdb]; rfl
        rw [hsst, hl]
        exact List.Perm.refl _
    · rintro e s' ⟨hr, hdb, d, -, hat⟩
      exact h.kept hr (by rw [hdb]; rfl) hat.arcs_le
  compact s task h hpick := by
    have hne : s.db.nextFileNumber ≠ 0 := by have := h.reached.two_le; omega
    refine ((reached_rule.compact s task h.reached hpick).and (compact_spec task s hne)).mono ?_ ?_
    · rintro _ s' ⟨hr, ⟨-, hdb, hat⟩ | hc⟩
      · exact h.kept hr (by rw [hdb]; rfl) hat.arcs_le
      · exact (h.compacted hr hpick hc).1
    · rintro e s' ⟨hr, ⟨es, d, -, ⟨vs, hdb⟩, manifest, hat⟩ | ⟨removed, -, hc⟩⟩
      · exact h.kept hr (by rw [hdb]; rfl) hat.arcs_le
      · exact (h.compacted hr hpick hc).1

theorem Sys.Distinct.frozen (h : s.Distinct) : s.frozen.Distinct := by
  unfold Sys.frozen
  split
  · exact h
  · exact h.tablesKept s.tablesKept_freeze h.reached.bounded.freeze

theorem Call.run_distinct (c : Call) : Keeps Sys.Distinct c.run := by
  by_cases hc : c.IsWrite
  · refine Call.write_rule ?_ ?_ ?_ (fun _ _ h hl => h.logs hl) hc
    · exact fun s n h => h.tablesKept (s.tablesKept_bump n) (h.reached.bounded.bump n)
    · exact fun s ops h => h.tablesKept (s.tablesKept_insert ops) (h.reached.bounded.insert ops)
    · exact fun s h => h.tablesKept s.tablesKept_freeze h.reached.bounded.freeze
  · exact fun s h => distinct_rule.call hc h h.frozen

theorem distinct_invariant : Invariant Sys.Distinct (·.disk.Sane) fun _ _ _ => True where
  leave h := h.reached.sane
  enterOpen h := ⟨h.reached.enter _, h.arc_lt, h.arcs⟩
  enterClosed h := h
  opened := by
    intro w env o hsane _
    have hsane : (w.enter env).disk.Sane := hsane
    refine (openDb_spec o _).mono ?_ ?_
    · rintro db w' ⟨hsame, recovered, tables, vs, lo, hi, rfl, -, hloads, -, hhi, -⟩
      have hflat : (openedDb o recovered (w.enter env).disk.replayedLog (w.enter env).writes
          (latestWal (w.enter env).disk) tables vs).sstables.flatten = tables := by
        simp [openedDb]
      refine ⟨openedDb_reached hsane hsame hloads hhi, fun r hr => ?_, ?_⟩
      · rw [hflat] at hr
        obtain ⟨n, -, f, -, -, hlt⟩ := hloads.mem hr
        exact lt_of_lt_of_le hlt hhi
      · rw [hflat]
        exact hloads.arcs
    · rintro _ w' ⟨⟨dir, logs, manifest, faults, arcs, -, -, rfl⟩, -⟩
      exact hsane.of_sub (fun _ _ => id) rfl
  called h _ := Call.run_distinct _ _ ⟨h.reached.enter _, h.arc_lt, h.arcs⟩
  dropped h _ := (distinct_rule.dropDb (Sys.Distinct.frozen ⟨h.reached.enter _, h.arc_lt, h.arcs⟩)).mono
    (fun _ _ h => h.reached.sane) fun _ _ h => h.reached.sane

theorem State.distinct {st : State} {db : DB} (h : st.Reachable len) (hdb : st.db = some db) (env : Env) :
    Sys.Distinct ⟨db, st.world.enter env⟩ := by
  obtain ⟨run, rfl⟩ := h
  have hinit : (State.init len).Holds Sys.Distinct (·.disk.Sane) := Disk.sane_empty
  have hrun := distinct_invariant.runs hinit (State.along_true run)
  unfold State.Holds at hrun
  rw [hdb] at hrun
  exact distinct_invariant.enterOpen hrun

-- ---------------------------------------------------------------------------
-- What the merge leaves to write
-- ---------------------------------------------------------------------------

/-- The loop of the job drops everything but versions that follow another key and
are no tombstones. -/
theorem survivors_ne_nil (hlvl : 0 < lvl) : survivors lvl last es ≠ [] ↔
    ∃ pre e post, es = pre ++ e :: post ∧ (pre.map Entry.key).getLast?.or last ≠ some e.key ∧ e.value.bytes ≠ [] := by
  induction es generalizing last with
  | nil => simp [survivors]
  | cons x xs ih =>
    have hkeys : ∀ pre : List Entry, ((x :: pre).map Entry.key).getLast?.or last =
        (pre.map Entry.key).getLast?.or (some x.key) := by
      intro pre
      rw [List.map_cons, List.getLast?_cons]
      cases (pre.map Entry.key).getLast? <;> rfl
    -- a later version follows what it followed without `x`, or `x` itself
    have hlater : (∃ pre e post, x :: xs = pre ++ e :: post ∧
        (pre.map Entry.key).getLast?.or last ≠ some e.key ∧ e.value.bytes ≠ []) ↔
        (last ≠ some x.key ∧ x.value.bytes ≠ []) ∨ ∃ pre e post, xs = pre ++ e :: post ∧
          (pre.map Entry.key).getLast?.or (some x.key) ≠ some e.key ∧ e.value.bytes ≠ [] := by
      constructor
      · rintro ⟨_ | ⟨y, pre⟩, e, post, heq, hkey, hv⟩
        · cases heq
          exact .inl ⟨by simpa using hkey, hv⟩
        · cases heq
          exact .inr ⟨pre, e, post, rfl, hkeys pre ▸ hkey, hv⟩
      · rintro (⟨hkey, hv⟩ | ⟨pre, e, post, rfl, hkey, hv⟩)
        · exact ⟨[], x, xs, rfl, by simpa using hkey, hv⟩
        · exact ⟨x :: pre, e, post, rfl, (hkeys pre).symm ▸ hkey, hv⟩
    rw [hlater]
    simp only [survivors]
    split_ifs with hlast htomb
    · subst hlast
      rw [ih]
      simp
    · rw [ih]
      simp [htomb.2]
    · have hv : x.value.bytes ≠ [] := fun hv => htomb ⟨hlvl, hv⟩
      simp [hlast, hv]

/-- The merge of the inputs, as far as they can be read, hands out a version that
is no tombstone before any other version of its key. -/
def Sys.MergeKeeps (s : Sys) (task : CompactionTask) : Prop :=
  ∃ pre e post, jobMerge s.world s.created task.inputs = .ok (pre ++ e :: post) ∧
    (pre.map Entry.key).getLast? ≠ some e.key ∧ e.value.bytes ≠ []

theorem Sys.mergeKeeps_iff (hlvl : 0 < task.outputLevel) (hjob : s.jobEntries task = .ok es) :
    s.MergeKeeps task ↔ es ≠ [] := by
  unfold Sys.jobEntries at hjob
  change (jobMerge s.world s.created task.inputs).map _ = _ at hjob
  unfold Sys.MergeKeeps
  cases hm : jobMerge s.world s.created task.inputs with
  | error e => rw [hm] at hjob; cases hjob
  | ok merged =>
    rw [hm] at hjob
    cases hjob
    rw [survivors_ne_nil hlvl]
    simp only [Except.ok.injEq, Option.or_none]

/-- On readable inputs this is about the newest versions in the tables. -/
theorem Sys.mergeKeeps_iff_survives (hlvl : 0 < task.outputLevel)
    (hin : s.world.Feeds s.db.nextFileNumber task.inputs) :
    s.MergeKeeps task ↔ ∃ e, Survives (task.inputs.map s.world.disk.entriesOf) e := by
  have hcreated : s.world.At (s.world.disk.createSst s.db.nextFileNumber) s.created :=
    ⟨s.world.faults, s.world.arcs, le_refl _, id, rfl⟩
  obtain ⟨merged, hmerge, -, hsurvives⟩ := hin.merge task.outputLevel hcreated
  have hjob : s.jobEntries task = .ok (survivors task.outputLevel none merged) := by
    show (jobMerge s.world s.created task.inputs).map _ = _
    rw [hmerge]
    rfl
  rw [Sys.mergeKeeps_iff hlvl hjob, ← List.length_pos_iff, List.length_pos_iff_exists_mem]
  exact exists_congr fun e => hsurvives hlvl e

-- ---------------------------------------------------------------------------
-- What becomes of the inputs
-- ---------------------------------------------------------------------------

/-- No input of the task is in any level, and level 0 is no longer full. -/
structure Sys.Consumed (task : CompactionTask) (s : Sys) : Prop where
  gone : ∀ r ∈ task.inputs, ∀ x ∈ s.db.sstables.flatten, x.arc ≠ r.arc
  level0 : (s.db.sstables.headD []).length < maxLevel0Files

theorem picked_nonempty (h : pickCompaction maxLevels levels = some (some task)) :
    ∃ r ∈ task.inputs, r ∈ levels.flatten := by
  have hne : task.inputs ≠ [] := by
    rcases pickCompaction_cases h with ⟨l, ls, -, hlen, rfl⟩ | ⟨-, i, r, rest, -, -, rfl⟩
    · rintro rfl
      exact absurd hlen (by decide)
    · exact List.cons_ne_nil _ _
  obtain ⟨r, hr⟩ := List.exists_mem_of_ne_nil _ hne
  exact ⟨r, hr, picked_mem h r hr⟩

theorem Compacts.consumed (hd : s.Distinct)
    (hpick : pickCompaction s.db.options.maxLevels s.db.sstables = some (some task)) (hge : s.world.arcs ≤ r.arc)
    (h : Compacts task.inputs r task.level s.db.sstables s'.db.sstables) : Sys.Consumed task s' where
  gone x hx y hy := by
    obtain ⟨others, hold, hnew⟩ := h.perm
    have harcs := hd.arcs
    simp only [(hold.map SSTableReader.arc).nodup_iff, List.map_append, List.nodup_append] at harcs
    rcases List.mem_cons.mp (hnew.mem_iff.mp hy) with rfl | hy
    · have := hd.arc_lt x (hold.mem_iff.mpr (List.mem_append_left _ hx))
      omega
    · exact (harcs.2.2 x.arc (List.mem_map_of_mem hx) y.arc (List.mem_map_of_mem hy)).symm
  level0 := by
    rcases pickCompaction_cases hpick with ⟨l, ls, -, -, rfl⟩ | ⟨hlen, i, x, rest, hi, -, rfl⟩
    · obtain ⟨next, below, -, hlevels⟩ := h.level0_inv
      rw [hlevels]
      exact Nat.succ_pos 3
    · obtain ⟨l0, above, rest', next, below, hold, hnew⟩ := h.deeper_inv hi
      rw [hold] at hlen
      rw [hnew]
      exact hlen

/-- In any state of any run, whatever the operating system does, a picked
compaction that returns consumes its inputs exactly when its merge keeps a
version. -/
theorem compact_consumes_iff {st : State} {db : DB} (h : st.Reachable len) (hdb : st.db = some db) (env : Env)
    (hpick : pickCompaction db.options.maxLevels db.sstables = some (some task))
    (hok : compact task ⟨db, st.world.enter env⟩ = .ok () s') :
    (Sys.Consumed task s' ↔ Sys.MergeKeeps ⟨db, st.world.enter env⟩ task) ∧
      ((st.world.enter env).Feeds db.nextFileNumber task.inputs →
        (Sys.MergeKeeps ⟨db, st.world.enter env⟩ task ↔
          ∃ e, Survives (task.inputs.map st.world.disk.entriesOf) e)) := by
  have hd := State.distinct h hdb env
  have hlvl := pickCompaction_outputLevel hpick
  refine ⟨?_, fun hin => Sys.mergeKeeps_iff_survives hlvl hin⟩
  have hne : db.nextFileNumber ≠ 0 := Nat.ne_of_gt (lt_of_lt_of_le Nat.two_pos hd.reached.two_le)
  rcases (compact_spec task _ hne).ok hok with ⟨hjob, hsame, -⟩ | hc
  · rw [Sys.mergeKeeps_iff hlvl hjob]
    obtain ⟨r, hr, hmem⟩ := picked_nonempty hpick
    refine iff_of_false (fun hgone => ?_) (not_not.mpr rfl)
    exact hgone.gone r hr r (by rw [hsame]; exact hmem) rfl
  · have hjob := hc
    obtain ⟨es, f, r, hjob, hes, -, -, ho, -, hlevel, ⟨vs, hdb'⟩, -⟩ := hjob
    rw [Sys.mergeKeeps_iff hlvl hjob]
    refine iff_of_true ?_ hes
    refine Compacts.consumed hd hpick ho.arc_ge ?_
    rw [hdb']
    exact updateLevels_compacts hpick hd.arcs hlevel r

-- ---------------------------------------------------------------------------
-- Nothing but tombstones
-- ---------------------------------------------------------------------------

/-- Level 0 is full, and every newest version in it is a tombstone. -/
structure Sys.Stuck (s : Sys) : Prop where
  sound : s.Sound
  calm : s.world.faults = []
  full : maxLevel0Files ≤ (s.db.sstables.headD []).length
  dead : ∀ e, ¬Survives (s.level0Task.inputs.map s.world.disk.entriesOf) e

theorem Sys.level0_picked (hfull : maxLevel0Files ≤ (s.db.sstables.headD []).length) :
    pickCompaction s.db.options.maxLevels s.db.sstables = some (some s.level0Task) := by
  unfold pickCompaction pickLevel0Compaction Sys.level0Task
  rw [if_pos hfull]
  cases hl : s.db.sstables.headD [] with
  | nil => rw [hl] at hfull; exact absurd hfull (by decide)
  | cons r rs => rfl

theorem Sys.level0_triggers (hfull : maxLevel0Files ≤ (s.db.sstables.headD []).length) :
    maybeTriggerCompaction s = compact s.level0Task s := by
  simp only [maybeTriggerCompaction, bind, EStateM.bind, MonadState.get, getThe, MonadStateOf.get, EStateM.get,
    Sys.level0_picked hfull]

theorem Sys.Stuck.picked (h : s.Stuck) :
    pickCompaction s.db.options.maxLevels s.db.sstables = some (some s.level0Task) := Sys.level0_picked h.full

theorem Sys.Stuck.feeds (h : s.Stuck) : s.world.Feeds s.db.nextFileNumber s.level0Task.inputs where
  serves r hr := h.sound.serving.serves r (picked_mem h.picked r hr)
  readable r _ off := h.sound.serving.readable r.file off
  apart r _ hl := by
    have := h.sound.serving.numbered.below s.db.nextFileNumber (AList.lookup_isSome.mp (by rw [hl]; rfl))
    omega

theorem Sys.Stuck.jobEntries (h : s.Stuck) : s.jobEntries s.level0Task = .ok [] := by
  have hunused : s.db.nextFileNumber ∉ s.world.disk.ssts := fun hmem =>
    absurd (h.sound.serving.numbered.below _ hmem) (lt_irrefl _)
  obtain ⟨es, hjob, -⟩ := h.sound.serving.intact.jobEntries_ok h.sound.serving.readable hunused (picked_mem h.picked)
  have hkeeps := (Sys.mergeKeeps_iff Nat.one_pos hjob).symm.trans (Sys.mergeKeeps_iff_survives Nat.one_pos h.feeds)
  by_cases hes : es = []
  · rw [hjob, hes]
  · obtain ⟨e, he⟩ := hkeeps.mp hes
    exact absurd he (h.dead e)

theorem compact_returns (hcalm : s.world.faults = []) (hjob : s.jobEntries task = .ok []) :
    Triple (compact task) s (fun _ _ => True) fun _ _ => False := by
  have hmerged : ∀ merged, jobMerge s.world s.created task.inputs = .ok merged →
      survivors task.outputLevel none merged = [] := by
    intro merged hmerge
    have h : (jobMerge s.world s.created task.inputs).map (survivors task.outputLevel none) = .ok [] := hjob
    rw [hmerge] at h
    exact Except.ok.inj h
  unfold compact
  refine takeFileNumber_bind (Triple.get_bind ?_)
  have hrun : Triple (runJob task.inputs task.outputLevel s.handOut.db.options.blockSize s.db.nextFileNumber)
      s.handOut.world (fun res _ => res.fileNumber = 0) fun _ _ => False := by
    refine (runJob_spec _ _ _ _ (World.At.refl s.handOut.world)).mono ?_ ?_
    · rintro res w' ⟨merged, hmerge, ⟨-, hzero, -⟩ | ⟨hne, -⟩⟩
      · exact hzero
      · exact absurd (hmerged merged hmerge) hne
    · rintro e w' (⟨-, hfail⟩ | ⟨-, merged, hmerge, hasc⟩)
      · obtain ⟨err, herr⟩ := hfail hcalm
        have h : (jobMerge s.world s.created task.inputs).map (survivors task.outputLevel none) = .ok [] := hjob
        have herr : jobMerge s.world s.created task.inputs = .error err := herr
        rw [herr] at h
        cases h
      · refine hasc hcalm ?_
        rw [hmerged merged hmerge]
        exact ⟨.nil, by simp⟩
  refine ((onWorld_spec hrun).mono (fun _ _ => id) fun _ _ h => h.2).bind ?_
  rintro res s1 ⟨-, hzero⟩
  rw [if_pos hzero]
  exact Triple.pure trivial

theorem Sys.Stuck.step (h : s.Stuck) :
    ∃ s', compact s.level0Task s = .ok () s' ∧ s'.Stuck ∧ s'.db.sstables = s.db.sstables := by
  have hnumbered := h.sound.serving.numbered
  have hunused : s.db.nextFileNumber ∉ s.world.disk.ssts := fun hmem =>
    absurd (hnumbered.below _ hmem) (lt_irrefl _)
  have hne : s.db.nextFileNumber ≠ 0 := by have := hnumbered.two_le; omega
  cases hrun : compact s.level0Task s with
  | error e s' => exact ((compact_returns h.calm h.jobEntries).error hrun).elim
  | ok u s' =>
    rcases (compact_spec _ s hne).ok hrun with ⟨-, hdb, hat⟩ | ⟨es, f, r, hjob, hes, -⟩
    · have hsst : s'.db.sstables = s.db.sstables := by rw [hdb]; rfl
      have hg : s.Grown s' := by
        refine ⟨hat.unreadable_eq, hat.arcs_le, [.incomplete], ?_⟩
        rw [hat.disk_eq, Disk.removeSst, Disk.createSst_unused hunused]
      have hcall : Call.maybeTriggerCompaction.run s = .ok () s' := (Sys.level0_triggers h.full).trans hrun
      refine ⟨s', rfl, ⟨Call.run_sound h.sound hcall, hat.calm h.calm, by rw [hsst]; exact h.full, ?_⟩, hsst⟩
      have hentries : s'.level0Task.inputs.map s'.world.disk.entriesOf =
          s.level0Task.inputs.map s.world.disk.entriesOf := by
        unfold Sys.level0Task
        rw [hsst]
        exact List.map_congr_left fun r hr => hg.entriesOf_eq h.sound.serving.intact (picked_mem h.picked r hr)
      rw [hentries]
      exact h.dead
    · rw [h.jobEntries] at hjob
      cases hjob
      exact absurd rfl hes

/-- However often it is asked, the picker hands out the same task, and the
compaction returns and leaves the tables where they are. -/
theorem Sys.Stuck.forever (h : s.Stuck) (n : Nat) :
    ∃ s', s.runs (List.replicate n .maybeTriggerCompaction) = some s' ∧ s'.db.sstables = s.db.sstables := by
  induction n generalizing s with
  | zero => exact ⟨s, rfl, rfl⟩
  | succ n ih =>
    obtain ⟨s1, hrun, hstuck, hsst⟩ := h.step
    obtain ⟨s', hruns, hsst'⟩ := ih hstuck
    have hcall : Call.maybeTriggerCompaction.run s = .ok () s1 := (Sys.level0_triggers h.full).trans hrun
    refine ⟨s', ?_, hsst'.trans hsst⟩
    rw [List.replicate_succ, Sys.runs]
    simp only [hcall, hruns]

theorem not_survives_of_dead {inputs : List (List Entry)} (h : ∀ es ∈ inputs, ∀ e ∈ es, e.value.bytes = []) (e : Entry) :
    ¬Survives inputs e := by
  rintro ⟨hv, hfirst⟩
  obtain ⟨es, hes, hst⟩ := List.exists_of_findSome?_eq_some hfirst
  exact hv (h es hes _ (mem_of_stored hst))

-- ---------------------------------------------------------------------------
-- Sessions are runs
-- ---------------------------------------------------------------------------

structure Sys.Calm (s : Sys) : Prop where
  reached : s.Reached
  calm : s.world.faults = []

theorem Sys.Logs.calm (h : s.Logs s') (hc : s.world.faults = []) : s'.world.faults = [] := by
  obtain ⟨_, _, _, _, hf, rfl⟩ := h
  exact hf hc

theorem calm_rule : CallRule Sys.Calm Sys.Calm where
  weaken _ := id
  logs _ _ h hl := ⟨h.reached.logs hl, hl.calm h.calm⟩
  round s m rest h himm := by
    refine ((reached_rule.round s m rest h.reached himm).and (flushMemtableToSstable_spec m (s.popped rest))).mono ?_ ?_
    · rintro n s' ⟨hr, ⟨-, -, hat⟩ | ⟨-, f, r, -, -, -, hat, -⟩⟩
      · exact ⟨hr, hat.calm h.calm⟩
      · exact ⟨hr, hat.calm h.calm⟩
    · rintro e s' ⟨hr, -, d, -, hat⟩
      exact ⟨hr, hat.calm h.calm⟩
  compact s task h hpick := by
    have hne : s.db.nextFileNumber ≠ 0 := by have := h.reached.two_le; omega
    refine ((reached_rule.compact s task h.reached hpick).and (compact_spec task s hne)).mono ?_ ?_
    · rintro _ s' ⟨hr, ⟨-, -, hat⟩ | ⟨es, f, r, -, -, -, -, -, -, -, -, manifest, hat⟩⟩
      · exact ⟨hr, hat.calm h.calm⟩
      · exact ⟨hr, hat.calm h.calm⟩
    · rintro e s' ⟨hr, ⟨es, d, -, -, manifest, hat⟩ | ⟨removed, -, es, f, r, -, -, -, -, -, -, -, -, manifest, hat⟩⟩
      · exact ⟨hr, hat.calm h.calm⟩
      · exact ⟨hr, hat.calm h.calm⟩

theorem Sys.Calm.kept (h : s.Calm) (hr : s'.Reached) (hw : s'.world.faults = s.world.faults) : s'.Calm :=
  ⟨hr, hw.trans h.calm⟩

theorem Call.run_calm {c : Call} (h : s.Calm) : Triple c.run s (fun _ => Sys.Calm) fun _ => Sys.Calm := by
  by_cases hc : c.IsWrite
  · refine Call.write_rule ?_ ?_ ?_ (fun _ _ h hl => ⟨h.reached.logs hl, hl.calm h.calm⟩) hc s h
    · exact fun s n h => h.kept (h.reached.tablesKept (s.tablesKept_bump n) (h.reached.bounded.bump n)) rfl
    · exact fun s ops h => h.kept (h.reached.tablesKept (s.tablesKept_insert ops) (h.reached.bounded.insert ops)) rfl
    · exact fun s h => h.kept (h.reached.tablesKept s.tablesKept_freeze h.reached.bounded.freeze) rfl
  · refine calm_rule.call hc h (h.kept h.reached.frozen ?_)
    unfold Sys.frozen
    split <;> rfl

theorem State.Reachable.exec {st : State} (h : st.Reachable len) (env : Env) (a : Action) :
    (st.exec env a).2.Reachable len := by
  obtain ⟨run, rfl⟩ := h
  exact ⟨run ++ [(env, a)], runs_append _ run _⟩

theorem World.enter_calm (hc : w.faults = []) (hread : ∀ file off, w.unreadable file off = false) :
    w.enter .calm = w := by
  obtain ⟨disk, faults, unreadable, len, arcs, writes, handed⟩ := w
  obtain rfl : unreadable = fun _ _ => false := funext fun file => funext fun off => hread file off
  obtain rfl : faults = [] := hc
  rfl

theorem Sys.session_reachable (h : Sys.session len o cs = some s) :
    State.Reachable len ⟨some s.db, s.world⟩ ∧ s.world.faults = [] := by
  refine Sys.session_induction (I := fun _ s => State.Reachable len ⟨some s.db, s.world⟩ ∧ s.world.faults = []) ?_ ?_ h
  · intro s hs
    unfold Sys.fresh at hs
    split at hs
    · rename_i db w hrun
      cases hs
      obtain ⟨⟨dir, logs, manifest, faults, arcs, -, hf, rfl⟩, -⟩ := (openDb_spec o _).ok hrun
      refine ⟨⟨[(.calm, .openDb o)], ?_⟩, hf rfl⟩
      have henter : (World.empty len).enter .calm = World.empty len := rfl
      simp only [State.runs, State.exec, State.init, henter, hrun]
    · cases hs
  · intro cs c s s' hs hI hrun
    obtain ⟨hreach, hcalm⟩ := hI
    have hread := (Sys.session_sound hs).serving.readable
    have hreached : s.Reached := State.reached hreach rfl
    have henter : s.world.enter .calm = s.world := World.enter_calm hcalm hread
    have hexec := hreach.exec .calm (.call c)
    simp only [State.exec, henter, hrun, State.after] at hexec
    exact ⟨hexec, ((Call.run_calm ⟨hreached, hcalm⟩).ok hrun).calm⟩

-- ---------------------------------------------------------------------------
-- Four flushes
-- ---------------------------------------------------------------------------

def fourTimes (c : Call) : List Call := (List.replicate 4 [c, .flushTables]).flatten

theorem compact_consumes_iff_fourPuts : ∃ s s' : Sys, State.Reachable .unused ⟨some s.db, s.world⟩ ∧
    pickCompaction s.db.options.maxLevels s.db.sstables = some (some s.level0Task) ∧
    compact s.level0Task ⟨s.db, s.world.enter .calm⟩ = .ok () s' ∧
    (Sys.Consumed s.level0Task s' ↔ Sys.MergeKeeps ⟨s.db, s.world.enter .calm⟩ s.level0Task) := by
  have hrun : ((Sys.session .unused .plain (fourTimes (.put [97] [1]) ++ [.maybeTriggerCompaction])).isSome &&
      (Sys.session .unused .plain (fourTimes (.put [97] [1]))).all fun s =>
        (s.db.sstables.headD []).length = 4) = true := by
    decide +kernel
  obtain ⟨hsome, hall⟩ := Bool.and_eq_true_iff.mp hrun
  obtain ⟨s', hs'⟩ := Option.isSome_iff_exists.mp hsome
  obtain ⟨s, hs, hcall⟩ := Sys.session_snoc.mp hs'
  obtain ⟨hreach, hcalm⟩ := Sys.session_reachable hs
  rw [hs, Option.all_some, decide_eq_true_eq] at hall
  have hfull : maxLevel0Files ≤ (s.db.sstables.headD []).length := le_of_eq hall.symm
  have hok : compact s.level0Task ⟨s.db, s.world.enter .calm⟩ = .ok () s' := by
    rw [World.enter_calm hcalm (Sys.session_sound hs).serving.readable]
    exact (Sys.level0_triggers hfull).symm.trans hcall
  exact ⟨s, s', hreach, Sys.level0_picked hfull, hok,
    (compact_consumes_iff hreach rfl .calm (Sys.level0_picked hfull) hok).1⟩

/-- Four tables with a tombstone each: the compaction returns with its inputs in
level 0, and so it does every time. -/
theorem not_consumed_fourDeletes : ∃ s s' : Sys, State.Reachable .unused ⟨some s.db, s.world⟩ ∧
    pickCompaction s.db.options.maxLevels s.db.sstables = some (some s.level0Task) ∧
    compact s.level0Task s = .ok () s' ∧ ¬Sys.Consumed s.level0Task s' ∧
    s'.db.sstables = s.db.sstables ∧
    ∀ n, ∃ s'', s.runs (List.replicate n .maybeTriggerCompaction) = some s'' ∧
      maxLevel0Files ≤ (s''.db.sstables.headD []).length := by
  have hrun : (Sys.session .unused .plain (fourTimes (.delete [97]))).map (fun s =>
      decide ((s.db.sstables.headD []).length = 4 ∧
        ∀ r ∈ s.level0Task.inputs, ∀ e ∈ s.world.disk.entriesOf r, e.value.bytes = [])) = some true := by
    decide +kernel
  obtain ⟨s, hs, hd⟩ := Option.map_eq_some_iff.mp hrun
  obtain ⟨hlen, hdead⟩ := of_decide_eq_true hd
  obtain ⟨hreach, hcalm⟩ := Sys.session_reachable hs
  have hstuck : s.Stuck := by
    refine ⟨Sys.session_sound hs, hcalm, le_of_eq hlen.symm, not_survives_of_dead fun es hes e he => ?_⟩
    obtain ⟨r, hr, rfl⟩ := List.mem_map.mp hes
    exact hdead r hr e he
  obtain ⟨s', hok, hstuck', hsst⟩ := hstuck.step
  refine ⟨s, s', hreach, hstuck.picked, hok, fun hgone => ?_, hsst, fun n => ?_⟩
  · exact absurd hgone.level0 (not_lt.mpr hstuck'.full)
  · obtain ⟨s'', hruns, hsst⟩ := hstuck.forever n
    exact ⟨s'', hruns, by rw [hsst]; exact hstuck.full⟩

end AiDb
