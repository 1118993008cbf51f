import AiDb.Archiving

/-!
# Reopening the first session

A session on an empty directory puts, flushes and compacts level 0, and in its last call
anything may fail, or the process is lost. Whatever was on its way into a table by then is
also in the log, or in the tables it was taken from: the next open finds the last put of
every key.
-/

namespace AiDb

open Library Compaction

variable {s s' : Sys} {ops more : List WriteOp} {d : Disk} {db : DB} {w : World}

-- ---------------------------------------------------------------------------
-- The log
-- ---------------------------------------------------------------------------

/-- The next open finds all of the writes: those before the cut in the tables, the rest in
the log. -/
structure Sys.Stopped (s : Sys) (ops : List WriteOp) : Prop where
  root : s.world.disk.Rooted (UnlessTorn Legible)
  sane : s.world.disk.Sane
  archive : s.world.disk.Archive ops
  log : ∃ cut, s.Logged (ops.drop cut) ∧ s.world.disk.Covers ops cut

theorem Sys.Stopped.recoverable (h : s.Stopped ops) : s.world.disk.Recoverable ops [] := by
  obtain ⟨cut, hlogged, hcovers⟩ := h.log
  exact ⟨h.root, h.sane, h.archive, cut, [], hcovers, List.nil_prefix, by rw [List.append_nil]; exact hlogged.replayedLog⟩

structure Sys.Archived (s : Sys) (ops : List WriteOp) : Prop extends s.Archiving ops where
  root : s.world.disk.Rooted WholeLines
  useWal : s.db.options.useWal = true
  syncWal : s.db.options.syncWal = true
  counter : s.db.wal.number ≤ s.db.walFileNumber
  log : ∃ cut, s.Logged (ops.drop cut) ∧ s.world.disk.Covers ops cut

theorem Sys.Archived.stopped (h : s.Archived ops) : s.Stopped ops := ⟨h.root.legible, h.sane, h.archive, h.log⟩

theorem Sys.SameLog.logged (h : s.SameLog s') (hl : s.Logged more) : s'.Logged more := by
  have hlatest : latestWal s'.world.disk = latestWal s.world.disk := by rw [latestWal, h.world.1]; rfl
  refine ⟨⟨?_, ?_, ?_⟩, by rw [h.wal]; exact hl.buffer⟩
  · rw [h.wal, hlatest]; exact hl.latest
  · rw [h.wal, h.world.1]; exact hl.exists_file
  · rw [Sys.logFile, h.wal, h.world.1]; exact hl.bytes

theorem Sys.Appended.logged (h : s.Appended [] s') (hl : s.Logged more) : s'.Logged more := by
  obtain ⟨q, hq⟩ := h.file
  have hb := h.bytes
  rw [hl.buffer, List.append_nil, List.append_nil, ← hq, List.append_assoc, List.append_right_eq_self] at hb
  have hnil := List.append_eq_nil_iff.mp hb
  refine ⟨h.toLogGrew.logIs hl.toLogIs ?_, hnil.2⟩
  rw [← hq, hnil.1, List.append_nil, hl.bytes]

theorem Sys.Archived.left (h : s.Archived ops) (hpre : s.world.disk.Preserved ops s'.world.disk) (hlog : s.SameLog s')
    (hroot : s'.world.disk.Rooted (UnlessTorn Legible)) : s'.Stopped ops := by
  obtain ⟨cut, hlogged, hcovers⟩ := h.log
  exact ⟨hroot, hpre.sane, hpre.archive, cut, hlog.logged hlogged, hpre.covers hcovers⟩

theorem Sys.Archived.archived (h : s.Archived ops) (harch : s'.Archiving ops) (hpre : s.world.disk.Preserved ops s'.world.disk)
    (hlog : s.SameLog s') (hroot : s'.world.disk.Rooted WholeLines) : s'.Archived ops := by
  obtain ⟨cut, hlogged, hcovers⟩ := h.log
  exact ⟨harch, hroot, by rw [hlog.options]; exact h.useWal, by rw [hlog.options]; exact h.syncWal,
    by rw [hlog.wal, hlog.walFileNumber]; exact h.counter, cut, hlog.logged hlogged, hpre.covers hcovers⟩

structure Sys.Flushing (s0 : Sys) (ops : List WriteOp) (s : Sys) : Prop where
  archiving : s.Archiving ops
  preserved : s0.world.disk.Preserved ops s.world.disk
  sameLog : s0.SameLog s
  root : s.world.disk.Rooted WholeLines

theorem Sys.Archived.flushing (h : s.Archived ops) : s.Flushing ops s.frozen := by
  have hworld : s.frozen.world = s.world := by
    unfold Sys.frozen
    split <;> rfl
  refine ⟨h.toArchiving.frozen, ?_, ?_, by rw [hworld]; exact h.root⟩
  · rw [hworld]
    exact ⟨h.sane, h.archive, fun _ _ => id⟩
  · unfold Sys.frozen
    split
    · exact .refl s
    · exact ⟨rfl, rfl, rfl, rfl, id⟩

theorem Sys.Archived.flushed_one (h : s.Archived ops) (h1 : s.Flushing ops s1) (himm : s1.db.immutableMemtables = m :: rest) :
    Triple (flushMemtableToSstable m) (s1.popped rest) (fun _ => s.Flushing ops) (fun _ s' => s'.Stopped ops) := by
  have hpop : s.SameLog (s1.popped rest) := ⟨h1.sameLog.wal, h1.sameLog.walFileNumber, h1.sameLog.options, h1.sameLog.world⟩
  refine ((flushMemtableToSstable_archiving h1.archiving himm).and ((flushMemtableToSstable_sameLog m _ hpop).and
    (flushMemtableToSstable_written m (s1.popped rest)))).mono ?_ ?_
  · rintro _ s2 ⟨⟨harch, hpre⟩, hlog, hw⟩
    exact ⟨harch, h1.preserved.trans hpre, hlog, hw.rooted h1.root⟩
  · rintro _ s2 ⟨hpre, hlog, hw⟩
    exact h.left (h1.preserved.trans hpre) hlog (hw.rooted h1.root).legible

theorem flushMemtables_archived (h : s.Archived ops) :
    Triple flushMemtables s (fun _ s' => s'.Archived ops ∧ s'.world.disk.Covers ops ops.length) (fun _ s' => s'.Stopped ops) := by
  have hloop := flushMemtables_eq (flushImmutables_empties (fun _ _ _ => h.flushed_one) _ h.flushing (le_refl _))
  refine (hloop.and (flushMemtables_emptied s)).mono ?_ fun _ _ hs => hs.1
  rintro _ s1 ⟨⟨h1, -⟩, hemptied⟩
  obtain ⟨m, hmem, hempty⟩ := hemptied.memtables
  refine ⟨h.archived h1.archiving h1.preserved h1.sameLog h1.root, fun i op _ hop => ?_⟩
  refine (h1.archiving.stored i op hop).resolve_left ?_
  rintro ⟨m', hm', he⟩
  rw [hmem, List.mem_singleton] at hm'
  subst hm'
  have hnil : m'.iter = [] := by simpa [MemTable.isEmpty, MemTable.iter] using hempty
  rw [hnil] at he
  cases he

def Sys.StoppedBy (ops : List WriteOp) (e : Exit) (s : Sys) : Prop :=
  s.Stopped ops ∨ (∀ err, e ≠ .error err) ∧ s.world.disk.Recoverable ops []

theorem Sys.StoppedBy.recoverable (h : s.StoppedBy ops e) : s.world.disk.Recoverable ops [] :=
  h.elim Sys.Stopped.recoverable And.right

theorem flushTables_archived (h : s.Archived ops) :
    Triple flushTables s (fun _ s' => s'.Archived ops) (fun e => Sys.StoppedBy ops e) := by
  refine ((flushMemtables_archived h).mono (fun _ _ => id) fun _ _ => .inl).bind ?_
  rintro _ s1 ⟨h1, hall⟩
  obtain ⟨cut, hlogged, hcovers⟩ := h1.log
  have hnil : ops.drop ops.length = [] := List.drop_length
  -- the tables are left alone, and the log begins anew
  have hkept : ∀ s2, s1.Logs s2 → s2.Archiving ops ∧ s2.world.disk.SameRoot s1.world.disk ∧ s2.world.disk.Covers ops ops.length := by
    intro s2 hl
    refine ⟨h1.toArchiving.logs hl, ?_, fun i op hi hop => ?_⟩
    · obtain ⟨wal, n, logs, faults, -, rfl⟩ := hl
      exact ⟨rfl, rfl⟩
    · rw [Disk.tableHolds_congr hl.tablesKept.ssts hl.tablesKept.files]
      exact hall i op hi hop
  refine ((rotateWal_spec hlogged.toLogIs h1.counter).and (rotateWal_logs s1 (.refl s1))).mono ?_ ?_
  · rintro _ s2 ⟨⟨hlog, hcount, hopts, -⟩, hl⟩
    obtain ⟨harch, hroot, hcov⟩ := hkept s2 hl
    exact ⟨harch, h1.root.same ⟨hroot.1.symm, hroot.2.symm⟩, by rw [hopts]; exact h1.useWal, by rw [hopts]; exact h1.syncWal,
      hcount, ops.length, by rwa [hnil], hcov⟩
  · rintro e s2 ⟨⟨-, -, hends⟩, hl⟩
    obtain ⟨harch, hroot, hcov⟩ := hkept s2 hl
    have hroot2 := h1.root.legible.same ⟨hroot.1.symm, hroot.2.symm⟩
    rcases hends with ⟨hlog, hwal, -⟩ | ⟨hlog, -⟩ | ⟨hlost, hbytes⟩
    · refine .inl ⟨hroot2, harch.sane, harch.archive, cut, ⟨hlog, by rw [hwal]; exact hlogged.buffer⟩, fun i op hi hop => ?_⟩
      exact hcov i op (List.getElem?_eq_some_iff.mp hop).1 hop
    · exact .inl ⟨hroot2, harch.sane, harch.archive, ops.length, by rwa [hnil], hcov⟩
    · exact .inr ⟨hlost, hroot2, harch.sane, harch.archive, ops.length, [], hcov, List.nil_prefix, by rw [hbytes, hnil]; rfl⟩

-- ---------------------------------------------------------------------------
-- The calls
-- ---------------------------------------------------------------------------

def Sys.PicksLevel0 (s : Sys) : Prop :=
  ∀ task, pickCompaction s.db.options.maxLevels s.db.sstables = some (some task) → task.level = 0

def Call.OnLevel0 (s : Sys) : Call → Prop
  | .maybeTriggerCompaction => s.PicksLevel0
  | .flush | .close => ∀ s', AiDb.flushTables s = .ok () s' → s'.PicksLevel0
  | _ => True

theorem level0_outputLevel {task : CompactionTask} (hpick : pickCompaction maxLevels levels = some (some task))
    (hlevel : task.level = 0) : task.outputLevel = 1 := by
  rcases pickCompaction_cases hpick with ⟨_, _, -, -, rfl⟩ | ⟨-, i, _, _, hi, -, rfl⟩
  · rfl
  · exact absurd hlevel (Nat.ne_of_gt hi)

theorem maybeTriggerCompaction_archived (h : s.Archived ops) (hpicks : s.PicksLevel0) :
    Triple maybeTriggerCompaction s (fun _ s' => s'.Archived ops) (fun e => Sys.StoppedBy ops e) := by
  unfold maybeTriggerCompaction
  refine Triple.get_bind ?_
  dsimp only
  split
  · exact Triple.throw (.inl h.stopped)
  · exact Triple.pure h
  · rename_i task hpick
    have hlevel := hpicks task hpick
    have hout := level0_outputLevel hpick hlevel
    refine ((compact_archiving h.toArchiving hpick hlevel).and ((compact_root h.root hlevel hout).and
      (compact_sameLog task s (.refl s)))).mono ?_ ?_
    · rintro _ s1 ⟨⟨harch, hpre⟩, hroot, hlog⟩
      exact h.archived harch hpre hlog hroot
    · rintro _ s1 ⟨hpre, hroot, hlog⟩
      exact .inl (h.left hpre hlog hroot)

theorem flush_archived (h : s.Archived ops) (hpicks : ∀ s', flushTables s = .ok () s' → s'.PicksLevel0) :
    Triple AiDb.flush s (fun _ s' => s'.Archived ops) (fun e => Sys.StoppedBy ops e) := by
  rw [flush_eq]
  have hrun := flushTables_archived h
  refine (Triple.intro (fun u s1 hr => ⟨hrun.ok hr, hr⟩) fun e s1 hr => hrun.error hr).bind
    (Q := fun _ s1 => s1.Archived ops ∧ flushTables s = .ok () s1) ?_
  exact fun _ s1 h1 => maybeTriggerCompaction_archived h1.1 (hpicks s1 h1.2)

theorem Sys.Stopped.appended (h : s.Stopped ops) (ha : s.Appended [] s') : s'.Stopped ops := by
  obtain ⟨cut, hlogged, hcovers⟩ := h.log
  have hk := ha.logs.tablesKept
  have hroot : s.world.disk.SameRoot s'.world.disk := by
    obtain ⟨wal, n, logs, faults, -, rfl⟩ := ha.logs
    exact ⟨rfl, rfl⟩
  refine ⟨h.root.same hroot, h.sane.of_sub (fun n file => by rw [hk.ssts]; exact id) hk.files,
    h.archive.congr hk.ssts hk.files, cut, ha.logged hlogged, fun i op hi hop => ?_⟩
  rw [Disk.tableHolds_congr hk.ssts hk.files]
  exact hcovers i op hi hop

theorem Sys.Archived.appended (h : s.Archived ops) (ha : s.Appended [] s') : s'.Archived ops := by
  have hk := ha.logs.tablesKept
  obtain ⟨hroot, hopts⟩ : s.world.disk.SameRoot s'.world.disk ∧ s'.db.options = s.db.options := by
    obtain ⟨wal, n, logs, faults, -, rfl⟩ := ha.logs
    exact ⟨⟨rfl, rfl⟩, rfl⟩
  exact ⟨h.toArchiving.logs ha.logs, h.root.same hroot, by rw [hopts]; exact h.useWal, by rw [hopts]; exact h.syncWal,
    by rw [ha.number, ha.walFileNumber]; exact h.counter, (h.stopped.appended ha).log⟩

theorem close_archived (h : s.Archived ops) (hpicks : ∀ s', flushTables s = .ok () s' → s'.PicksLevel0) :
    Triple AiDb.close s (fun _ s' => s'.Archived ops) (fun e => Sys.StoppedBy ops e) := by
  refine (flush_archived h hpicks).bind fun _ s1 h1 => Triple.get_bind ?_
  split
  · exact (walSync_appended (.refl s1)).mono (fun _ _ h2 => h1.appended h2.1) fun _ _ h2 => .inl (h1.stopped.appended h2.2)
  · exact Triple.pure h1

/-- The drop of the handle goes on after a flush that failed. -/
theorem dropDb_archived (h : s.Archived ops) (hpicks : ∀ s', flushTables s = .ok () s' → s'.PicksLevel0) :
    Triple dropDb s (fun _ s' => s'.world.disk.Recoverable ops []) (fun _ s' => s'.world.disk.Recoverable ops []) := by
  have hflush : Triple (ignoreError AiDb.flush) s (fun _ s' => s'.Stopped ops) (fun _ s' => s'.world.disk.Recoverable ops []) := by
    refine ignoreError_spec ((flush_archived h hpicks).mono (fun _ _ h1 => h1.stopped) fun _ _ => id) ?_ fun _ _ h1 => h1.recoverable
    exact fun err _ h1 => h1.resolve_right fun hlost => hlost.1 err rfl
  have hsync : ∀ s1 : Sys, s1.Stopped ops → Triple (ignoreError walSync) s1 (fun _ s' => s'.Stopped ops)
      (fun _ s' => s'.world.disk.Recoverable ops []) := by
    intro s1 h1
    refine ignoreError_spec (E := fun _ s' => s'.Stopped ops) ?_ (fun _ _ => id) fun _ _ h2 => h2.recoverable
    exact (walSync_appended (.refl s1)).mono (fun _ _ h2 => h1.appended h2.1) fun _ _ h2 => h1.appended h2.2
  have hbuf : ∀ s1 : Sys, s1.Stopped ops → Triple (ignoreError flushBuf) s1 (fun _ s' => s'.world.disk.Recoverable ops [])
      (fun _ s' => s'.world.disk.Recoverable ops []) := fun s1 h1 =>
    (ignoreError_flushBuf s1).mono (fun _ _ h2 => (h1.appended h2).recoverable) fun _ _ h2 => (h1.appended h2.2.2).recoverable
  refine hflush.bind fun _ s1 h1 => Triple.get_bind ?_
  split
  · exact (hsync s1 h1).bind fun _ s2 h2 => hbuf s2 h2
  · exact hbuf s1 h1

-- ---------------------------------------------------------------------------
-- Writes
-- ---------------------------------------------------------------------------

theorem Sys.Archiving.freezeIfFull (h : s.Archiving ops) : s.freezeIfFull.Archiving ops := by
  unfold Sys.freezeIfFull
  split
  · exact h.freeze
  · exact h

theorem Sys.Archiving.wrote (h : s.Archiving ops) {c : Call} (hc : c.IsWrite) (hmore : ∀ op ∈ c.ops, op.Lasting) :
    (c.wrote s).Archiving (ops ++ c.ops) := by
  cases c with
  | put key value => exact (h.insert hmore).freezeIfFull
  | delete key => exact h.insert hmore
  | write batch =>
    simp only [Call.wrote]
    split
    · rename_i hb
      subst hb
      simpa [Call.ops] using h
    · exact (h.insert hmore).freezeIfFull
  | _ => exact hc.elim

theorem Sys.Stopped.cut_le (h : s.Stopped ops) : ∃ cut ≤ ops.length, s.Logged (ops.drop cut) ∧ s.world.disk.Covers ops cut := by
  obtain ⟨cut, hlogged, hcovers⟩ := h.log
  rcases le_total cut ops.length with hle | hle
  · exact ⟨cut, hle, hlogged, hcovers⟩
  · refine ⟨ops.length, le_refl _, ?_, fun i op hi => hcovers i op (hi.trans_le hle)⟩
    rw [List.drop_length]
    rwa [List.drop_eq_nil_of_le hle] at hlogged

theorem Sys.Archived.write (h : s.Archived ops) {c : Call} (hc : c.IsWrite) (hmore : ∀ op ∈ c.ops, op.Lasting) :
    Triple c.run s (fun _ s' => s'.Archived (ops ++ c.ops)) (fun _ s' => s'.world.disk.Recoverable ops c.ops) := by
  obtain ⟨cut, hcut, hlogged, hcovers⟩ := h.stopped.cut_le
  refine ((hlogged.call h.useWal h.syncWal hc).and ((Call.run_disk hc s).and ((Call.run_logGrew hc s h.useWal).and
    (Call.run_spec hc s)))).mono ?_ ?_
  · rintro _ s' ⟨hlog, ⟨logs, hdisk, hopts⟩, ⟨hgrew, -⟩, hl⟩
    refine ⟨(h.toArchiving.wrote hc hmore).logs hl, ?_, by rw [hopts]; exact h.useWal, by rw [hopts]; exact h.syncWal,
      by rw [hgrew.number, hgrew.walFileNumber]; exact h.counter, cut, ?_, fun i op hi hop => ?_⟩
    · rw [hdisk]
      exact h.root.same ⟨rfl, rfl⟩
    · rwa [List.drop_append_of_le_length hcut]
    · rw [List.getElem?_append_left (hi.trans_le hcut)] at hop
      rw [Disk.tableHolds_congr (d := s.world.disk) (by rw [hdisk]) (by rw [hdisk])]
      exact hcovers i op hi hop
  · rintro _ s' ⟨⟨-, q, hq, hlog⟩, ⟨logs, hdisk, -⟩, -, -⟩
    have hssts : s'.world.disk.ssts = s.world.disk.ssts := by rw [hdisk]
    have hfiles : s'.world.disk.files = s.world.disk.files := by rw [hdisk]
    refine ⟨?_, h.sane.of_sub (fun n file => by rw [hssts]; exact id) hfiles, h.archive.congr hssts hfiles, cut, q,
      fun i op hi hop => ?_, hq, hlog.replayedLog⟩
    · rw [hdisk]
      exact h.root.legible.same ⟨rfl, rfl⟩
    · rw [Disk.tableHolds_congr hssts hfiles]
      exact hcovers i op hi hop

/-- Every call keeps the archive; what stops leaves a directory that can be recovered. -/
theorem Sys.Archived.call (h : s.Archived ops) (c : Call) (hmore : ∀ op ∈ c.ops, op.Lasting) (hpicks : c.OnLevel0 s) :
    Triple c.run s (fun _ s' => s'.Archived (ops ++ c.ops)) (fun _ s' => s'.world.disk.Recoverable ops c.ops) := by
  have hquiet : ∀ {m : M Unit}, Triple m s (fun _ s' => s'.Archived ops) (fun e => Sys.StoppedBy ops e) →
      Triple m s (fun _ s' => s'.Archived (ops ++ [])) (fun _ s' => s'.world.disk.Recoverable ops []) :=
    fun hm => hm.mono (fun _ _ hs => by rwa [List.append_nil]) fun _ _ hs => hs.recoverable
  cases c with
  | put | delete | write => exact h.write trivial hmore
  | flushTables => exact hquiet (flushTables_archived h)
  | maybeTriggerCompaction => exact hquiet (maybeTriggerCompaction_archived h hpicks)
  | flush => exact hquiet (flush_archived h hpicks)
  | close => exact hquiet (close_archived h hpicks)

-- ---------------------------------------------------------------------------
-- The session
-- ---------------------------------------------------------------------------

theorem Sys.Archived.enter (h : Sys.Archived ⟨db, w⟩ ops) {env : Env} (hread : ∀ file off, env.unreadable file off = false) :
    Sys.Archived ⟨db, w.enter env⟩ ops := by
  obtain ⟨cut, hlogged, hcovers⟩ := h.log
  exact ⟨h.toArchiving.enter hread, ⟨h.root.dir, h.root.manifest⟩, h.useWal, h.syncWal, h.counter, cut, hlogged.enter env, hcovers⟩

theorem Sys.archiving_fresh (h : Sys.fresh len o = some s) : s.Archiving [] := by
  obtain ⟨-, honly, -, hwrites, vs, hdb⟩ := Sys.fresh_opened h
  obtain ⟨halone, hblank, hdated, hread⟩ : s.Alone ∧ s.Blank o ∧ s.Dated ∧ ∀ file off, s.world.unreadable file off = false := by
    unfold Sys.fresh at h
    split at h
    · rename_i db w hrun
      cases h
      obtain ⟨halone, hblank⟩ := (openDb_alone len .calm o).ok hrun
      obtain ⟨⟨dir, logs, manifest, faults, arcs, -, -, rfl⟩, -⟩ := (openDb_spec o _).ok hrun
      exact ⟨halone, hblank, (openDb_dated o World.dated_empty).ok hrun, fun _ _ => rfl⟩
    · cases h
  have hnone : ∀ n e, ¬s.world.disk.Has n e := fun n e he => by
    have hmem := he.mem
    rw [honly.ssts] at hmem
    exact AList.notMem_empty n hmem
  have hnil : s.db.sstables.headD [] = [] := by rw [hblank.tables]; rfl
  refine ⟨halone, ⟨hdated.1, fun _ => ?_⟩, hread, by simp, hwrites, by rw [hdb]; rfl, ?_, ?_, ?_, ⟨?_, ?_⟩, by simp⟩
  · rw [← hwrites]
    exact hdated.1.2.inOrder
  · rw [hblank.memtables]
    simpa using MemTable.of_new
  · exact ⟨fun n e he => (hnone n e he).elim, fun n _ _ _ _ ⟨e, he, _⟩ => (hnone n e he).elim⟩
  · exact fun _ _ _ _ n e he => (hnone n e he).elim
  · rw [hnil]
    exact List.forall_mem_nil _
  · rw [hnil]
    exact List.forall_mem_nil _

theorem Sys.archived_fresh (h : Sys.fresh len o = some s) (hwal : o.useWal = true) (hsync : o.syncWal = true) : s.Archived [] := by
  obtain ⟨hlogged, honly, -, -, vs, hdb⟩ := Sys.fresh_opened h
  have hopts : s.db.options = o := by rw [hdb]; rfl
  refine ⟨Sys.archiving_fresh h, ⟨honly.dir, fun pieces hp => ⟨[], by simp, ?_⟩⟩, by rw [hopts]; exact hwal, by rw [hopts]; exact hsync,
    ?_, 0, hlogged, fun i _ hi => absurd hi (Nat.not_lt_zero i)⟩
  · rcases honly.manifest with hm | hm
    · rw [hm] at hp
      cases hp
    · rw [hm] at hp
      cases hp
      rfl
  · rw [hdb]
    exact le_refl _

/-- None of the calls of the session compacts a deeper level. -/
def StaysOnLevel0 (len : CompressedLen) (o : Options) (calls : List Call) : Prop :=
  ∀ before c after s, calls = before ++ c :: after → Sys.session len o before = some s → c.OnLevel0 s

theorem Sys.session_archived {calls : List Call} (h : Sys.session len o calls = some s) (hwal : o.useWal = true) (hsync : o.syncWal = true)
    (hlasting : ∀ op ∈ calls.flatMap Call.ops, op.Lasting) (hlevel0 : StaysOnLevel0 len o calls) :
    s.Archived (calls.flatMap Call.ops) := by
  have hrun : (∀ op ∈ calls.flatMap Call.ops, op.Lasting) → StaysOnLevel0 len o calls → s.Archived (calls.flatMap Call.ops) := by
    refine Sys.session_induction (I := fun calls s => (∀ op ∈ calls.flatMap Call.ops, op.Lasting) →
      StaysOnLevel0 len o calls → s.Archived (calls.flatMap Call.ops)) ?_ ?_ h
    · exact fun s hs _ _ => Sys.archived_fresh hs hwal hsync
    · intro cs c s s' hs ih hrun hlasting hlevel0
      simp only [List.flatMap_append, List.flatMap_singleton] at hlasting ⊢
      have hbefore : StaysOnLevel0 len o cs := fun before c' after s1 heq hs1 =>
        hlevel0 before c' (after ++ [c]) s1 (by rw [heq]; simp) hs1
      have harch := ih (fun op hop => hlasting op (List.mem_append_left _ hop)) hbefore
      exact (harch.call c (fun op hop => hlasting op (List.mem_append_right _ hop)) (hlevel0 cs c [] s rfl hs)).ok hrun
  exact hrun hlasting hlevel0

def Action.given : Action → List WriteOp
  | .call c => c.ops
  | _ => []

def Action.OnLevel0 (s : Sys) : Action → Prop
  | .call c => c.OnLevel0 s
  | .drop => Call.flush.OnLevel0 s
  | _ => True

theorem Sys.Archived.exec (h : Sys.Archived ⟨db, w⟩ ops) {env : Env} {a : Action} (hread : ∀ file off, env.unreadable file off = false)
    (hmore : ∀ op ∈ a.given, op.Lasting) (hpicks : a.OnLevel0 ⟨db, w.enter env⟩) (hexec : State.exec ⟨some db, w⟩ env a = (res, st)) :
    st.world.disk.Recoverable ops a.given ∧ (res = .ok () → a.given = []) ∨ st.world.disk.Recoverable (ops ++ a.given) [] := by
  have h' := h.enter hread
  cases a with
  | openDb o =>
    cases hexec
    exact .inl ⟨h.stopped.recoverable, fun _ => rfl⟩
  | crash =>
    cases hexec
    exact .inl ⟨h'.stopped.recoverable, fun _ => rfl⟩
  | drop =>
    have hdrop := dropDb_archived h' hpicks
    simp only [State.exec] at hexec
    cases hr : dropDb ⟨db, w.enter env⟩ with
    | ok u s' =>
      rw [hr] at hexec
      cases hexec
      exact .inl ⟨hdrop.ok hr, fun _ => rfl⟩
    | error e s' =>
      rw [hr] at hexec
      cases hexec
      exact .inl ⟨hdrop.error hr, fun _ => rfl⟩
  | call c =>
    have hcall := h'.call c hmore hpicks
    simp only [State.exec] at hexec
    cases hr : c.run ⟨db, w.enter env⟩ with
    | ok u s' =>
      rw [hr] at hexec
      cases hexec
      exact .inr (hcall.ok hr).stopped.recoverable
    | error e s' =>
      have hs' := hcall.error hr
      rw [hr] at hexec
      cases e <;> cases hexec <;> exact .inl ⟨hs', by simp⟩

/-- A first session of puts, flushes and compactions of level 0, then an action in which
anything may fail, and the loss of the process: unless an edit in the manifest was cut off,
the next open succeeds, and it finds the last put of every key, and of an action that was
cut off its first puts. -/
theorem reopened_finds_last_puts (len : CompressedLen) (o o' : Options) (calls : List Call) (s : Sys) (env : Env) (a : Action)
    (res : Except Exit Unit) (st : State) (hrun : Sys.session len o calls = some s) (hwal : o.useWal = true)
    (hsync : o.syncWal = true) (hlasting : ∀ op ∈ calls.flatMap Call.ops ++ a.given, op.Lasting)
    (hlevel0 : StaysOnLevel0 len o calls) (hpicks : a.OnLevel0 ⟨s.db, s.world.enter env⟩)
    (hread : ∀ file off, env.unreadable file off = false) (hexec : State.exec ⟨some s.db, s.world⟩ env a = (res, st))
    (hnames : st.world.disk.NamesInNumberOrder) (hopens : o'.Opens) (hlevels : 2 ≤ o'.maxLevels) :
    (a.given = [] ∨ res = .ok () →
        ((∃ db w, openDb o' (st.world.enter .calm) = .ok db w) ↔ st.world.disk.ManifestUntorn)) ∧
      ∀ db w, openDb o' (st.world.enter .calm) = .ok db w → ∃ k ≤ a.given.length, (res = .ok () → k = a.given.length) ∧
        ∀ key, db.get w key = .ok (lastValue key (calls.flatMap Call.ops ++ a.given.take k)) := by
  have hold : ∀ op ∈ calls.flatMap Call.ops, op.Lasting := fun op hop => hlasting op (List.mem_append_left _ hop)
  have hnew : ∀ op ∈ a.given, op.Lasting := fun op hop => hlasting op (List.mem_append_right _ hop)
  have harch := Sys.session_archived hrun hwal hsync hold hlevel0
  have hopened : ∀ ops, st.world.disk.Recoverable ops [] →
      ((∃ db w, openDb o' (st.world.enter .calm) = .ok db w) ↔ st.world.disk.ManifestUntorn) := by
    refine fun ops h => ⟨fun ⟨db, w, hr⟩ => untorn_of_openDb (w := st.world.enter .calm) hr, fun huntorn => ?_⟩
    have hopenable : (st.world.enter .calm).disk.Openable o' := h.openable huntorn hopens hlevels
    cases hr : openDb o' (st.world.enter .calm) with
    | ok db w => exact ⟨db, w, rfl⟩
    | error e w => exact absurd hopenable (((openDb_spec o' _).error hr).2 rfl)
  rcases harch.exec hread hnew hpicks hexec with ⟨h, hnothing⟩ | h
  · refine ⟨fun hcase => ?_, fun db w hr => ?_⟩
    · rw [hcase.elim id hnothing] at h
      exact hopened _ h
    · have h' : (st.world.enter .calm).disk.Recoverable (calls.flatMap Call.ops) a.given := h
      obtain ⟨k, hk, hget⟩ := h'.opened hlasting hnames rfl (fun _ _ => rfl) hr
      refine ⟨k, hk, fun hres => ?_, hget⟩
      simpa [hnothing hres] using hk
  · refine ⟨fun _ => hopened _ h, fun db w hr => ⟨a.given.length, le_refl _, fun _ => rfl, fun key => ?_⟩⟩
    have h' : (st.world.enter .calm).disk.Recoverable (calls.flatMap Call.ops ++ a.given) [] := h
    obtain ⟨k, -, hget⟩ := h'.opened (by simpa using hlasting) hnames rfl (fun _ _ => rfl) hr
    rw [hget key, List.take_length, List.take_nil, List.append_nil]

def putsAndFlushes : List Call :=
  [.put [97] [1], .flushTables, .put [98] [2], .flushTables, .put [97] [3], .flushTables, .put [99] [4], .flushTables,
    .put [98] [5]]

def Env.crashesAfter (n : Nat) : Env := ⟨List.replicate n .none ++ [.crash 0], fun _ _ => false⟩

def compactAfter (calls : List Call) (env : Env) : Option (Except Exit Unit × Option (Option Nat) × List Nat × Bool) :=
  (Sys.session .unused .plain calls).map fun s =>
    let r := State.exec ⟨some s.db, s.world⟩ env (.call .maybeTriggerCompaction)
    (r.1, (pickCompaction s.db.options.maxLevels s.db.sstables).map fun task => task.map CompactionTask.level,
      r.2.world.disk.ssts.keys, decide r.2.world.disk.ManifestUntorn)

theorem Disk.namesInNumberOrder_of_lt (h : ∀ n ∈ d.ssts, n < 10 ^ 6) : d.NamesInNumberOrder := by
  have hwidth : ∀ n, d.Complete n → nameWidth n = 6 := by
    rintro n ⟨file, f, hlookup, -⟩
    have hlt := h n (AList.lookup_isSome.mp (by simp [hlookup]))
    have hlength := (Nat.length_toDigits_le_iff (by norm_num) (by norm_num)).mpr hlt
    simpa [nameWidth] using hlength
  intro a b ha hb hlt
  simp [hwidth a ha, hwidth b hb, hlt.le]

/-- The process is lost when two of the four inputs are gone. -/
theorem reopened_finds_last_puts_compacting : ∃ s st, Sys.session .unused .plain putsAndFlushes = some s ∧
    State.exec ⟨some s.db, s.world⟩ (.crashesAfter 15) (.call .maybeTriggerCompaction) = (.error .crash, st) ∧
    st.world.disk.ssts.keys = [6, 3, 2] ∧ ∃ db w, openDb .plain (st.world.enter .calm) = .ok db w ∧
      ∀ key, db.get w key = .ok (lastValue key (putsAndFlushes.flatMap Call.ops)) := by
  have hrun : compactAfter putsAndFlushes (.crashesAfter 15) = some (.error .crash, some (some 0), [6, 3, 2], true) := by
    decide +kernel
  obtain ⟨s, hs, hends⟩ := Option.map_eq_some_iff.mp hrun
  simp only [Prod.mk.injEq] at hends
  obtain ⟨hres, hpick, hkeys, huntorn⟩ := hends
  obtain ⟨⟨res, st⟩, hexec⟩ : ∃ r, State.exec ⟨some s.db, s.world⟩ (.crashesAfter 15) (.call .maybeTriggerCompaction) = r :=
    ⟨_, rfl⟩
  rw [hexec] at hres hkeys huntorn
  obtain rfl : res = .error .crash := hres
  have hpicks : s.PicksLevel0 := fun task htask => by simpa [htask] using hpick
  have hlevel0 : StaysOnLevel0 .unused .plain putsAndFlushes := by
    have hcalls : ∀ c ∈ putsAndFlushes, ∀ s, c.OnLevel0 s := by simp [putsAndFlushes, Call.OnLevel0]
    exact fun before c after s hcs _ => hcalls c (by rw [hcs]; simp) s
  have hnames : st.world.disk.NamesInNumberOrder := Disk.namesInNumberOrder_of_lt fun n hn => by
    have hmem : n ∈ st.world.disk.ssts.keys := hn
    rw [hkeys] at hmem
    simp at hmem
    omega
  obtain ⟨hopens, hget⟩ := reopened_finds_last_puts .unused .plain .plain putsAndFlushes s (.crashesAfter 15)
    (.call .maybeTriggerCompaction) _ st hs rfl rfl (by decide) hlevel0 hpicks (fun _ _ => rfl) hexec hnames
    ⟨by decide, by decide⟩ (by decide)
  obtain ⟨db, w, hopen⟩ := (hopens (.inl rfl)).mpr (of_decide_eq_true huntorn)
  obtain ⟨k, hk, -, hkey⟩ := hget db w hopen
  refine ⟨s, st, hs, hexec, hkeys, db, w, hopen, fun key => ?_⟩
  rw [hkey key]
  simp [Action.given, Call.ops]

end AiDb
