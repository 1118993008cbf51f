import AiDb.Effects

/-!
# What the write path does

Whatever the log programs do, they touch the logs and the writer only. A write
that returns has put its operations into the memtable under the next sequence
numbers; one that stops has only used the numbers up.
-/

namespace AiDb

open Library

def Sys.Logs (s s' : Sys) : Prop :=
  ∃ wal walFileNumber logs faults, (s.world.faults = [] → faults = []) ∧
    s' = ⟨{ s.db with wal := wal, walFileNumber := walFileNumber },
      { s.world with disk := { s.world.disk with logs := logs }, faults := faults }⟩

theorem Sys.Logs.refl (s : Sys) : s.Logs s := ⟨_, _, _, _, id, rfl⟩

theorem Sys.Logs.trans {s s1 s2 : Sys} (h : s.Logs s1) (h' : s1.Logs s2) : s.Logs s2 := by
  obtain ⟨_, _, _, _, hf, rfl⟩ := h
  obtain ⟨wal, n, logs, faults, hf', rfl⟩ := h'
  exact ⟨wal, n, logs, faults, fun hc => hf' (hf hc), rfl⟩

variable {s0 : Sys}

theorem Sys.Logs.appendLog {s : Sys} (h : s0.Logs s) : s0.Logs (s.appendLog bytes) := by
  obtain ⟨wal, n, logs, faults, hf, rfl⟩ := h
  exact ⟨wal, n, _, faults, hf, rfl⟩

theorem Sys.Logs.setBuffer {s : Sys} (h : s0.Logs s) : s0.Logs (s.setBuffer bytes) := by
  obtain ⟨wal, n, logs, faults, hf, rfl⟩ := h
  exact ⟨_, n, logs, faults, hf, rfl⟩

-- ---------------------------------------------------------------------------
-- The writer of the log
-- ---------------------------------------------------------------------------

/-- What the writer of the log does, one step at a time. -/
structure WriterRule (I : Sys → Prop) : Prop where
  fault : ∀ s f fs, I s → s.world.faults = f :: fs → I { s with world := { s.world with faults := fs } }
  append : ∀ s bytes, I s → I (s.appendLog bytes)
  buffer : ∀ s bytes, I s → I (s.setBuffer bytes)

namespace WriterRule

variable {I : Sys → Prop}

theorem nextFault (h : WriterRule I) : Keeps I (onWorld AiDb.nextFault) := by
  rintro ⟨db, ⟨disk, faults, unreadable, len, arcs, writes, handed⟩⟩ hs
  cases faults with
  | nil => exact hs
  | cons f fs => exact h.fault _ f fs hs rfl

theorem sysOp (h : WriterRule I) (hd : ∀ s, I s → I (done s)) (hc : ∀ k s, I s → I (cut k s)) :
    Keeps I (sysOp done cut) := by
  refine h.nextFault.bind fun fault => ?_
  cases fault with
  | none => exact Keeps.modify hd
  | fail n => exact (Keeps.modify (hc n)).bind fun _ => Keeps.throw
  | crash n => exact (Keeps.modify (hc n)).bind fun _ => Keeps.throw

theorem writeLog (h : WriterRule I) : Keeps I (writeLog bytes) :=
  h.sysOp (fun s => h.append s _) (fun _ s => h.append s _)

theorem flushBuf (h : WriterRule I) : Keeps I flushBuf := by
  refine Keeps.get.bind fun s => Keeps.ite ?_ Keeps.pure
  exact h.sysOp (fun s hs => h.buffer _ _ (h.append s _ hs)) (fun _ s hs => h.buffer _ _ (h.append s _ hs))

theorem writeAll (h : WriterRule I) : Keeps I (writeAll bytes) := by
  have hpush : Keeps I (modify fun s : Sys => s.setBuffer (s.db.wal.buffer ++ bytes) : M Unit) :=
    Keeps.modify fun s => h.buffer s _
  have hlast : Keeps I (if bytes.length ≥ bufCapacity then AiDb.writeLog bytes
      else modify fun s : Sys => s.setBuffer (s.db.wal.buffer ++ bytes)) :=
    Keeps.ite h.writeLog hpush
  exact Keeps.get.bind fun s => Keeps.ite hpush (Keeps.ite (h.flushBuf.bind fun _ => hlast) hlast)

theorem writeRecords (h : WriterRule I) (rs : List Wal.Record) : Keeps I (writeRecords rs) := by
  induction rs with
  | nil => exact Keeps.pure
  | cons r rs ih => exact h.writeAll.bind fun _ => ih

theorem atomicOp (h : WriterRule I) (hf : ∀ s, I s → I { s with world := onDisk f s.world }) :
    Keeps I (onWorld (atomicOp f)) := by
  rintro ⟨db, ⟨disk, faults, unreadable, len, arcs, writes, handed⟩⟩ hs
  cases faults with
  | nil => exact hf _ hs
  | cons fault fs =>
    have hnext := h.fault _ fault fs hs rfl
    cases fault with
    | none => exact hf _ hnext
    | fail n => exact hnext
    | crash n => exact hnext

theorem walSync (h : WriterRule I) : Keeps I walSync :=
  h.flushBuf.bind fun _ => h.atomicOp fun _ => id

end WriterRule

theorem ignoreError_keeps {I : Sys → Prop} {m : M Unit} (h : Keeps I m) : Keeps I (ignoreError m) := by
  intro s hs
  have hm := h s hs
  unfold Triple at hm ⊢
  unfold ignoreError
  cases hr : m s with
  | ok a s' => rw [hr] at hm; exact hm
  | error e s' => rw [hr] at hm; cases e <;> exact hm

-- ---------------------------------------------------------------------------
-- The log programs
-- ---------------------------------------------------------------------------

/-- What the log programs do, where the stamps that are marked are `allowed`. -/
structure LogRule (allowed : Nat → Prop) (I : Sys → Prop) : Prop extends WriterRule I where
  mark : ∀ s stamp, allowed stamp → I s → I (s.markLog stamp)
  unmark : ∀ s, I s → I s.unmarkLog
  writer : ∀ s wal n, I s → I { s with db := { s.db with wal := wal, walFileNumber := n } }
  create : ∀ s n, I s → n ∉ s.world.disk.logs →
    I { s with world := onDisk (fun d => { d with logs := d.logs.insert n ⟨[], []⟩ }) s.world }
  remove : ∀ s n, I s → I { s with world := onDisk (fun d => { d with logs := d.logs.erase n }) s.world }

namespace LogRule

variable {allowed : Nat → Prop} {I : Sys → Prop}

theorem walAppend (h : LogRule allowed I) (hok : allowed stamp) : Keeps I (walAppend entry stamp) := by
  intro s hs
  have hrecords := h.writeRecords (Wal.appendRecords entry) (s.markLog stamp) (h.mark s stamp hok hs)
  unfold Triple at hrecords ⊢
  unfold AiDb.walAppend
  cases hr : AiDb.writeRecords (Wal.appendRecords entry) (s.markLog stamp) with
  | ok u s' => rw [hr] at hrecords; exact hrecords
  | error e s' =>
    rw [hr] at hrecords
    dsimp only at hrecords ⊢
    split
    · exact h.unmark s' hrecords
    · exact hrecords

theorem logOps (h : LogRule allowed I) (ops : List WriteOp) (hok : ∀ t, stamp ≤ t → t < stamp + ops.length → allowed t) :
    Keeps I (logOps stamp ops) := by
  induction ops generalizing stamp with
  | nil => exact Keeps.pure
  | cons op ops ih =>
    rw [List.length_cons] at hok
    exact (h.walAppend (hok stamp (le_refl _) (by omega))).bind fun _ =>
      ih fun t hge hlt => hok t (by omega) (by omega)

theorem logAndSync (h : LogRule allowed I) (hok : ∀ t, stamp ≤ t → t < stamp + ops.length → allowed t) :
    Keeps I (logAndSync stamp ops) := by
  refine Keeps.get.bind fun s => Keeps.ite ?_ Keeps.pure
  exact (h.logOps ops hok).bind fun _ => Keeps.ite h.walSync Keeps.pure

theorem openLog (h : LogRule allowed I) : Keeps I (onWorld (openLog n)) := by
  refine h.atomicOp fun s hs => ?_
  by_cases hn : n ∈ s.world.disk.logs
  · simpa [onDisk, hn] using hs
  · simpa [onDisk, hn] using h.create s n hs hn

theorem removeLogIfExists (h : LogRule allowed I) : Keeps I (onWorld (removeLogIfExists n)) := by
  intro s hs
  unfold AiDb.removeLogIfExists
  refine onWorld_get_bind ?_
  split
  · exact h.atomicOp (fun s hs => h.remove s n hs) s hs
  · exact Triple.pure hs

theorem rotateWal (h : LogRule allowed I) : Keeps I rotateWal := by
  refine Keeps.get.bind fun s => Keeps.bind (Keeps.modify fun s hs => h.writer s _ _ hs) fun _ => ?_
  refine h.openLog.bind fun _ => Keeps.get.bind fun s' => (ignoreError_keeps h.flushBuf).bind fun _ => ?_
  exact Keeps.bind (Keeps.modify fun s hs => h.writer s _ _ hs) fun _ => h.removeLogIfExists

end LogRule

theorem logs_rule : LogRule (fun _ => True) s0.Logs where
  fault := by
    rintro s f fs ⟨wal, n, logs, faults, hf, rfl⟩ rfl
    exact ⟨wal, n, logs, fs, fun hc => (nomatch hf hc), rfl⟩
  append _ _ h := h.appendLog
  buffer _ _ h := h.setBuffer
  mark := by
    rintro s stamp - ⟨wal, n, logs, faults, hf, rfl⟩
    exact ⟨wal, n, _, faults, hf, rfl⟩
  unmark := by
    rintro s ⟨wal, n, logs, faults, hf, rfl⟩
    exact ⟨wal, n, _, faults, hf, rfl⟩
  writer := by
    rintro s wal n ⟨-, -, logs, faults, hf, rfl⟩
    exact ⟨wal, n, logs, faults, hf, rfl⟩
  create := by
    rintro s m ⟨wal, n, logs, faults, hf, rfl⟩ -
    exact ⟨wal, n, _, faults, hf, rfl⟩
  remove := by
    rintro s m ⟨wal, n, logs, faults, hf, rfl⟩
    exact ⟨wal, n, _, faults, hf, rfl⟩

theorem LogRule.of_logs {I : Sys → Prop} (h : ∀ s s', I s → s.Logs s' → I s') : LogRule (fun _ => True) I where
  fault s f fs hs hf := h s _ hs (logs_rule.fault s f fs (.refl s) hf)
  append s bytes hs := h s _ hs (logs_rule.append s bytes (.refl s))
  buffer s bytes hs := h s _ hs (logs_rule.buffer s bytes (.refl s))
  mark s stamp hok hs := h s _ hs (logs_rule.mark s stamp hok (.refl s))
  unmark s hs := h s _ hs (logs_rule.unmark s (.refl s))
  writer s wal n hs := h s _ hs (logs_rule.writer s wal n (.refl s))
  create s n hs hn := h s _ hs (logs_rule.create s n (.refl s) hn)
  remove s n hs := h s _ hs (logs_rule.remove s n (.refl s))

theorem LogRule.and {I J : Sys → Prop} (h : LogRule (fun _ => True) I) (h' : LogRule allowed J) :
    LogRule allowed fun s => I s ∧ J s where
  fault s f fs hs hf := ⟨h.fault s f fs hs.1 hf, h'.fault s f fs hs.2 hf⟩
  append s bytes hs := ⟨h.append s bytes hs.1, h'.append s bytes hs.2⟩
  buffer s bytes hs := ⟨h.buffer s bytes hs.1, h'.buffer s bytes hs.2⟩
  mark s stamp hok hs := ⟨h.mark s stamp trivial hs.1, h'.mark s stamp hok hs.2⟩
  unmark s hs := ⟨h.unmark s hs.1, h'.unmark s hs.2⟩
  writer s wal n hs := ⟨h.writer s wal n hs.1, h'.writer s wal n hs.2⟩
  create s n hs hn := ⟨h.create s n hs.1 hn, h'.create s n hs.2 hn⟩
  remove s n hs := ⟨h.remove s n hs.1, h'.remove s n hs.2⟩

theorem flushBuf_logs : Keeps s0.Logs flushBuf := logs_rule.flushBuf

theorem walSync_logs : Keeps s0.Logs walSync := logs_rule.walSync

theorem logAndSync_logs : Keeps s0.Logs (logAndSync stamp ops) := logs_rule.logAndSync fun _ _ _ => trivial

theorem openLog_logs : Keeps s0.Logs (onWorld (openLog n)) := logs_rule.openLog

theorem removeLogIfExists_logs : Keeps s0.Logs (onWorld (removeLogIfExists n)) := logs_rule.removeLogIfExists

theorem rotateWal_logs : Keeps s0.Logs rotateWal := logs_rule.rotateWal

-- ---------------------------------------------------------------------------
-- Writes
-- ---------------------------------------------------------------------------

def Sys.bump (s : Sys) (n : Nat) : Sys :=
  ⟨{ s.db with sequence := s.db.sequence + n }, { s.world with writes := s.world.writes + n }⟩

def Sys.insert (s : Sys) (ops : List WriteOp) : Sys :=
  ⟨{ s.db with
      sequence := s.db.sequence + ops.length
      memtable := applyOps s.db.memtable s.world.writes (s.db.sequence + 1) ops },
    { s.world with writes := s.world.writes + ops.length }⟩

def DB.freeze (db : DB) : DB :=
  { db with
    memtable := MemTable.new (db.sequence + 1)
    immutableMemtables := db.immutableMemtables ++ [db.memtable] }

def Sys.freeze (s : Sys) : Sys := { s with db := s.db.freeze }

def Sys.freezeIfFull (s : Sys) : Sys :=
  if s.db.memtable.approximateSize ≥ s.db.options.memtableSize then s.freeze else s

theorem Sys.Logs.insert {s s' : Sys} (ops : List WriteOp) (h : (s.bump ops.length).Logs s') :
    (s.insert ops).Logs { s' with db := { s'.db with
        memtable := applyOps s'.db.memtable s.world.writes (s.db.sequence + 1) ops } } := by
  obtain ⟨wal, n, logs, faults, hf, rfl⟩ := h
  exact ⟨wal, n, logs, faults, hf, rfl⟩

theorem Sys.Logs.freeze {s s' : Sys} (h : s.Logs s') : s.freeze.Logs s'.freeze := by
  obtain ⟨wal, n, logs, faults, hf, rfl⟩ := h
  exact ⟨wal, n, logs, faults, hf, rfl⟩

theorem freezeIfFull_spec {s s' : Sys} (h : s.Logs s') :
    Triple freezeIfFull s' (fun _ => s.freezeIfFull.Logs) (fun _ _ => False) := by
  have hdb : s'.db.memtable = s.db.memtable ∧ s'.db.options = s.db.options := by
    obtain ⟨wal, n, logs, faults, hf, rfl⟩ := h
    exact ⟨rfl, rfl⟩
  unfold AiDb.freezeIfFull Sys.freezeIfFull
  refine Triple.get_bind ?_
  dsimp only
  rw [hdb.1, hdb.2]
  split
  · exact Triple.modify h.freeze
  · exact Triple.pure h

theorem put_spec (key value : Bytes) (s : Sys) :
    Triple (put key value) s (fun _ => ((s.insert [.put key value]).freezeIfFull).Logs)
      (fun _ => (s.bump 1).Logs) := by
  unfold AiDb.put
  show Triple (logAndSync s.world.writes [.put key value] >>= fun _ => _) (s.bump 1) _ _
  refine (logAndSync_logs _ (Sys.Logs.refl _)).bind fun _ s1 h1 => ?_
  refine Triple.modify_bind ?_
  exact (freezeIfFull_spec (Sys.Logs.insert [.put key value] h1)).mono (fun _ _ => id) (fun _ _ => False.elim)

theorem delete_spec (key : Bytes) (s : Sys) :
    Triple (delete key) s (fun _ => (s.insert [.delete key]).Logs) (fun _ => (s.bump 1).Logs) := by
  unfold AiDb.delete
  show Triple (logAndSync s.world.writes [.delete key] >>= fun _ => _) (s.bump 1) _ _
  refine (logAndSync_logs _ (Sys.Logs.refl _)).bind fun _ s1 h1 => ?_
  exact Triple.modify (Sys.Logs.insert [.delete key] h1)

theorem write_spec (batch : List WriteOp) (hb : batch ≠ []) (s : Sys) :
    Triple (write batch) s (fun _ => ((s.insert batch).freezeIfFull).Logs)
      (fun _ => (s.bump batch.length).Logs) := by
  unfold AiDb.write
  rw [if_neg hb]
  show Triple (logAndSync s.world.writes batch >>= fun _ => _) (s.bump batch.length) _ _
  refine (logAndSync_logs _ (Sys.Logs.refl _)).bind fun _ s1 h1 => ?_
  refine Triple.modify_bind ?_
  exact (freezeIfFull_spec (Sys.Logs.insert _ h1)).mono (fun _ _ => id) (fun _ _ => False.elim)

-- ---------------------------------------------------------------------------
-- What writes leave alone
-- ---------------------------------------------------------------------------

structure Sys.TablesKept (s s' : Sys) : Prop where
  sstables : s'.db.sstables = s.db.sstables
  nextFileNumber : s'.db.nextFileNumber = s.db.nextFileNumber
  options : s'.db.options = s.db.options
  ssts : s'.world.disk.ssts = s.world.disk.ssts
  files : s'.world.disk.files = s.world.disk.files
  handed : s'.world.handed = s.world.handed
  unreadable : s'.world.unreadable = s.world.unreadable
  arcs : s'.world.arcs = s.world.arcs

theorem Sys.Logs.tablesKept {s s' : Sys} (h : s.Logs s') : s.TablesKept s' := by
  obtain ⟨_, _, _, _, -, rfl⟩ := h
  exact ⟨rfl, rfl, rfl, rfl, rfl, rfl, rfl, rfl⟩

theorem Sys.TablesKept.trans {s s1 s2 : Sys} (h : s.TablesKept s1) (h' : s1.TablesKept s2) :
    s.TablesKept s2 where
  sstables := h'.sstables.trans h.sstables
  nextFileNumber := h'.nextFileNumber.trans h.nextFileNumber
  options := h'.options.trans h.options
  ssts := h'.ssts.trans h.ssts
  files := h'.files.trans h.files
  handed := h'.handed.trans h.handed
  unreadable := h'.unreadable.trans h.unreadable
  arcs := h'.arcs.trans h.arcs

theorem Sys.tablesKept_bump (s : Sys) (n : Nat) : s.TablesKept (s.bump n) :=
  ⟨rfl, rfl, rfl, rfl, rfl, rfl, rfl, rfl⟩

theorem Sys.tablesKept_insert (s : Sys) (ops : List WriteOp) : s.TablesKept (s.insert ops) :=
  ⟨rfl, rfl, rfl, rfl, rfl, rfl, rfl, rfl⟩

theorem Sys.tablesKept_freeze (s : Sys) : s.TablesKept s.freeze :=
  ⟨rfl, rfl, rfl, rfl, rfl, rfl, rfl, rfl⟩

theorem Sys.tablesKept_freezeIfFull (s : Sys) : s.TablesKept s.freezeIfFull := by
  unfold Sys.freezeIfFull
  split
  · exact s.tablesKept_freeze
  · exact ⟨rfl, rfl, rfl, rfl, rfl, rfl, rfl, rfl⟩

def Call.IsWrite : Call → Prop
  | .put .. | .delete _ | .write _ => True
  | _ => False

instance : (c : Call) → Decidable c.IsWrite
  | .put .. | .delete _ | .write _ => isTrue trivial
  | .flushTables | .maybeTriggerCompaction | .flush | .close => isFalse id

theorem Call.run_tablesKept (c : Call) (hc : c.IsWrite) (s : Sys) :
    Triple c.run s (fun _ => s.TablesKept) (fun _ => s.TablesKept) := by
  have hbump : ∀ {s'} n, (s.bump n).Logs s' → s.TablesKept s' :=
    fun n h => (s.tablesKept_bump n).trans h.tablesKept
  have hfull : ∀ {s'} ops, ((s.insert ops).freezeIfFull).Logs s' → s.TablesKept s' := fun ops h =>
    (s.tablesKept_insert ops).trans ((s.insert ops).tablesKept_freezeIfFull.trans h.tablesKept)
  cases c with
  | put key value => exact (put_spec key value s).mono (fun _ _ => hfull _) (fun _ _ => hbump _)
  | delete key =>
    exact (delete_spec key s).mono (fun _ _ h => (s.tablesKept_insert _).trans h.tablesKept)
      (fun _ _ => hbump _)
  | write batch =>
    by_cases hb : batch = []
    · subst hb
      exact Triple.pure (Sys.Logs.refl s).tablesKept
    · exact (write_spec batch hb s).mono (fun _ _ => hfull _) (fun _ _ => hbump _)
  | _ => exact hc.elim

-- ---------------------------------------------------------------------------
-- Flush
-- ---------------------------------------------------------------------------

def Sys.popped (s : Sys) (rest : List MemTable) : Sys :=
  { s with db := { s.db with immutableMemtables := rest } }

/-- The loop over the immutable memtables: what one round keeps, the loop
keeps. -/
theorem flushImmutables_rule {I : Sys → Prop} {E : Exit → Sys → Prop}
    (hround : ∀ s m rest, I s → s.db.immutableMemtables = m :: rest →
      Triple (flushMemtableToSstable m) (s.popped rest) (fun _ => I) E)
    (rounds : Nat) {s : Sys} (hs : I s) : Triple (flushImmutables rounds) s (fun _ => I) E := by
  induction rounds generalizing s with
  | zero => exact Triple.pure hs
  | succ rounds ih =>
    unfold flushImmutables
    refine Triple.get_bind ?_
    cases hm : s.db.immutableMemtables with
    | nil => exact Triple.pure hs
    | cons m rest =>
      refine Triple.modify_bind ?_
      exact (hround s m rest hs hm).bind fun _ s1 h1 => ih h1

def Sys.frozen (s : Sys) : Sys := if s.db.memtable.isEmpty then s else s.freeze

theorem Sys.tablesKept_popped (s : Sys) (rest : List MemTable) : s.TablesKept (s.popped rest) :=
  ⟨rfl, rfl, rfl, rfl, rfl, rfl, rfl, rfl⟩

theorem Sys.tablesKept_frozen (s : Sys) : s.TablesKept s.frozen := by
  unfold Sys.frozen
  split
  · exact (Sys.Logs.refl s).tablesKept
  · exact s.tablesKept_freeze

theorem flushMemtables_eq {s : Sys} (h : Triple (flushImmutables s.frozen.db.immutableMemtables.length)
    s.frozen Q E) : Triple flushMemtables s Q E := by
  unfold flushMemtables
  refine Triple.get_bind ?_
  unfold Sys.frozen at h
  cases hm : s.db.memtable.isEmpty with
  | true => rw [hm] at h; exact h
  | false => rw [hm] at h; exact h

end AiDb
