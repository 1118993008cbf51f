import AiDb.Library.Threads
import AiDb.Logging

/-!
# Concurrent calls

The calls on one handle as threads. An atomic step is a section that the source
runs under one lock, or one atomic operation: taking sequence numbers, the WAL
section of a write, one insert into the memtable; the freeze of a flush, taking a
memtable off the list, writing and installing its table, and the creation, the swap
and the removal of `rotate_wal`; the sections of a read. No file operation fails.
A flush is followed up to the point where it looks for a compaction. A batch keeps
the memtable locked from its first insert to its last, so it is not run here beside
a freeze.
-/

namespace AiDb

open Library

/-- The handle and the directory, with the operations in the order in which they
took their sequence numbers and in the order in which they were logged. -/
structure Shared where
  sys : Sys
  numbered : List WriteOp
  logged : List WriteOp

/-- Where a put, a delete or a batch is: before it took its numbers, before its WAL
section, with operations still to insert, or past its return. -/
inductive WritePc
  | start
  | numbered (stamp sequence : Nat)
  | inserting (stamp sequence : Nat) (rest : List WriteOp)
  | returned
  | failed

/-- Where a flush is. `writing` has taken a memtable off the list and not yet
installed its table; `failed` never will. -/
inductive FlushPc
  | start
  | freezing
  | popping
  | writing (m : MemTable)
  | rotating
  | created (n : Nat)
  | swapped (old : Nat)
  | returned
  | failed (m : MemTable)

/-- Where a read is: before it loaded the sequence number, before one of the three
places it looks into, or past its return. -/
inductive ReadPc
  | start
  | memtable (maxSeq : Nat)
  | immutables (maxSeq : Nat)
  | tables
  | returned (r : Except Error (Option Bytes))

inductive SnapshotPc
  | start (keys : List Bytes)
  | reading (sequence : Nat) (keys : List Bytes) (answers : List (Bytes × Except Error (Option Bytes)))

/-- `freeze` is the `freeze_memtable` of a put that found the memtable full; it may
come at any time. -/
inductive Thread
  | write (ops : List WriteOp) (pc : WritePc)
  | freeze (returned : Bool)
  | flush (pc : FlushPc)
  | read (key : Bytes) (pc : ReadPc)
  | snapshot (pc : SnapshotPc)

/-- `sequence.fetch_add(n) + 1`, with the stamps. -/
def numberOps (n : Nat) : M (Nat × Nat) := do
  let seq ← fetchAddSequence n
  let stamp ← takeStamps n
  return (stamp, seq)

/-- The first half of `rotate_wal`: the number and the file of the new log. -/
def createWal : M Nat := do
  let n := (← get).db.walFileNumber + 1
  modifyDb fun db => { db with walFileNumber := n }
  onWorld (openLog n)
  return n

/-- The swap of `rotate_wal`; the old writer is dropped. -/
def swapWal (n : Nat) : M Nat := do
  let old := (← get).db.wal.number
  ignoreError flushBuf
  modifyDb fun db => { db with wal := ⟨n, []⟩ }
  return old

def WritePc.next (s : Shared) (ops : List WriteOp) : WritePc → Option (Shared × WritePc)
  | .start =>
    if ops = [] then some (s, .returned)
    else
      match numberOps ops.length s.sys with
      | .ok (stamp, seq) sys => some ({ s with sys, numbered := s.numbered ++ ops }, .numbered stamp seq)
      | .error _ _ => none
  | .numbered stamp seq =>
    match logAndSync stamp ops s.sys with
    | .ok () sys => some ({ s with sys, logged := s.logged ++ ops }, .inserting stamp seq ops)
    | .error _ sys => some ({ s with sys }, .failed)
  | .inserting stamp seq (op :: rest) =>
    match insertOps stamp seq [op] s.sys with
    | .ok () sys => some ({ s with sys }, .inserting (stamp + 1) (seq + 1) rest)
    | .error _ _ => none
  | .inserting _ _ [] => some (s, .returned)
  | .returned | .failed => none

def FlushPc.next (s : Shared) : FlushPc → Option (Shared × FlushPc)
  | .start => some (s, if s.sys.db.memtable.isEmpty then .popping else .freezing)
  | .freezing =>
    match freezeMemtable s.sys with
    | .ok () sys => some ({ s with sys }, .popping)
    | .error _ _ => none
  | .popping =>
    match s.sys.db.immutableMemtables with
    | [] => some (s, .rotating)
    | m :: rest => some ({ s with sys := s.sys.popped rest }, .writing m)
  | .writing m =>
    match flushMemtableToSstable m s.sys with
    | .ok _ sys => some ({ s with sys }, .popping)
    | .error _ sys => some ({ s with sys }, .failed m)
  | .rotating =>
    match createWal s.sys with
    | .ok n sys => some ({ s with sys }, .created n)
    | .error _ _ => none
  | .created n =>
    match swapWal n s.sys with
    | .ok old sys => some ({ s with sys }, .swapped old)
    | .error _ _ => none
  | .swapped old =>
    match onWorld (removeLogIfExists old) s.sys with
    | .ok () sys => some ({ s with sys }, .returned)
    | .error _ _ => none
  | .returned | .failed _ => none

/-- The sections of `DB::get`, in order; the first that has an answer is the last. -/
def ReadPc.next (s : Sys) (key : Bytes) : ReadPc → Option ReadPc
  | .start => some (.memtable s.db.sequence)
  | .memtable maxSeq =>
    match s.db.memtable.get key maxSeq with
    | some v => some (.returned (.ok (some v.bytes)))
    | none => some (.immutables maxSeq)
  | .immutables maxSeq =>
    match s.db.immutableMemtables.reverse.findSome? (·.get key maxSeq) with
    | some v => some (.returned (.ok (some v.bytes)))
    | none => some .tables
  | .tables => some (.returned ((firstAnswer (fun r => r.get (s.world.readBlock r.file) key)
      (s.db.sstables.flatMap List.reverse)).map (·.map Value.bytes)))
  | .returned _ => none

def SnapshotPc.next (s : Sys) : SnapshotPc → Option SnapshotPc
  | .start keys => some (.reading s.db.sequence keys [])
  | .reading sequence (key :: keys) answers =>
    some (.reading sequence keys (answers ++ [(key, s.db.getAtSequence s.world key sequence)]))
  | .reading _ [] _ => none

def Thread.next (s : Shared) : Thread → Option (Shared × Thread)
  | .write ops pc => (pc.next s ops).map fun (s', pc') => (s', .write ops pc')
  | .freeze false =>
    match freezeMemtable s.sys with
    | .ok () sys => some ({ s with sys }, .freeze true)
    | .error _ _ => none
  | .freeze true => none
  | .flush pc => (pc.next s).map fun (s', pc') => (s', .flush pc')
  | .read key pc => (pc.next s.sys key).map fun pc' => (s, .read key pc')
  | .snapshot pc => (pc.next s.sys).map fun pc' => (s, .snapshot pc')

def Shared.fresh (len : CompressedLen) (o : Options) : Option Shared :=
  (Sys.fresh len o).map fun s => ⟨s, [], []⟩

def runThreads (len : CompressedLen) (o : Options) (threads : List Thread) (schedule : List Nat) :
    Option (Config Shared Thread) :=
  (Shared.fresh len o).bind fun s => (Config.mk s threads).run Thread.next schedule

def AlongThreads (P : Shared → List Thread → Thread → Prop) (len : CompressedLen) (o : Options) (threads : List Thread)
    (schedule : List Nat) : Prop :=
  ∀ s, Shared.fresh len o = some s → (Config.mk s threads).Along Thread.next P schedule

theorem alongThreads_of_check {P : Shared → List Thread → Thread → Prop} [∀ s ts t, Decidable (P s ts t)]
    (h : (Shared.fresh len o).all (fun s => (Config.mk s threads).checkAlong Thread.next P schedule) = true) :
    AlongThreads P len o threads schedule := by
  intro s hs
  rw [hs] at h
  exact Config.along_of_check h

theorem alongThreads_true : AlongThreads (fun _ _ _ => True) len o threads schedule :=
  fun _ _ => Config.along_true _ schedule

-- ---------------------------------------------------------------------------
-- What a step can do
-- ---------------------------------------------------------------------------

def Sys.insertOne (s : Sys) (op : WriteOp) (stamp sequence : Nat) : Sys :=
  { s with db := { s.db with memtable := op.apply s.db.memtable stamp sequence } }

def Sys.withNewLog (s : Sys) (n : Nat) : Sys :=
  ⟨{ s.db with walFileNumber := n },
    { s.world with disk := if n ∈ s.world.disk.logs then s.world.disk
      else { s.world.disk with logs := s.world.disk.logs.insert n ⟨[], []⟩ } }⟩

def Sys.withWriter (s : Sys) (n : Nat) : Sys := { s with db := { s.db with wal := ⟨n, []⟩ } }

def Sys.withoutLog (s : Sys) (n : Nat) : Sys :=
  { s with world := { s.world with disk := { s.world.disk with logs := s.world.disk.logs.erase n } } }

inductive Shared.Moves (s : Shared) : Thread → Shared → Thread → Prop
  | empty : s.Moves (.write [] .start) s (.write [] .returned)
  | number (h : ops ≠ []) : s.Moves (.write ops .start)
      ⟨s.sys.bump ops.length, s.numbered ++ ops, s.logged⟩
      (.write ops (.numbered s.sys.world.writes (s.sys.db.sequence + 1)))
  | log {s1 : Sys} (hlogs : s.sys.Logs s1)
      (happ : s.sys.db.options.useWal = true → s.sys.Appended (logEntries ops) s1 ∧
        (s.sys.db.options.syncWal = true → s1.db.wal.buffer = []) ∧
        s1.logFile.stamps = s.sys.logFile.stamps ++ List.range' stamp ops.length) :
      s.Moves (.write ops (.numbered stamp seq)) ⟨s1, s.numbered, s.logged ++ ops⟩
        (.write ops (.inserting stamp seq ops))
  | insert : s.Moves (.write ops (.inserting stamp seq (op :: rest)))
      { s with sys := s.sys.insertOne op stamp seq } (.write ops (.inserting (stamp + 1) (seq + 1) rest))
  | inserted : s.Moves (.write ops (.inserting stamp seq [])) s (.write ops .returned)
  | freeze : s.Moves (.freeze false) { s with sys := s.sys.freeze } (.freeze true)
  | skipFreeze (h : s.sys.db.memtable.isEmpty = true) : s.Moves (.flush .start) s (.flush .popping)
  | wantFreeze (h : s.sys.db.memtable.isEmpty = false) : s.Moves (.flush .start) s (.flush .freezing)
  | freezeFlush : s.Moves (.flush .freezing) { s with sys := s.sys.freeze } (.flush .popping)
  | nonePopped (h : s.sys.db.immutableMemtables = []) : s.Moves (.flush .popping) s (.flush .rotating)
  | pop (h : s.sys.db.immutableMemtables = m :: rest) :
      s.Moves (.flush .popping) { s with sys := s.sys.popped rest } (.flush (.writing m))
  | install (h : flushMemtableToSstable m s.sys = .ok n s1) :
      s.Moves (.flush (.writing m)) { s with sys := s1 } (.flush .popping)
  | notInstalled (h : flushMemtableToSstable m s.sys = .error e s1) :
      s.Moves (.flush (.writing m)) { s with sys := s1 } (.flush (.failed m))
  | create : s.Moves (.flush .rotating) { s with sys := s.sys.withNewLog (s.sys.db.walFileNumber + 1) }
      (.flush (.created (s.sys.db.walFileNumber + 1)))
  | swap {s1 : Sys} (h : s.sys.Appended [] s1) (hempty : s.sys.db.wal.buffer = [] → s1 = s.sys) : s.Moves (.flush (.created n)) { s with sys := s1.withWriter n }
      (.flush (.swapped s.sys.db.wal.number))
  | remove : s.Moves (.flush (.swapped old)) { s with sys := s.sys.withoutLog old } (.flush .returned)
  | read (h : ReadPc.next s.sys key pc = some pc') : s.Moves (.read key pc) s (.read key pc')
  | snapshot (h : SnapshotPc.next s.sys pc = some pc') : s.Moves (.snapshot pc) s (.snapshot pc')

theorem createWal_eq {s : Sys} (hc : s.world.faults = []) :
    createWal s = .ok (s.db.walFileNumber + 1) (s.withNewLog (s.db.walFileNumber + 1)) := by
  obtain ⟨db, ⟨disk, faults, unreadable, len, arcs, writes, handed⟩⟩ := s
  cases hc
  rfl

theorem removeLog_eq {s : Sys} (hc : s.world.faults = []) (n : Nat) :
    onWorld (removeLogIfExists n) s = .ok () (s.withoutLog n) := by
  obtain ⟨db, ⟨disk, faults, unreadable, len, arcs, writes, handed⟩⟩ := s
  cases hc
  unfold onWorld removeLogIfExists
  by_cases hn : n ∈ disk.logs
  · simp only [bind, EStateM.bind, get, getThe, MonadStateOf.get, EStateM.get, if_pos hn]
    rfl
  · have herase : disk.logs.erase n = disk.logs := AList.ext (List.kerase_of_notMem_keys hn)
    simp only [bind, EStateM.bind, get, getThe, MonadStateOf.get, EStateM.get, if_neg hn]
    simp only [Sys.withoutLog, herase]
    rfl

theorem WritePc.next_moves {s : Shared} {pc : WritePc} (hc : s.sys.world.faults = [])
    (h : pc.next s ops = some (s', pc')) : s.Moves (.write ops pc) s' (.write ops pc') := by
  cases pc with
  | start =>
    rw [WritePc.next] at h
    split at h
    · rename_i hnil
      subst hnil
      cases h
      exact .empty
    · rename_i hops
      cases h
      exact .number hops
  | numbered stamp seq =>
    have hlogs : Keeps s.sys.Logs (logAndSync stamp ops) := logAndSync_logs
    have hlogs := hlogs s.sys (.refl s.sys)
    have happ := logAndSync_appended ops stamp s.sys
    simp only [WritePc.next] at h
    cases hr : logAndSync stamp ops s.sys with
    | ok u sys =>
      rw [hr] at h
      cases h
      exact .log (hlogs.ok hr) fun hwal =>
        ⟨((happ hwal).ok hr).1, ((happ hwal).ok hr).2, ((logAndSync_stamped ops stamp s.sys hwal).ok hr).2⟩
    | error e sys =>
      -- without a log nothing is done, and with it nothing fails
      exfalso
      by_cases hwal : s.sys.db.options.useWal = true
      · exact ((happ hwal).error hr).1 hc
      · unfold logAndSync at hr
        simp only [bind, EStateM.bind, get, getThe, MonadStateOf.get, EStateM.get, if_neg hwal] at hr
        cases hr
  | inserting stamp seq rest =>
    cases rest with
    | nil =>
      cases h
      exact .inserted
    | cons op rest =>
      cases h
      exact .insert
  | returned => cases h
  | failed => cases h

theorem FlushPc.next_moves {s : Shared} {pc : FlushPc} (hc : s.sys.world.faults = [])
    (h : pc.next s = some (s', pc')) : s.Moves (.flush pc) s' (.flush pc') := by
  cases pc with
  | start =>
    rw [FlushPc.next] at h
    cases hm : s.sys.db.memtable.isEmpty with
    | true =>
      rw [hm] at h
      cases h
      exact .skipFreeze hm
    | false =>
      rw [hm] at h
      cases h
      exact .wantFreeze hm
  | freezing =>
    cases h
    exact .freezeFlush
  | popping =>
    simp only [FlushPc.next] at h
    split at h
    · rename_i hnil
      cases h
      exact .nonePopped hnil
    · rename_i m rest hcons
      cases h
      exact .pop hcons
  | writing m =>
    simp only [FlushPc.next] at h
    cases hr : flushMemtableToSstable m s.sys with
    | ok n sys =>
      rw [hr] at h
      cases h
      exact .install hr
    | error e sys =>
      rw [hr] at h
      cases h
      exact .notInstalled hr
  | rotating =>
    rw [FlushPc.next, createWal_eq hc] at h
    cases h
    exact .create
  | created n =>
    have happ := ignoreError_flushBuf s.sys
    simp only [FlushPc.next, swapWal, bind, EStateM.bind, get, getThe, MonadStateOf.get, EStateM.get] at h
    cases hr : ignoreError flushBuf s.sys with
    | ok u sys =>
      rw [hr] at h
      cases h
      refine .swap (happ.ok hr) fun hbuf => ?_
      -- an empty buffer is not written
      simp only [ignoreError, flushBuf, bind, EStateM.bind, get, getThe, MonadStateOf.get, EStateM.get, hbuf,
        ne_eq, not_true_eq_false, ↓reduceIte] at hr
      cases hr
      rfl
    | error e sys => exact absurd hc (happ.error hr).2.1
  | swapped old =>
    rw [FlushPc.next, removeLog_eq hc] at h
    cases h
    exact .remove
  | returned => cases h
  | failed m => cases h

theorem Thread.next_moves {s : Shared} {t : Thread} (hc : s.sys.world.faults = [])
    (h : t.next s = some (s', t')) : s.Moves t s' t' := by
  cases t with
  | write ops pc =>
    obtain ⟨⟨s1, pc1⟩, hn, heq⟩ := Option.map_eq_some_iff.mp h
    cases heq
    exact WritePc.next_moves hc hn
  | freeze returned =>
    cases returned with
    | true => cases h
    | false =>
      cases h
      exact .freeze
  | flush pc =>
    obtain ⟨⟨s1, pc1⟩, hn, heq⟩ := Option.map_eq_some_iff.mp h
    cases heq
    exact FlushPc.next_moves hc hn
  | read key pc =>
    obtain ⟨pc1, hn, heq⟩ := Option.map_eq_some_iff.mp h
    cases heq
    exact .read hn
  | snapshot pc =>
    obtain ⟨pc1, hn, heq⟩ := Option.map_eq_some_iff.mp h
    cases heq
    exact .snapshot hn

end AiDb
