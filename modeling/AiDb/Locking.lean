import AiDb.Library.LockOrder

/-!
# The locks of the database

The fields of `DB` and of the block cache are behind locks of their own. A guard is held
to the end of its block unless it is dropped before; a `?` returns in the middle, and
gives back what is held. What a method does between its locks is left out, and where it
decides on data it can go on either way.
-/

namespace AiDb.Locking

open Library Library.LockProg

inductive Lock
  | memtable
  | immutableMemtables
  | wal
  | versionSet
  | sstables
  | cache
  | lruQueue
  | stats
  deriving DecidableEq

/-- No method takes a lock while it holds one that is not in front of it here. -/
def Lock.rank : Lock → Nat
  | .wal => 0
  | .memtable => 1
  | .immutableMemtables => 2
  | .versionSet => 3
  | .sstables => 4
  | .cache => 5
  | .lruQueue => 6
  | .stats => 7

abbrev Prog := LockProg Lock

-- ---------------------------------------------------------------------------
-- The block cache
-- ---------------------------------------------------------------------------

def count : Prog := .guard .stats .write .skip

def touch : Prog := .guard .lruQueue .write .skip

def cacheGet : Prog := block [
  count,
  opt .leave,
  .guard .cache .read (.choose
    (block [.drop .cache, .call touch, count])
    (block [.drop .cache, count]))]

/-- `BlockCache::evict_one`. The queue is released before the map is locked. -/
def evictOne : Prog :=
  .guard .lruQueue .write (opt (block [
    .drop .lruQueue,
    .guard .cache .write (opt (block [.drop .cache, count]))]))

def cacheInsert : Prog := block [
  opt .leave,
  opt .leave,
  .loop (.call evictOne),
  .guard .cache .write (.guard .lruQueue .write (block [.drop .cache, .drop .lruQueue, count]))]

def stats : Prog := .guard .stats .read .skip

def resetStats : Prog := .guard .stats .write .skip

def clear : Prog := .guard .cache .write (.guard .lruQueue .write .skip)

-- ---------------------------------------------------------------------------
-- Tables
-- ---------------------------------------------------------------------------

def readBlockCached : Prog := .choose
  (block [.call cacheGet, opt .leave, fallible, .call cacheInsert])
  fallible

def tableGet : Prog := block [opt .leave, fallible, opt .leave, attempt readBlockCached, fallible]

def smallestKey : Prog := block [opt .leave, fallible, attempt readBlockCached, fallible]

/-- `SSTableReader::keys`, which reads the blocks past the cache. -/
def tableKeys : Prog := fallible

-- ---------------------------------------------------------------------------
-- The database
-- ---------------------------------------------------------------------------

def freezeMemtable : Prog := .guard .memtable .write (.guard .immutableMemtables .write .skip)

def put : Prog := block [
  opt (.guard .wal .write (block [fallible, opt fallible])),
  .guard .memtable .read .skip,
  .guard .memtable .read .skip,
  opt (attempt freezeMemtable)]

def delete : Prog := block [
  opt (.guard .wal .write (block [fallible, opt fallible])),
  .guard .memtable .read .skip]

def write : Prog := block [
  opt .leave,
  opt (.guard .wal .write (block [.loop fallible, opt fallible])),
  .guard .memtable .read .skip,
  .guard .memtable .read .skip,
  opt (attempt freezeMemtable)]

/-- `DB::get_at_sequence`. A table is read while the list of the tables is locked. -/
def getAtSequence : Prog := block [
  .guard .memtable .read (opt .leave),
  .guard .immutableMemtables .read (.loop (opt .leave)),
  .guard .sstables .read (.loop (block [attempt tableGet, opt .leave]))]

def get : Prog := getAtSequence

def flushMemtableToSstable : Prog := block [
  fallible,
  .loop fallible,
  opt (block [fallible, fallible, .leave]),
  fallible,
  fallible,
  .guard .sstables .write .skip]

def rotateWal : Prog := block [fallible, .guard .wal .write .skip, opt fallible]

/-- `CompactionJob::run`, which reads its inputs past the cache. -/
def runJob : Prog := fallible

def compact : Prog := block [
  attempt runJob,
  opt .leave,
  fallible,
  attempt smallestKey,
  fallible,
  fallible,
  .loop fallible,
  .guard .versionSet .write (.guard .sstables .write (block [fallible, .loop fallible])),
  .loop (opt fallible)]

def maybeTriggerCompaction : Prog :=
  .guard .sstables .read (block [opt .leave, .drop .sstables, attempt compact])

/-- `DB::flush`. The round that finds the list empty is the last one. -/
def flush : Prog := block [
  .guard .memtable .read (opt (block [.drop .memtable, attempt freezeMemtable])),
  .loop (block [.guard .immutableMemtables .write .skip, attempt flushMemtableToSstable]),
  .guard .immutableMemtables .write .skip,
  attempt rotateWal,
  attempt maybeTriggerCompaction]

def close : Prog := block [attempt flush, opt (.guard .wal .write fallible)]

-- ---------------------------------------------------------------------------
-- Iterators
-- ---------------------------------------------------------------------------

def collectKeys : Prog := block [
  .guard .memtable .read .skip,
  .guard .immutableMemtables .read .skip,
  .guard .sstables .read (.loop (attempt tableKeys))]

/-- `DBIterator::load_current`, with the calls of `next` on keys without a value as
further rounds. -/
def loadCurrent : Prog := .loop (block [opt .leave, attempt getAtSequence])

def newRange : Prog := block [attempt collectKeys, opt (attempt loadCurrent)]

/-- `DBIterator::next`, `prev`, `seek`, `seek_to_first` and `seek_to_last`. -/
def move : Prog := opt (.call loadCurrent)

-- ---------------------------------------------------------------------------
-- Clients
-- ---------------------------------------------------------------------------

/-- What a thread can call on a database that it shares, on its iterators and on its
snapshots. -/
def publicCalls : List Prog :=
  [put, get, delete, write, getAtSequence, flush, maybeTriggerCompaction, close, newRange, move,
    stats, resetStats, clear]

def client : Prog := .loop (.call (oneOf publicCalls))

theorem client_ordered : client.Ordered Lock.rank := by decide +kernel

/-- Clients are never stuck: as long as one of them has something left to do, one of
them can do its next step, also where waiting writers go before readers. Who has
returned from everything holds nothing. -/
theorem clients_exists_step (n : Nat) (threads : List (LockThread Lock))
    (h : LockReachable (List.replicate n client) threads) :
    ((∃ t ∈ threads, ¬t.Finished) → ∃ threads', LockStep LockFair threads threads') ∧
      ∀ t ∈ threads, t.Finished → t.held = [] := by
  have hps : ∀ p ∈ List.replicate n client, p.Ordered Lock.rank := by
    intro p hp
    rw [List.eq_of_mem_replicate hp]
    exact client_ordered
  exact ⟨h.exists_step hps, fun t ht => (h.ordered hps t ht).held_of_finished⟩

/-- A thread is in a read of the memtable, a flush waits to freeze it, and another reader
waits behind the flush. -/
def readFlushRead : List (Nat × Bool) :=
  let reading := [true, true, false, true, true]
  let flushing := [true, true, false, false, false, false, false, true, true, true, false, true, true, true, true, true]
  (reading ++ [true]).map (Prod.mk 0) ++ flushing.map (Prod.mk 1) ++ reading.map (Prod.mk 2)

theorem clients_exists_step_readFlushRead : ∃ threads, LockReachable (List.replicate 3 client) threads ∧
    threads.map LockThread.wants = [none, some (.memtable, .write), some (.memtable, .read)] ∧
    ∃ threads', LockStep LockFair threads threads' := by
  have hrun : (lockRun (List.replicate 3 (LockThread.start client)) readFlushRead).map (·.map LockThread.wants) =
      some [none, some (.memtable, .write), some (.memtable, .read)] := by decide +kernel
  obtain ⟨threads, hthreads, hwants⟩ := Option.map_eq_some_iff.mp hrun
  have hreach : LockReachable (List.replicate 3 client) threads := reflTransGen_of_lockRun hthreads
  refine ⟨threads, hreach, hwants, (clients_exists_step 3 threads hreach).1 ?_⟩
  have hmem : some (Lock.memtable, LockMode.write) ∈ threads.map LockThread.wants := by simp [hwants]
  obtain ⟨t, ht, hw⟩ := List.mem_map.mp hmem
  exact ⟨t, ht, LockThread.not_finished_of_wants hw⟩

end AiDb.Locking
