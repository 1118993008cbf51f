import AiDb.Recording
import AiDb.Sstable.Reading
import AiDb.Table.Lru

/-!
# A handle and its block cache

The readers of a handle share one block cache. Lookups, and the smallest key that a
compaction asks its output for, read their blocks through it; merges and the largest
key do not. A block is in the cache under the number of its table and its offset.
-/

namespace AiDb

open Library Compaction

-- ---------------------------------------------------------------------------
-- Reading a table
-- ---------------------------------------------------------------------------

/-- The data of a block, as `read_block_with_handle` gives it. -/
def World.readData (w : World) (file : Nat) (handle : BlockHandle) : Except Error Bytes :=
  (w.readBlock file handle).map (Sstable.blockData 16)

/-- The search of `SSTableReader::get` in the data of a block. -/
def searchBlock (key data : Bytes) : Except Error (Option Bytes) := do
  let block ← Sstable.Block.new data
  return Sstable.scan key block.iter.seekToFirst.visited

def firstKey (data : Bytes) : Except Error (Option Bytes) := do
  let block ← Sstable.Block.new data
  return block.iter.seekToFirst.visited.head?.map Prod.fst

namespace SSTableReader

variable (r : SSTableReader) (w : World)

/-- `read_block_cached`, with the `block_cache` of the reader if it has one. -/
def readBlockCached (handle : BlockHandle) : Option SharedCache → Except Error Bytes × Option SharedCache
  | none => (w.readData r.file handle, none)
  | some cache =>
    let key : CacheKey := ⟨r.fileNumber, handle.offset⟩
    match cache.get key with
    | (some data, cache) => (.ok data, some cache)
    | (none, cache) =>
      match w.readData r.file handle with
      | .ok data => (.ok data, some (cache.insert key data))
      | .error e => (.error e, some cache)

def getCached (key : Bytes) (cache : Option SharedCache) : Except Error (Option Bytes) × Option SharedCache :=
  if Filter.mayContain r.keys key then
    match findBlock r.indexBlock key with
    | none => (.ok none, cache)
    | some handle =>
      let (data, cache) := r.readBlockCached w handle cache
      (data.bind (searchBlock key), cache)
  else (.ok none, cache)

def smallestKeyCached (cache : Option SharedCache) : Except Error (Option Bytes) × Option SharedCache :=
  match r.indexBlock with
  | [] => (.ok none, cache)
  | (_, handle) :: _ =>
    let (data, cache) := r.readBlockCached w handle cache
    (data.bind firstKey, cache)

end SSTableReader

-- ---------------------------------------------------------------------------
-- The methods of the handle
-- ---------------------------------------------------------------------------

structure CSys where
  sys : Sys
  blockCache : Option SharedCache

abbrev C := EStateM Exit CSys

/-- A program that does not read through the cache. -/
def onSys (m : M α) : C α := fun s =>
  match m s.sys with
  | .ok a sys => .ok a { s with sys := sys }
  | .error e sys => .error e { s with sys := sys }

def throughCache (read : World → Option SharedCache → Except Error α × Option SharedCache) : C α := fun s =>
  match read s.sys.world s.blockCache with
  | (.ok a, blockCache) => .ok a { s with blockCache := blockCache }
  | (.error e, blockCache) => .error (.error e) { s with blockCache := blockCache }

namespace Cached

/-- The search through the tables, each asked when those before it had no answer. -/
def askTables (key : Bytes) : List SSTableReader → C (Option Bytes)
  | [] => return none
  | r :: rs => do
    match ← throughCache fun w cache => r.getCached w key cache with
    | some value => return some value
    | none => askTables key rs

def getAtSequence (key : Bytes) (maxSeq : Nat) : C (Option Bytes) := do
  let db := (← get).sys.db
  match db.memtables.findSome? (·.get key maxSeq) with
  | some v => return some v.bytes
  | none => askTables key (db.sstables.flatMap List.reverse)

def clearCache : C Unit := modify fun s => { s with blockCache := s.blockCache.map SharedCache.clear }

/-- `DB::compact` up to the first edit. -/
def compactOutput (task : CompactionTask) : C (Option (SSTableReader × FileMetaData)) := do
  let fileNumber ← onSys takeFileNumber
  let options := (← get).sys.db.options
  let result ← onSys (onWorld (runJob task.inputs task.outputLevel options.blockSize fileNumber))
  if result.fileNumber = 0 then return none
  let reader ← onSys (onWorld (openWithCache fileNumber))
  let smallest ← throughCache reader.smallestKeyCached
  match smallest, reader.largestKey with
  | some smallestKey, some largestKey =>
    return some (reader, ⟨result.fileNumber, reader.fileSize, smallestKey, largestKey⟩)
  | _, _ => throw (.error (.internal "New SSTable has no keys"))

def compact (task : CompactionTask) : C Unit := do
  let output ← compactOutput task
  onSys (finishCompaction task output)

def maybeTriggerCompaction : C Unit := do
  let db := (← get).sys.db
  match pickCompaction db.options.maxLevels db.sstables with
  | none => throw .panic
  | some none => return ()
  | some (some task) => compact task

def flush : C Unit := do
  onSys flushTables
  maybeTriggerCompaction

def close : C Unit := do
  flush
  if (← get).sys.db.options.useWal then onSys walSync

def ignoreError (m : C Unit) : C Unit := fun s =>
  match m s with
  | .error (.error _) s => .ok () s
  | r => r

def dropDb : C Unit := do
  ignoreError flush
  if (← get).sys.db.options.useWal then ignoreError (onSys walSync)
  ignoreError (onSys flushBuf)

end Cached

def Call.runCached : Call → C Unit
  | .put key value => onSys (AiDb.put key value)
  | .delete key => onSys (AiDb.delete key)
  | .write batch => onSys (AiDb.write batch)
  | .flushTables => onSys AiDb.flushTables
  | .maybeTriggerCompaction => Cached.maybeTriggerCompaction
  | .flush => Cached.flush
  | .close => Cached.close

-- ---------------------------------------------------------------------------
-- Sessions
-- ---------------------------------------------------------------------------

namespace Cached

/-- `getAtSequence` is `DB::get`, the `get` of a snapshot, or the value of an iterator. -/
inductive Action
  | openDb (options : Options) (blockCacheSize : Nat)
  | call (c : Call)
  | getAtSequence (key : Bytes) (maxSeq : Nat)
  | clearCache
  | drop
  | crash

/-- The directory, and the handle with its cache while a process has the database
open. -/
structure State where
  session : Option (DB × Option SharedCache)
  world : World

def State.after (r : EStateM.Result Exit CSys α) : Except Exit Unit × State :=
  match r with
  | .ok _ s => (.ok (), ⟨some (s.sys.db, s.blockCache), s.sys.world⟩)
  | .error (.error e) s => (.error (.error e), ⟨some (s.sys.db, s.blockCache), s.sys.world⟩)
  | .error e s => (.error e, ⟨none, s.sys.world⟩)

def State.exec (st : State) (env : Env) (a : Action) : Except Exit Unit × State :=
  let w := st.world.enter env
  match a, st.session with
  | .openDb options blockCacheSize, none =>
    match AiDb.openDb options w with
    | .ok db w => (.ok (), ⟨some (db, some (.new blockCacheSize)), w⟩)
    | .error e w => (.error e, ⟨none, w⟩)
  | .call c, some (db, cache) => State.after (c.runCached ⟨⟨db, w⟩, cache⟩)
  | .getAtSequence key maxSeq, some (db, cache) => State.after (Cached.getAtSequence key maxSeq ⟨⟨db, w⟩, cache⟩)
  | .clearCache, some (db, cache) => State.after (Cached.clearCache ⟨⟨db, w⟩, cache⟩)
  | .drop, some (db, cache) =>
    match Cached.dropDb ⟨⟨db, w⟩, cache⟩ with
    | .ok () s => (.ok (), ⟨none, s.sys.world⟩)
    | .error e s => (.error e, ⟨none, s.sys.world⟩)
  | .crash, some _ => (.ok (), ⟨none, w⟩)
  | _, _ => (.ok (), st)

def State.runs (st : State) : List (Env × Action) → State
  | [] => st
  | (env, a) :: rest => (st.exec env a).2.runs rest

def State.init (len : CompressedLen) : State := ⟨none, World.empty len⟩

def State.Along (P : State → Env → Action → Prop) : State → List (Env × Action) → Prop
  | _, [] => True
  | st, (env, a) :: rest => P st env a ∧ State.Along P (st.exec env a).2 rest

end Cached

-- ---------------------------------------------------------------------------
-- Without a cache
-- ---------------------------------------------------------------------------

variable {d : Disk} {r : SSTableReader} {f : SstFile} {w : World}

def SstFile.Fits (f : SstFile) : Prop :=
  ∀ b ∈ f.blocks, (Sstable.blockData 16 b.entries).length < 2 ^ 32 ∧ ∀ e ∈ b.entries, Sstable.Fits e

/-- A lookup without a cache finds in the bytes of a block what it finds in the
entries. -/
theorem SSTableReader.getCached_none (hs : w.disk.Serves r f) (hfit : f.Fits) (hread : f.ReadBy (w.readBlock r.file))
    (key : Bytes) :
    r.getCached w key none = ((r.get (w.readBlock r.file) key).map (·.map Value.bytes), none) := by
  have hindex : r.indexBlock = indexOf f.blocks := by
    rw [hs.of]
    exact hs.wellFormed.index_eq
  unfold SSTableReader.getCached SSTableReader.get
  split
  · by_cases hb : f.blocks = []
    · simp [hindex, hb, indexOf, findBlock, Except.map]
    · obtain ⟨b, hmem, hfind, -⟩ := findBlock_spec key hs.wellFormed.nonempty hs.wellFormed.ascending hb
      have hblock := hread b hmem
      have hnew := Sstable.new_blockData (hfit b hmem).1
      have hvisited : (Sstable.blockOf 16 b.entries).iter.seekToFirst.visited = b.entries.map Sstable.pairOf :=
        Sstable.BlockIterator.visited_seekToFirst (hfit b hmem).2
      rw [hindex, hfind]
      simp only [readBlockCached, World.readData, hblock, Except.map, Except.bind, searchBlock, hnew, bind, pure,
        Except.pure, hvisited, Sstable.scan_map]
  · rfl

end AiDb
