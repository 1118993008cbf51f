import AiDb.Compaction.Picker
import AiDb.World

/-!
# The database

The methods of `DB` as programs over the handle and the directory. A method
that returns early leaves behind what it did until then.
-/

namespace AiDb

open Compaction

structure Options where
  createIfMissing : Bool
  errorIfExists : Bool
  memtableSize : Nat
  level0CompactionThreshold : Nat
  levelSizeMultiplier : Nat
  baseLevelSize : Nat
  maxLevels : Nat
  blockSize : Nat
  compression : CompressionType
  useWal : Bool
  syncWal : Bool

/-- `Options::validate`, but for the floating-point false positive rate, which
nothing else reads. -/
def Options.validate (o : Options) : Except Error Unit :=
  if o.memtableSize = 0 then .error (.invalidArgument "memtable_size must be > 0")
  else if o.blockSize = 0 then .error (.invalidArgument "block_size must be > 0")
  else if o.maxLevels = 0 then .error (.invalidArgument "max_levels must be > 0")
  else if o.level0CompactionThreshold = 0 then
    .error (.invalidArgument "level0_compaction_threshold must be > 0")
  else if o.levelSizeMultiplier = 0 then
    .error (.invalidArgument "level_size_multiplier must be > 0")
  else if o.baseLevelSize = 0 then .error (.invalidArgument "base_level_size must be > 0")
  else .ok ()

def Options.default : Options where
  createIfMissing := true
  errorIfExists := false
  memtableSize := 4 * 1024 * 1024
  level0CompactionThreshold := 4
  levelSizeMultiplier := 10
  baseLevelSize := 10 * 1024 * 1024
  maxLevels := 7
  blockSize := 4 * 1024
  compression := .snappy
  useWal := true
  syncWal := true

example : Options.default.validate = .ok () := rfl

/-- `WALWriter`: the file it appends to and the bytes its `BufWriter` holds. -/
structure WalWriter where
  number : Nat
  buffer : Bytes

structure DB where
  options : Options
  memtable : MemTable
  immutableMemtables : List MemTable
  wal : WalWriter
  sstables : Levels
  sequence : Nat
  nextFileNumber : Nat
  walFileNumber : Nat
  versionSet : VersionSet

structure Sys where
  db : DB
  world : World

abbrev M := EStateM Exit Sys

def onWorld (m : W α) : M α := fun s =>
  match m s.world with
  | .ok a w => .ok a { s with world := w }
  | .error e w => .error e { s with world := w }

def modifyDb (f : DB → DB) : M Unit := modify fun s => { s with db := f s.db }

-- ---------------------------------------------------------------------------
-- Reading
-- ---------------------------------------------------------------------------

def firstAnswer (ask : α → Except Error (Option β)) : List α → Except Error (Option β)
  | [] => .ok none
  | a :: as => do
    match ← ask a with
    | some b => return some b
    | none => firstAnswer ask as

/-- `DB::get_at_sequence` of a handle without a block cache: the active memtable, the
immutable ones from the newest, then every level with its tables from the end of the
list. `Cached.getAtSequence` goes through the cache. -/
def DB.getAtSequence (db : DB) (w : World) (key : Bytes) (maxSeq : Nat) :
    Except Error (Option Bytes) :=
  match (db.memtable :: db.immutableMemtables.reverse).findSome? (·.get key maxSeq) with
  | some v => .ok (some v.bytes)
  | none => do
    let v ← firstAnswer (fun r => r.get (w.readBlock r.file) key)
      (db.sstables.flatMap List.reverse)
    return v.map Value.bytes

/-- `DB::get`, again without a block cache. -/
def DB.get (db : DB) (w : World) (key : Bytes) : Except Error (Option Bytes) :=
  db.getAtSequence w key db.sequence

def Sys.get (s : Sys) (key : Bytes) : Except Error (Option Bytes) := s.db.get s.world key

-- ---------------------------------------------------------------------------
-- The write-ahead log
-- ---------------------------------------------------------------------------

def bufCapacity : Nat := 8 * 1024

def LogFile.append (f : LogFile) (bytes : Bytes) : LogFile := { f with bytes := f.bytes ++ bytes }

def Disk.modifyLog (n : Nat) (f : LogFile → LogFile) (d : Disk) : Disk :=
  { d with logs := d.logs.insert n (f ((d.logs.lookup n).getD ⟨[], []⟩)) }

/-- A file operation that also changes the handle. -/
def sysOp (done : Sys → Sys) (cut : Nat → Sys → Sys) : M Unit := do
  match ← onWorld nextFault with
  | .none => modify done
  | .fail n =>
    modify (cut n)
    throw (.error (.io .other))
  | .crash n =>
    modify (cut n)
    throw .crash

def Sys.appendLog (bytes : Bytes) (s : Sys) : Sys :=
  { s with world := onDisk (Disk.modifyLog s.db.wal.number (·.append bytes)) s.world }

/-- The history of the current log: a write with this stamp was appended. -/
def Sys.markLog (stamp : Nat) (s : Sys) : Sys :=
  { s with world := onDisk (Disk.modifyLog s.db.wal.number
      fun f => { f with stamps := f.stamps ++ [stamp] }) s.world }

def Sys.unmarkLog (s : Sys) : Sys :=
  { s with world := onDisk (Disk.modifyLog s.db.wal.number
      fun f => { f with stamps := f.stamps.dropLast }) s.world }

/-- The bytes given to the current log, in the file or still in the buffer. -/
def Sys.logged (s : Sys) : Nat :=
  ((s.world.disk.logs.lookup s.db.wal.number).getD ⟨[], []⟩).bytes.length + s.db.wal.buffer.length

def Sys.setBuffer (buffer : Bytes) (s : Sys) : Sys :=
  { s with db := { s.db with wal := { s.db.wal with buffer := buffer } } }

/-- One write to the current log; a write that is cut off leaves a prefix. -/
def writeLog (bytes : Bytes) : M Unit :=
  sysOp (Sys.appendLog bytes) fun k => Sys.appendLog (bytes.take k)

/-- `BufWriter::flush_buf`. What was written leaves the buffer, also when the
write is cut off. -/
def flushBuf : M Unit := do
  let buffer := (← get).db.wal.buffer
  if buffer ≠ [] then
    sysOp (fun s => (s.appendLog buffer).setBuffer [])
      fun k s => (s.appendLog (buffer.take k)).setBuffer (buffer.drop k)

def writeAll (bytes : Bytes) : M Unit := do
  let spare := bufCapacity - (← get).db.wal.buffer.length
  let push := modify fun s : Sys => s.setBuffer (s.db.wal.buffer ++ bytes)
  if bytes.length < spare then push
  else
    if bytes.length > spare then flushBuf
    if bytes.length ≥ bufCapacity then writeLog bytes else push

def writeRecords : List Wal.Record → M Unit
  | [] => return ()
  | r :: rs => do
    writeAll (r.encode Wal.calculateChecksum)
    writeRecords rs

/-- `WAL::append` of the entry of one write. An append that fails before its
first byte leaves no mark in the history. -/
def walAppend (entry : Bytes) (stamp : Nat) : M Unit := fun s =>
  match writeRecords (Wal.appendRecords entry) (s.markLog stamp) with
  | .ok () s' => .ok () s'
  | .error e s' => .error e (if s'.logged = s.logged then s'.unmarkLog else s')

def walSync : M Unit := do
  flushBuf
  onWorld passiveOp

/-- `"put:" key_len ":" key ":" value` -/
def encodePut (key value : Bytes) : Bytes :=
  [112, 117, 116, 58] ++ leBytes 4 key.length ++ [58] ++ key ++ [58] ++ value

/-- `"del:" key_len ":" key` -/
def encodeDel (key : Bytes) : Bytes := [100, 101, 108, 58] ++ leBytes 4 key.length ++ [58] ++ key

inductive WriteOp
  | put (key value : Bytes)
  | delete (key : Bytes)
  deriving DecidableEq, Repr

def WriteOp.key : WriteOp → Bytes
  | .put key _ => key
  | .delete key => key

def WriteOp.encode : WriteOp → Bytes
  | .put key value => encodePut key value
  | .delete key => encodeDel key

def WriteOp.apply (m : MemTable) (op : WriteOp) (stamp sequence : Nat) : MemTable :=
  match op with
  | .put key value => m.put key ⟨value, stamp⟩ sequence
  | .delete key => m.delete key stamp sequence

-- ---------------------------------------------------------------------------
-- Writing
-- ---------------------------------------------------------------------------

def fetchAddSequence (n : Nat) : M Nat := do
  let seq := (← get).db.sequence
  modifyDb fun db => { db with sequence := seq + n }
  return seq + 1

def takeStamps (n : Nat) : M Nat := do
  let stamp := (← get).world.writes
  modify fun s => { s with world := { s.world with writes := stamp + n } }
  return stamp

def freezeMemtable : M Unit := modifyDb fun db =>
  { db with
    memtable := MemTable.new (db.sequence + 1)
    immutableMemtables := db.immutableMemtables ++ [db.memtable] }

def freezeIfFull : M Unit := do
  let db := (← get).db
  if db.memtable.approximateSize ≥ db.options.memtableSize then freezeMemtable

def logOps : (stamp : Nat) → List WriteOp → M Unit
  | _, [] => return ()
  | stamp, op :: ops => do
    walAppend op.encode stamp
    logOps (stamp + 1) ops

def logAndSync (stamp : Nat) (ops : List WriteOp) : M Unit := do
  let options := (← get).db.options
  if options.useWal then
    logOps stamp ops
    if options.syncWal then walSync

def applyOps (m : MemTable) : (stamp sequence : Nat) → List WriteOp → MemTable
  | _, _, [] => m
  | stamp, sequence, op :: ops => applyOps (op.apply m stamp sequence) (stamp + 1) (sequence + 1) ops

def insertOps (stamp sequence : Nat) (ops : List WriteOp) : M Unit :=
  modifyDb fun db => { db with memtable := applyOps db.memtable stamp sequence ops }

def put (key value : Bytes) : M Unit := do
  let seq ← fetchAddSequence 1
  let stamp ← takeStamps 1
  logAndSync stamp [.put key value]
  insertOps stamp seq [.put key value]
  freezeIfFull

/-- `DB::delete`, which does not look at the size of the memtable. -/
def delete (key : Bytes) : M Unit := do
  let seq ← fetchAddSequence 1
  let stamp ← takeStamps 1
  logAndSync stamp [.delete key]
  insertOps stamp seq [.delete key]

def write (batch : List WriteOp) : M Unit := do
  if batch = [] then return
  let baseSeq ← fetchAddSequence batch.length
  let stamp ← takeStamps batch.length
  logAndSync stamp batch
  insertOps stamp baseSeq batch
  freezeIfFull

-- ---------------------------------------------------------------------------
-- Flush and compaction
-- ---------------------------------------------------------------------------

/-- `next_file_number.fetch_add(1)` -/
def takeFileNumber : M Nat := do
  let s ← get
  let n := s.db.nextFileNumber
  set { s with
    db := { s.db with nextFileNumber := n + 1 }
    world := { s.world with handed := (n, decide (n ∈ s.world.disk.ssts)) :: s.world.handed } : Sys }
  return n

/-- The loop of `flush_memtable_to_sstable`: the newest version of each user
key, tombstones included. -/
def latestVersions : (lastUserKey : Option Bytes) → List (InternalKey × Value) → List Entry
  | _, [] => []
  | last, e :: es =>
    if last = some e.1.userKey then latestVersions last es
    else ⟨e.1.userKey, e.2⟩ :: latestVersions (some e.1.userKey) es

/-- `sstables[level].insert(0, reader)` -/
def installFront (r : SSTableReader) : M Unit :=
  modifyDb fun db => { db with sstables := db.sstables.modify 0 (r :: ·) }

def flushMemtableToSstable (m : MemTable) : M Nat := do
  let fileNumber ← takeFileNumber
  let options := (← get).db.options
  let entries := latestVersions none m.iter
  onWorld (createSst fileNumber)
  onWorld (writeTable fileNumber options.blockSize options.compression entries)
  if entries = [] then return 0
  let reader ← onWorld (openWithCache fileNumber)
  installFront reader
  return fileNumber

/-- The loop of `DB::flush` over the immutable memtables, oldest first. Each is
taken off the list before it is written. -/
def flushImmutables : (rounds : Nat) → M Unit
  | 0 => return ()
  | rounds + 1 => do
    match (← get).db.immutableMemtables with
    | [] => return ()
    | m :: rest =>
      modifyDb fun db => { db with immutableMemtables := rest }
      let _ ← flushMemtableToSstable m
      flushImmutables rounds

/-- Steps 1 and 2 of `DB::flush`: freeze, then empty the immutable list. -/
def flushMemtables : M Unit := do
  if !(← get).db.memtable.isEmpty then freezeMemtable
  flushImmutables (← get).db.immutableMemtables.length

def ignoreError (m : M Unit) : M Unit := fun s =>
  match m s with
  | .error (.error _) s => .ok () s
  | r => r

/-- `WAL::open`: the file is created if it is missing. The creation and the query
for the length are one operation, so that no file is left when it fails. -/
def openLog (n : Nat) : W Unit :=
  atomicOp fun d => if n ∈ d.logs then d else { d with logs := d.logs.insert n ⟨[], []⟩ }

def removeLogIfExists (n : Nat) : W Unit := do
  if n ∈ (← get).disk.logs then atomicOp fun d => { d with logs := d.logs.erase n }

/-- `DB::rotate_wal`. Dropping the old writer flushes its buffer. -/
def rotateWal : M Unit := do
  let n := (← get).db.walFileNumber + 1
  modifyDb fun db => { db with walFileNumber := n }
  onWorld (openLog n)
  let old := (← get).db.wal.number
  ignoreError flushBuf
  modifyDb fun db => { db with wal := ⟨n, []⟩ }
  onWorld (removeLogIfExists old)

structure CompactionResult where
  fileNumber : Nat

def inputRead (w : World) (inputs : List SSTableReader) (i : Nat) : BlockRead :=
  match inputs[i]? with
  | some r => w.readBlock r.file
  | none => fun _ => .error (.io .other)

/-- `CompactionJob::run`. The first blocks of the inputs are read before the
output file is created, the others after it. -/
def runJob (inputs : List SSTableReader) (outputLevel blockSize fileNumber : Nat) :
    W CompactionResult := do
  let before ← get
  let iter ← liftExcept (MergeIterator.new (inputRead before inputs) inputs)
  createSst fileNumber
  let after ← get
  let merged := iter.collect (inputRead after inputs) (mergeFuel (inputRead before inputs) inputs)
  let entries := survivors outputLevel none merged
  writeTable fileNumber blockSize .none entries
  return ⟨if entries = [] then 0 else fileNumber⟩

/-- `VersionSet::log_edit`: apply the edit, then write its line. -/
def logEdit (e : VersionEdit) : M Unit := do
  match (← get).db.versionSet.applyEdit e with
  | none => throw .panic
  | some vs =>
    modifyDb fun db => { db with versionSet := vs }
    onWorld (writeManifest (.edit e))
    onWorld (writeManifest .newline)

def logDeletes (level : Nat) : List SSTableReader → M Unit
  | [] => return ()
  | r :: rs => do
    logEdit (.deleteFile level r.fileNumber)
    logDeletes level rs

def removeInputs : List SSTableReader → W Unit
  | [] => return ()
  | r :: rs => do
    removeSstIfExists r.fileNumber
    removeInputs rs

def updateLevels (task : CompactionTask) (reader : SSTableReader) (levels : Levels) : Levels :=
  let kept := levels.modify task.level
    (·.filter fun r => !task.inputs.any fun input => r.arc = input.arc)
  kept.modify task.outputLevel fun l => if task.outputLevel = 0 then reader :: l else l ++ [reader]

def compact (task : CompactionTask) : M Unit := do
  let fileNumber ← takeFileNumber
  let options := (← get).db.options
  let result ← onWorld (runJob task.inputs task.outputLevel options.blockSize fileNumber)
  if result.fileNumber = 0 then return
  let reader ← onWorld (openWithCache fileNumber)
  let smallest ← onWorld (liftExcept (reader.smallestKey ((← get).world.readBlock reader.file)))
  match smallest, reader.largestKey with
  | some smallestKey, some largestKey =>
    logEdit (.addFile task.outputLevel ⟨result.fileNumber, reader.fileSize, smallestKey, largestKey⟩)
    logDeletes task.level task.inputs
    if task.level < (← get).db.sstables.length ∧ task.outputLevel < (← get).db.sstables.length then
      modifyDb fun db => { db with sstables := updateLevels task reader db.sstables }
      onWorld (removeInputs task.inputs)
    else throw .panic
  | _, _ => throw (.error (.internal "New SSTable has no keys"))

def maybeTriggerCompaction : M Unit := do
  let db := (← get).db
  match pickCompaction db.options.maxLevels db.sstables with
  | none => throw .panic
  | some none => return ()
  | some (some task) => compact task

def flush : M Unit := do
  flushMemtables
  rotateWal
  maybeTriggerCompaction

def close : M Unit := do
  flush
  if (← get).db.options.useWal then walSync

/-- `Drop for DB`: flush and sync once more, errors ignored; then the log
writer is dropped, which flushes its buffer. -/
def dropDb : M Unit := do
  ignoreError flush
  if (← get).db.options.useWal then ignoreError walSync
  ignoreError flushBuf

-- ---------------------------------------------------------------------------
-- Opening
-- ---------------------------------------------------------------------------

/-- One entry of the log, as `DB::open` parses it; what it cannot parse is
skipped. -/
def parseEntry (entry : Bytes) : Option WriteOp :=
  if entry.take 4 = [112, 117, 116, 58] then
    let entry := entry.drop 4
    if entry.length < 4 then none
    else
      let keyLen := fromLe (entry.take 4)
      let entry := entry.drop 4
      if entry.head? ≠ some 58 then none
      else
        let entry := entry.drop 1
        if entry.length < keyLen + 1 then none
        else
          let key := entry.take keyLen
          let entry := entry.drop keyLen
          if entry.head? ≠ some 58 then none else some (.put key (entry.drop 1))
  else if entry.take 4 = [100, 101, 108, 58] then
    let entry := entry.drop 4
    if entry.length < 4 then none
    else
      let keyLen := fromLe (entry.take 4)
      let entry := entry.drop 4
      if entry.head? ≠ some 58 then none
      else
        let entry := entry.drop 1
        if entry.length < keyLen then none else some (.delete (entry.take keyLen))
  else none

/-- The replay loop: every entry takes a sequence number, also one that is
skipped. -/
def replay (m : MemTable) : (sequence : Nat) → List (Bytes × Nat) → MemTable
  | _, [] => m
  | sequence, (entry, stamp) :: rest =>
    match parseEntry entry with
    | some op => replay (op.apply m stamp (sequence + 1)) (sequence + 1) rest
    | none => replay m (sequence + 1) rest

def padDigits (n : Nat) : Bytes :=
  let digits := (Nat.toDigits 10 n).map fun c => UInt8.ofNat c.toNat
  List.replicate (6 - digits.length) 48 ++ digits

def sstFilename (n : Nat) : Bytes := padDigits n ++ [46, 115, 115, 116]

/-- `sst_files.sort()`: the table files by name. -/
def sortedSsts (d : Disk) : List Nat :=
  d.ssts.keys.insertionSort fun a b => sstFilename a ≤ sstFilename b

/-- Load the tables into level 0; one that does not open is skipped. -/
def loadSsts : List Nat → W (List SSTableReader)
  | [] => return []
  | n :: ns => do
    let first ← (fun w =>
      match openWithCache n w with
      | .ok r w => .ok [r] w
      | .error (.error _) w => .ok [] w
      | .error e w => .error e w : W (List SSTableReader))
    return first ++ (← loadSsts ns)

def latestWal (d : Disk) : Nat := d.logs.keys.foldl max 1

def openDir (options : Options) : W Unit := do
  if !(← get).disk.dirExists then
    if options.createIfMissing then atomicOp fun d => { d with dirExists := true }
    else throw (.error (.notFound "Database directory does not exist"))
  else if options.errorIfExists then
    throw (.error (.alreadyExists "Database already exists"))

def recoverLog (log : LogFile) : W (List Bytes) :=
  if log.bytes.length > 0 then do
    passiveOp
    liftExcept (Wal.recoverAll Wal.calculateChecksum log.bytes)
  else return []

/-- The recovered entries with the stamps of their writes; an entry beyond the
history counts as written now. -/
def LogFile.stamped (log : LogFile) (recovered : List Bytes) (writes : Nat) : List (Bytes × Nat) :=
  recovered.zip (log.stamps ++ List.replicate recovered.length writes)

/-- `DB::open`. Its two listings of the directory do not fail: the source would go on
with log 1, or without tables. -/
def openDb (options : Options) : W DB := do
  liftExcept options.validate
  openDir options
  let w ← get
  let walNumber := latestWal w.disk
  openLog walNumber
  let log := ((← get).disk.logs.lookup walNumber).getD ⟨[], []⟩
  let recovered ← recoverLog log
  let tables ← loadSsts (sortedSsts (← get).disk)
  let versionSet ← newVersionSet options.maxLevels
  return {
    options
    memtable := replay (MemTable.new 1) 0 (log.stamped recovered w.writes)
    immutableMemtables := []
    wal := ⟨walNumber, []⟩
    sstables := tables :: List.replicate (options.maxLevels - 1) []
    sequence := recovered.length
    nextFileNumber := 2
    walFileNumber := walNumber
    versionSet }

end AiDb
