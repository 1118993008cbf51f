import AiDb.Table.SharedCursor
import AiDb.Sstable.Bloom
import AiDb.Sstable.Index

/-!
# The bytes of a table file

The builder writes the data blocks one after the other, each with a trailer, then
the meta block, the meta index block, the index block and the footer. The reader
goes back from the footer to the index, and takes the end of the last data block
for the place of the Bloom filter, which nothing points to. What the `snap` crate
computes is a parameter.
-/

namespace AiDb

open Library (Outcome)

def CompressionType.toU8 : CompressionType → UInt8
  | .none => 0
  | .snappy => 1
  | .lz4 => 2

namespace Sstable

/-- The raw encoder and decoder of the `snap` crate, an error by its message. -/
structure Snap where
  compress : Bytes → Except String Bytes
  decompress : Decompress

def compressBlock (snap : Snap) (compression : CompressionType) (data : Bytes) : Except Error Bytes :=
  match compression with
  | .snappy =>
    match snap.compress data with
    | .ok compressed => .ok compressed
    | .error e => .error (.internal ("Compression failed: " ++ e))
  | _ => .ok data

/-- A block as it is written: the data, a byte for the compression, the checksum. -/
def withTrailer (compression : CompressionType) (data : Bytes) : Bytes :=
  data ++ [compression.toU8] ++ leBytes 4 (Wal.crc32 data).toNat

-- ---------------------------------------------------------------------------
-- The table builder
-- ---------------------------------------------------------------------------

/-- `SSTableBuilder`. `written` is what its writer was given. -/
structure SSTableBuilder where
  written : Bytes
  dataBlockBuilder : BlockBuilder
  indexBlockBuilder : IndexBlockBuilder
  lastKey : Bytes
  dataBlockOffset : Nat
  numEntries : Nat
  blockSize : Nat
  compression : CompressionType
  pendingHandle : Option BlockHandle
  bloomFilter : Option BloomFilter
  enableBloomFilter : Bool

namespace SSTableBuilder

def new : SSTableBuilder :=
  ⟨[], .new 16, .new, [], 0, 0, 4096, .none, none, none, true⟩

def setBlockSize (b : SSTableBuilder) (size : Nat) : SSTableBuilder := { b with blockSize := size }

def setCompression (b : SSTableBuilder) (compression : CompressionType) : SSTableBuilder :=
  { b with compression }

def setBloomFilterEnabled (b : SSTableBuilder) (enabled : Bool) : SSTableBuilder :=
  { b with enableBloomFilter := enabled }

def takePending (b : SSTableBuilder) : SSTableBuilder :=
  match b.pendingHandle with
  | some handle =>
    { b with
      indexBlockBuilder := b.indexBlockBuilder.addEntry b.lastKey handle
      pendingHandle := none }
  | none => b

def push (b : SSTableBuilder) (key value : Bytes) : SSTableBuilder :=
  { b with
    dataBlockBuilder := b.dataBlockBuilder.add key value
    lastKey := key
    numEntries := b.numEntries + 1 }

def addToFilter (b : SSTableBuilder) (key : Bytes) : SSTableBuilder :=
  if b.enableBloomFilter then
    { b with bloomFilter := some ((b.bloomFilter.getD .default).add key) }
  else b

/-- The assertions of the block builders hold, where an index entry is added for the
pending handle, and where an entry is added. -/
def AssertsPending (b : SSTableBuilder) : Prop :=
  b.pendingHandle ≠ none → b.indexBlockBuilder.builder.Takes b.lastKey

def AssertsAdd (b : SSTableBuilder) (key : Bytes) : Prop :=
  b.AssertsPending ∧ b.takePending.dataBlockBuilder.Takes key

section Snap

variable (snap : Snap)

/-- `flush_data_block`. The block is given up even when it cannot be compressed. -/
def flushDataBlock (b : SSTableBuilder) : Except Error Unit × SSTableBuilder :=
  if b.dataBlockBuilder.isEmpty then (.ok (), b)
  else
    let blockData := b.dataBlockBuilder.finish
    let b := { b with dataBlockBuilder := .new 16 }
    match compressBlock snap b.compression blockData with
    | .error e => (.error e, b)
    | .ok compressed =>
      (.ok (), { b with
        written := b.written ++ withTrailer b.compression compressed
        dataBlockOffset := b.dataBlockOffset + (compressed.length + 5)
        pendingHandle := some ⟨b.dataBlockOffset, compressed.length + 5⟩ })

def add (b : SSTableBuilder) (key value : Bytes) : Except Error Unit × SSTableBuilder :=
  if key = [] then (.error (.invalidArgument "Key cannot be empty"), b)
  else if b.lastKey ≠ [] ∧ key ≤ b.lastKey then
    (.error (.invalidArgument "Keys must be added in sorted order"), b)
  else
    let b := (b.takePending.push key value).addToFilter key
    if b.dataBlockBuilder.currentSize ≥ b.blockSize then b.flushDataBlock snap else (.ok (), b)

def metaBlockData (b : SSTableBuilder) : Bytes :=
  match b.bloomFilter with
  | some filter => filter.encode
  | none => List.replicate 8 0

def metaIndexData : Bytes := List.replicate 8 0

def footer (b : SSTableBuilder) : Footer :=
  let metaBlockSize := b.metaBlockData.length + 5
  let metaIndexOffset := b.dataBlockOffset + metaBlockSize
  let metaIndexSize := metaIndexData.length + 5
  let indexOffset := b.dataBlockOffset + metaBlockSize + metaIndexSize
  let indexSize := b.indexBlockBuilder.finish.length + 5
  ⟨⟨metaIndexOffset, metaIndexSize⟩, ⟨indexOffset, indexSize⟩⟩

/-- What `finish` writes behind the data blocks: the size of the whole file, and the
file. -/
def writeTail (b : SSTableBuilder) : Nat × Bytes :=
  (b.footer.indexHandle.offset + b.footer.indexHandle.size + 48,
    b.written ++ withTrailer .none b.metaBlockData ++ withTrailer .none metaIndexData ++
      withTrailer .none b.indexBlockBuilder.finish ++ b.footer.encode)

def finish (b : SSTableBuilder) : Except Error (Nat × Bytes) :=
  match b.flushDataBlock snap with
  | (.error e, _) => .error e
  | (.ok (), b) => .ok b.takePending.writeTail

def addAll (b : SSTableBuilder) : List (Bytes × Bytes) → List (Except Error Unit) × SSTableBuilder
  | [] => ([], b)
  | (key, value) :: rest =>
    let (result, b) := b.add snap key value
    let (results, b) := b.addAll rest
    (result :: results, b)

end Snap

end SSTableBuilder

-- ---------------------------------------------------------------------------
-- The reader
-- ---------------------------------------------------------------------------

/-- `SSTableReader`, opened without a cache. `file` are the bytes of its file. -/
structure SSTableReader where
  file : Bytes
  fileNumber : Nat
  indexBlock : IndexBlock
  bloomFilter : Option BloomFilter
  footer : Footer
  fileSize : Nat

def lastDataBlockEnd (entries : List (Except Error (Bytes × BlockHandle))) : Nat :=
  entries.foldl (fun last entry =>
    match entry with
    | .ok (_, handle) => handle.offset + handle.size
    | .error _ => last) 0

def scan (key : Bytes) : List (Bytes × Bytes) → Option Bytes
  | [] => none
  | (k, value) :: rest =>
    if k = key then if value = [] then none else some value
    else if key < k then none
    else scan key rest

namespace SSTableReader

variable (snap : Snap)

def tryReadBloomFilter (file : Bytes) (footer : Footer) : Except Error (Option BloomFilter) := do
  let index ← IndexBlock.new (← blockAt snap.decompress file footer.indexHandle)
  let metaBlockOffset := lastDataBlockEnd index.iterEntries
  if metaBlockOffset = 0 then return none
  let metaBlockSize := footer.metaIndexHandle.offset - metaBlockOffset
  if ¬(5 ≤ metaBlockSize ∧ metaBlockSize ≤ 100000000) then return none
  let metaData ← blockAt snap.decompress file ⟨metaBlockOffset, metaBlockSize⟩
  if metaData.length > 12 then
    match BloomFilter.decode metaData with
    | .ok filter => return some filter
    | .error _ => return none
  else return none

def openFile (fileNumber : Nat) (file : Bytes) : Except Error SSTableReader := do
  if file.length < 48 then throw (.corruption "File too small to be a valid SSTable")
  let footer ← Footer.decode (file.drop (file.length - 48))
  let indexBlock ← IndexBlock.new (← blockAt snap.decompress file footer.indexHandle)
  let bloomFilter :=
    if footer.metaIndexHandle.size > 5 then
      match tryReadBloomFilter snap file footer with
      | .ok filter => filter
      | .error _ => none
    else none
  return ⟨file, fileNumber, indexBlock, bloomFilter, footer, file.length⟩

def get (r : SSTableReader) (key : Bytes) : Outcome Error (Option Bytes) :=
  if r.bloomFilter.any fun filter => !filter.mayContain key then .ok none
  else do
    match ← r.indexBlock.findBlock key with
    | none => return none
    | some handle => .lift do
      let block ← Block.new (← blockAt snap.decompress r.file handle)
      return scan key block.iter.seekToFirst.visited

def smallestKey (r : SSTableReader) : Except Error (Option Bytes) :=
  match r.indexBlock.iterEntries with
  | [] => .ok none
  | entry :: _ => do
    let (_, handle) ← entry
    let block ← Block.new (← blockAt snap.decompress r.file handle)
    return block.iter.seekToFirst.visited.head?.map Prod.fst

def largestKey (r : SSTableReader) : Except Error (Option Bytes) := do
  let entries ← r.indexBlock.iterEntries.mapM id
  return entries.getLast?.map Prod.fst

end SSTableReader

-- ---------------------------------------------------------------------------
-- The iterator of a table
-- ---------------------------------------------------------------------------

structure SSTableIterator where
  file : Bytes
  indexIterEntries : Index
  currentBlockIndex : Nat
  currentBlockIter : Option BlockIterator

namespace SSTableIterator

def new (r : SSTableReader) : SSTableIterator :=
  ⟨r.file, r.indexBlock.iterEntries.filterMap Except.toOption, 0, none⟩

variable (snap : Snap)

def loadCurrentBlock (it : SSTableIterator) : Except Error SSTableIterator :=
  match it.indexIterEntries[it.currentBlockIndex]? with
  | none => .ok { it with currentBlockIter := none }
  | some (_, handle) => do
    let block ← Block.new (← blockAt snap.decompress it.file handle)
    return { it with currentBlockIter := some block.iter.seekToFirst }

def seekToFirst (it : SSTableIterator) : Except Error SSTableIterator :=
  { it with currentBlockIndex := 0 }.loadCurrentBlock snap

/-- The step into the next block that `advance` takes at the end of one. -/
def nextBlock (it : SSTableIterator) : Except Error (Bool × SSTableIterator) := do
  let it ← { it with currentBlockIndex := it.currentBlockIndex + 1 }.loadCurrentBlock snap
  match it.currentBlockIter with
  | some iter => return (iter.advance.1, { it with currentBlockIter := some iter.advance.2 })
  | none => return (false, it)

def advance (it : SSTableIterator) : Except Error (Bool × SSTableIterator) :=
  match it.currentBlockIter with
  | some iter =>
    if iter.advance.1 then .ok (true, { it with currentBlockIter := some iter.advance.2 })
    else { it with currentBlockIter := some iter.advance.2 }.nextBlock snap
  | none => it.nextBlock snap

def entry (it : SSTableIterator) : Option (Bytes × Bytes) :=
  it.currentBlockIter.map fun iter => (iter.key, iter.value)

/-- A loop `while iter.advance()?` comes by these entries, and ends. -/
inductive Yields : SSTableIterator → List (Bytes × Bytes) → Prop
  | stop (h : it.advance snap = .ok (false, it')) : Yields it []
  | next (h : it.advance snap = .ok (true, it')) (he : it'.entry = some e) (rest : Yields it' es) :
    Yields it (e :: es)

end SSTableIterator

end Sstable

end AiDb
