import AiDb.Memtable

/-!
# Building a table

A table file is a sequence of data blocks, an index with the last key and the
place of each block, a Bloom filter and a footer. It is modelled by its decoded
contents; the sizes and offsets are those of the format, so that blocks are cut
where the source cuts them and a block handle means what it means there. What a
compressor makes of a block is a parameter, its length.
-/

namespace AiDb

structure Entry where
  key : Bytes
  value : Value
  deriving DecidableEq, Repr

structure BlockHandle where
  offset : Nat
  size : Nat
  deriving DecidableEq, Repr

def BlockHandle.encode (h : BlockHandle) : Bytes := leBytes 8 h.offset ++ leBytes 8 h.size

inductive CompressionType
  | none
  | snappy
  | lz4
  deriving DecidableEq, Repr

abbrev CompressedLen := CompressionType → List Entry → Nat

-- ---------------------------------------------------------------------------
-- Blocks
-- ---------------------------------------------------------------------------

def sharedPrefixLen : Bytes → Bytes → Nat
  | a :: as, b :: bs => if a = b then sharedPrefixLen as bs + 1 else 0
  | _, _ => 0

/-- `BlockBuilder`, with the length of its buffer in place of the bytes. -/
structure BlockBuilder where
  entries : List Entry
  bufferLen : Nat
  restarts : Nat
  counter : Nat
  lastKey : Bytes
  blockRestartInterval : Nat

namespace BlockBuilder

def new (interval : Nat) : BlockBuilder := ⟨[], 0, 1, 0, [], interval⟩

def add (b : BlockBuilder) (e : Entry) : BlockBuilder :=
  let restart := b.counter ≥ b.blockRestartInterval
  let shared :=
    if restart then 0
    else if b.lastKey ≠ [] then sharedPrefixLen b.lastKey e.key
    else 0
  let unshared := e.key.length - shared
  { b with
    entries := b.entries ++ [e]
    bufferLen := b.bufferLen + (12 + unshared + e.value.bytes.length)
    restarts := if restart then b.restarts + 1 else b.restarts
    counter := (if restart then 0 else b.counter) + 1
    lastKey := e.key }

def currentSize (b : BlockBuilder) : Nat := b.bufferLen + b.restarts * 4 + 4

def isEmpty (b : BlockBuilder) : Bool := b.entries.isEmpty

end BlockBuilder

structure Block where
  handle : BlockHandle
  entries : List Entry
  deriving DecidableEq

abbrev Index := List (Bytes × BlockHandle)

/-- The length of the index block: one restart for each entry. -/
def indexBlockLen (index : Index) : Nat :=
  (index.foldl (fun b e => b.add ⟨e.1, ⟨e.2.encode, 0⟩⟩) (BlockBuilder.new 1)).currentSize

structure SstFile where
  blocks : List Block
  index : Index
  size : Nat
  deriving DecidableEq

def SstFile.entries (f : SstFile) : List Entry := f.blocks.flatMap Block.entries

-- ---------------------------------------------------------------------------
-- The table builder
-- ---------------------------------------------------------------------------

/-- `SSTableBuilder`. `blocks` are the data blocks written so far. -/
structure SSTableBuilder where
  dataBlockBuilder : BlockBuilder
  index : Index
  blocks : List Block
  lastKey : Bytes
  dataBlockOffset : Nat
  numEntries : Nat
  blockSize : Nat
  compression : CompressionType
  pendingHandle : Option BlockHandle

namespace SSTableBuilder

def new (blockSize : Nat) (compression : CompressionType) : SSTableBuilder :=
  ⟨BlockBuilder.new 16, [], [], [], 0, 0, blockSize, compression, none⟩

def takePending (b : SSTableBuilder) : SSTableBuilder :=
  match b.pendingHandle with
  | some handle => { b with index := b.index ++ [(b.lastKey, handle)], pendingHandle := none }
  | none => b

variable (len : CompressedLen)

def flushDataBlock (b : SSTableBuilder) : SSTableBuilder :=
  if b.dataBlockBuilder.isEmpty then b
  else
    let entries := b.dataBlockBuilder.entries
    let blockSize :=
      match b.compression with
      | .none => b.dataBlockBuilder.currentSize
      | c => len c entries
    let handle := ⟨b.dataBlockOffset, blockSize + 5⟩
    { b with
      dataBlockBuilder := BlockBuilder.new 16
      blocks := b.blocks ++ [⟨handle, entries⟩]
      dataBlockOffset := b.dataBlockOffset + (blockSize + 5)
      pendingHandle := some handle }

def add (b : SSTableBuilder) (e : Entry) : Except Error SSTableBuilder :=
  if e.key = [] then .error (.invalidArgument "Key cannot be empty")
  else if b.lastKey ≠ [] ∧ e.key ≤ b.lastKey then
    .error (.invalidArgument "Keys must be added in sorted order")
  else
    let b := b.takePending
    let b := { b with
      dataBlockBuilder := b.dataBlockBuilder.add e
      lastKey := e.key
      numEntries := b.numEntries + 1 }
    if b.dataBlockBuilder.currentSize ≥ b.blockSize then .ok (b.flushDataBlock len) else .ok b

/-- `SSTableBuilder::finish`: the file it leaves. The Bloom filter of a table
that has entries takes 12 bytes of header and one byte for eight bits; the meta
index block is eight zero bytes; every block has a trailer of five bytes. -/
def finish (b : SSTableBuilder) : SstFile :=
  let b := (b.flushDataBlock len).takePending
  let metaBlockSize := (if b.numEntries = 0 then 8 else 12 + 12500) + 5
  let metaIndexSize := 8 + 5
  let indexOffset := b.dataBlockOffset + metaBlockSize + metaIndexSize
  let indexSize := indexBlockLen b.index + 5
  ⟨b.blocks, b.index, indexOffset + indexSize + 48⟩

end SSTableBuilder

end AiDb
