import AiDb.Table.Builder
import AiDb.Filter

/-!
# Reading a table

A reader keeps the index and the Bloom filter in memory and reads data blocks
from the file when it needs them. A block read is a parameter of the functions
here: it gives the entries of the block at a handle, or fails.
-/

namespace AiDb

/-- `SSTableReader`. `arc` stands for the allocation the reader lives in, which
`Arc::ptr_eq` compares; `file` is the file it has open, whatever the directory
says of it later; `keys` are the keys in the Bloom filter. -/
structure SSTableReader where
  arc : Nat
  fileNumber : Nat
  file : Nat
  indexBlock : Index
  keys : List Bytes
  fileSize : Nat
  deriving DecidableEq

abbrev BlockRead := BlockHandle → Except Error (List Entry)

/-- `IndexBlock::find_block`: the block of the first index key that is not
below `key`, or the last block. -/
def findBlock (index : Index) (key : Bytes) : Option BlockHandle :=
  match index.find? fun e => key ≤ e.1 with
  | some e => some e.2
  | none => index.getLast?.map Prod.snd

/-- The search of `SSTableReader::get` inside one block. An empty value is a
tombstone. -/
def scanBlock (key : Bytes) : List Entry → Option Value
  | [] => none
  | e :: es =>
    if e.key = key then if e.value.bytes = [] then none else some e.value
    else if key < e.key then none
    else scanBlock key es

def SSTableReader.get (r : SSTableReader) (read : BlockRead) (key : Bytes) :
    Except Error (Option Value) :=
  if Filter.mayContain r.keys key then
    match findBlock r.indexBlock key with
    | none => .ok none
    | some handle => do return scanBlock key (← read handle)
  else .ok none

def SSTableReader.smallestKey (r : SSTableReader) (read : BlockRead) : Except Error (Option Bytes) :=
  match r.indexBlock with
  | [] => .ok none
  | (_, handle) :: _ => do return (← read handle).head?.map Entry.key

/-- `SSTableReader::largest_key`, the last key of the index. -/
def SSTableReader.largestKey (r : SSTableReader) : Option Bytes := r.indexBlock.getLast?.map Prod.fst

-- ---------------------------------------------------------------------------
-- Iterators
-- ---------------------------------------------------------------------------

/-- `BlockIterator`: the entries not parsed yet and the current one. -/
structure BlockIterator where
  rest : List Entry
  current : Option Entry
  valid : Bool

def BlockIterator.seekToFirst (entries : List Entry) : BlockIterator :=
  ⟨entries, none, !entries.isEmpty⟩

def BlockIterator.advance (it : BlockIterator) : Bool × BlockIterator :=
  if it.valid then
    match it.rest with
    | [] => (false, { it with valid := false })
    | e :: es => (true, ⟨es, some e, true⟩)
  else (false, it)

structure SSTableIterator where
  indexIterEntries : Index
  currentBlockIndex : Nat
  currentBlockIter : Option BlockIterator

namespace SSTableIterator

def new (r : SSTableReader) : SSTableIterator := ⟨r.indexBlock, 0, none⟩

def loadCurrentBlock (it : SSTableIterator) (read : BlockRead) : Except Error SSTableIterator :=
  match it.indexIterEntries[it.currentBlockIndex]? with
  | none => .ok { it with currentBlockIter := none }
  | some (_, handle) => do
    let entries ← read handle
    return { it with currentBlockIter := some (.seekToFirst entries) }

def seekToFirst (it : SSTableIterator) (read : BlockRead) : Except Error SSTableIterator :=
  { it with currentBlockIndex := 0 }.loadCurrentBlock read

/-- The step into the next block that `advance` takes at the end of one. -/
def nextBlock (it : SSTableIterator) (read : BlockRead) : Except Error (Bool × SSTableIterator) := do
  let it ← { it with currentBlockIndex := it.currentBlockIndex + 1 }.loadCurrentBlock read
  match it.currentBlockIter with
  | some b => return (b.advance.1, { it with currentBlockIter := some b.advance.2 })
  | none => return (false, it)

def advance (it : SSTableIterator) (read : BlockRead) : Except Error (Bool × SSTableIterator) :=
  match it.currentBlockIter with
  | some b =>
    if b.advance.1 then .ok (true, { it with currentBlockIter := some b.advance.2 })
    else { it with currentBlockIter := some b.advance.2 }.nextBlock read
  | none => it.nextBlock read

def valid (it : SSTableIterator) : Bool :=
  match it.currentBlockIter with
  | some b => b.valid
  | none => false

def entry (it : SSTableIterator) : Option Entry := it.currentBlockIter.bind BlockIterator.current

end SSTableIterator

end AiDb
