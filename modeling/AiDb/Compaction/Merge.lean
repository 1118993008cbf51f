import AiDb.Table.Reader

/-!
# Merging tables

`MergeIterator` holds one pending entry of each unfinished input in a heap and
hands out the smallest key first, and among equal keys the entry of the input
with the smallest index. `read` gives the block reads of each input by its
index.
-/

namespace AiDb.Compaction

structure MergeEntry where
  entry : Entry
  iteratorIndex : Nat
  deriving DecidableEq

/-- `MergeEntry::cmp`, turned around: the heap pops `a` before `b`. -/
def MergeEntry.before (a b : MergeEntry) : Prop :=
  a.entry.key < b.entry.key ∨ a.entry.key = b.entry.key ∧ a.iteratorIndex < b.iteratorIndex

instance (a b : MergeEntry) : Decidable (a.before b) := by unfold MergeEntry.before; infer_instance

def popHeap : List MergeEntry → Option (MergeEntry × List MergeEntry)
  | [] => none
  | e :: es =>
    match popHeap es with
    | none => some (e, [])
    | some (m, rest) => if m.before e then some (m, e :: rest) else some (e, es)

structure MergeIterator where
  heap : List MergeEntry
  iterators : List SSTableIterator

namespace MergeIterator

variable (read : Nat → BlockRead)

/-- The pending entry of an iterator that `advance` left on one. -/
def pending (index : Nat) (more : Bool) (it : SSTableIterator) : List MergeEntry :=
  if more && it.valid then
    match it.entry with
    | some e => [⟨e, index⟩]
    | none => []
  else []

/-- The loop of `MergeIterator::new`, from input `index` on. -/
def newFrom : (index : Nat) → List SSTableReader → Except Error MergeIterator
  | _, [] => .ok ⟨[], []⟩
  | index, r :: rs => do
    let it ← (SSTableIterator.new r).seekToFirst (read index)
    let (more, it) ← it.advance (read index)
    let tail ← newFrom (index + 1) rs
    return ⟨pending index more it ++ tail.heap, it :: tail.iterators⟩

def new (readers : List SSTableReader) : Except Error MergeIterator := newFrom read 0 readers

def advanceIterator (m : MergeIterator) (index : Nat) : Except Error MergeIterator :=
  match m.iterators[index]? with
  | none => .ok m
  | some it => do
    let (more, it) ← it.advance (read index)
    return ⟨pending index more it ++ m.heap, m.iterators.set index it⟩

/-- `Iterator::next`. A failed `advance` is logged and ends the iteration, with
the popped entry lost. -/
def next (m : MergeIterator) : Option (Entry × MergeIterator) :=
  match popHeap m.heap with
  | none => none
  | some (e, heap) =>
    match { m with heap := heap }.advanceIterator read e.iteratorIndex with
    | .error _ => none
    | .ok m => some (e.entry, m)

/-- The entries a `for` loop over the iterator sees. -/
def collect : (fuel : Nat) → MergeIterator → List Entry
  | 0, _ => []
  | fuel + 1, m =>
    match m.next read with
    | none => []
    | some (e, m) => e :: collect fuel m

end MergeIterator

def readableEntries (read : BlockRead) (index : Index) : Nat :=
  (index.map fun e =>
    match read e.2 with
    | .ok entries => entries.length
    | .error _ => 0).sum

/-- Enough rounds for `collect`: every round hands out one entry. -/
def mergeFuel (read : Nat → BlockRead) (readers : List SSTableReader) : Nat :=
  (readers.mapIdx fun i r => readableEntries (read i) r.indexBlock).sum

-- ---------------------------------------------------------------------------
-- What a compaction keeps
-- ---------------------------------------------------------------------------

/-- The loop of `CompactionJob::run`: the entries it gives to the builder. A
key that was seen is skipped, a tombstone is dropped on the way to level 1 and
below. -/
def survivors (outputLevel : Nat) : (lastUserKey : Option Bytes) → List Entry → List Entry
  | _, [] => []
  | last, e :: es =>
    if last = some e.key then survivors outputLevel last es
    else if outputLevel > 0 ∧ e.value.bytes = [] then survivors outputLevel (some e.key) es
    else e :: survivors outputLevel (some e.key) es

/-- The keys whose tombstone the same loop drops. -/
def discarded (outputLevel : Nat) : (lastUserKey : Option Bytes) → List Entry → List Bytes
  | _, [] => []
  | last, e :: es =>
    if last = some e.key then discarded outputLevel last es
    else if outputLevel > 0 ∧ e.value.bytes = [] then
      e.key :: discarded outputLevel (some e.key) es
    else discarded outputLevel (some e.key) es

end AiDb.Compaction
