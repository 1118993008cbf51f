import AiDb.Db

/-!
# Iterators

`DBIterator` takes all keys of the memtables and the tables when it is made and
reads the value of each when it comes to it. It holds the database, here the
function `get` that is its `get_at_sequence`, so that what the database answers
while the iterator is used is not tied to what it answered before.
-/

namespace AiDb

open Library Compaction

-- ---------------------------------------------------------------------------
-- Keys
-- ---------------------------------------------------------------------------

abbrev KeySet := SkipMap Bytes Unit

def KeySet.extend (set : KeySet) (keys : List Bytes) : KeySet := keys.foldl (fun set k => set.insert k ()) set

def KeySet.toVec (set : KeySet) : List Bytes := set.entries.map Prod.fst

def MemTable.keys (m : MemTable) : List Bytes :=
  (KeySet.extend .empty (m.iter.map fun e => e.1.userKey)).toVec

/-- `SSTableIterator::key`: empty in front of the first entry of a block. -/
def SSTableIterator.key (it : SSTableIterator) : Bytes := (it.entry.map Entry.key).getD []

def SSTableIterator.collectKeys (read : BlockRead) : (fuel : Nat) → SSTableIterator → Except Error (List Bytes)
  | 0, _ => .ok []
  | fuel + 1, it =>
    if it.valid then do
      let (_, next) ← it.advance read
      return it.key :: (← next.collectKeys read fuel)
    else .ok []

/-- `SSTableReader::keys`. A round for every entry, and one in front of them. -/
def SSTableReader.listKeys (r : SSTableReader) (read : BlockRead) : Except Error (List Bytes) := do
  let it ← (SSTableIterator.new r).seekToFirst read
  it.collectKeys read (readableEntries read r.indexBlock + 1)

def collectTables (w : World) : KeySet → List SSTableReader → Except Error KeySet
  | set, [] => .ok set
  | set, r :: rs => do collectTables w (set.extend (← r.listKeys (w.readBlock r.file))) rs

/-- From `start` on, up to, not including, `stop`. -/
def inRange (start stop : Option Bytes) (key : Bytes) : Bool := start.all (· ≤ key) && stop.all (key < ·)

def Sys.collectKeys (s : Sys) (start stop : Option Bytes) : Except Error (List Bytes) := do
  let memtables := (s.db.memtable :: s.db.immutableMemtables).foldl (fun set m => set.extend m.keys) .empty
  let allKeys ← collectTables s.world memtables s.db.sstables.flatten
  return allKeys.toVec.filter (inRange start stop)

-- ---------------------------------------------------------------------------
-- The iterator
-- ---------------------------------------------------------------------------

structure DBIterator where
  current : Option (Bytes × Bytes)
  sequence : Nat
  keys : List Bytes
  position : Nat
  deriving DecidableEq

abbrev GetAtSequence := Bytes → Nat → Except Error (Option Bytes)

/-- `[T]::binary_search` in a list without repetitions: the place of the target,
or the one it would have. -/
def binarySearch (keys : List Bytes) (target : Bytes) : Except Nat Nat :=
  let pos := keys.countP (· < target)
  if keys[pos]? = some target then .ok pos else .error pos

namespace DBIterator

variable (get : GetAtSequence)

/-- `load_current`. The call of `next` on a key without a value is written out. -/
def loadCurrent (it : DBIterator) : Except Error Unit × DBIterator :=
  if h : it.position < it.keys.length then
    match get it.keys[it.position] it.sequence with
    | .error e => (.error e, it)
    | .ok (some value) => (.ok (), { it with current := some (it.keys[it.position], value) })
    | .ok none => (.ok (), ({ it with position := it.position + 1 }.loadCurrent).2)
  else (.ok (), { it with current := none })
termination_by it.keys.length - it.position

def valid (it : DBIterator) : Bool := it.current.isSome

def next (it : DBIterator) : DBIterator := ({ it with position := it.position + 1 }.loadCurrent get).2

def prev (it : DBIterator) : DBIterator :=
  if it.position > 0 then ({ it with position := it.position - 1 }.loadCurrent get).2
  else { it with current := none }

def seek (it : DBIterator) (target : Bytes) : DBIterator :=
  match binarySearch it.keys target with
  | .ok pos => ({ it with position := pos }.loadCurrent get).2
  | .error pos => ({ it with position := pos }.loadCurrent get).2

def seekToFirst (it : DBIterator) : DBIterator := ({ it with position := 0 }.loadCurrent get).2

def seekToLast (it : DBIterator) : DBIterator :=
  if it.keys ≠ [] then ({ it with position := it.keys.length - 1 }.loadCurrent get).2
  else { it with current := none }

/-- `DBIterator::new_range`. The keys are collected from the database as it is
then; `get` answers from the first load on. -/
def newRange (s : Sys) (sequence : Nat) (start stop : Option Bytes) : Except Error DBIterator := do
  let keys ← s.collectKeys start stop
  let it : DBIterator := ⟨none, sequence, keys, 0⟩
  if keys ≠ [] then
    let (result, it) := it.loadCurrent get
    result
    return it
  return it

end DBIterator

def Sys.getAtSequence (s : Sys) : GetAtSequence := s.db.getAtSequence s.world

/-- `DB::scan`, without a block cache. -/
def Sys.scan (s : Sys) (start stop : Option Bytes) : Except Error DBIterator :=
  DBIterator.newRange s.getAtSequence s s.db.sequence start stop

end AiDb
