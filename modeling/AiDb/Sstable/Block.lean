import AiDb.Table.Contents

/-!
# The bytes of a block

A block is its entries, each with the prefix it shares with the entry before it cut
off, then the offsets of the restart points and their number. What the builder
lays down the iterator reads back, entry by entry: the iterator that stands behind
the entries `done` holds the last key of `done`, which is what the next entry was
cut against.
-/

namespace AiDb.Sstable

-- ---------------------------------------------------------------------------
-- Building
-- ---------------------------------------------------------------------------

structure BlockBuilder where
  buffer : Bytes
  restarts : List Nat
  counter : Nat
  lastKey : Bytes
  blockRestartInterval : Nat

namespace BlockBuilder

def new (interval : Nat) : BlockBuilder := ⟨[], [0], 0, [], interval⟩

def Takes (b : BlockBuilder) (key : Bytes) : Prop := key ≠ [] ∧ (b.lastKey ≠ [] → b.lastKey < key)

/-- How much of `key` the next entry leaves out. A restart point leaves out nothing. -/
def shared (b : BlockBuilder) (key : Bytes) : Nat :=
  if b.counter ≥ b.blockRestartInterval then 0
  else if b.lastKey ≠ [] then sharedPrefixLen b.lastKey key
  else 0

def entry (b : BlockBuilder) (key value : Bytes) : Bytes :=
  leBytes 4 (b.shared key) ++ leBytes 4 (key.length - b.shared key) ++ leBytes 4 value.length ++
    key.drop (b.shared key) ++ value

def add (b : BlockBuilder) (key value : Bytes) : BlockBuilder :=
  let restart := b.counter ≥ b.blockRestartInterval
  { b with
    buffer := b.buffer ++ b.entry key value
    restarts := if restart then b.restarts ++ [b.buffer.length] else b.restarts
    counter := (if restart then 0 else b.counter) + 1
    lastKey := key }

def finish (b : BlockBuilder) : Bytes :=
  b.buffer ++ b.restarts.flatMap (leBytes 4) ++ leBytes 4 b.restarts.length

def currentSize (b : BlockBuilder) : Nat := b.buffer.length + b.restarts.length * 4 + 4

def isEmpty (b : BlockBuilder) : Bool := b.buffer.isEmpty

def addAll (b : BlockBuilder) (es : List Entry) : BlockBuilder :=
  es.foldl (fun b e => b.add e.key e.value.bytes) b

end BlockBuilder

-- ---------------------------------------------------------------------------
-- Reading
-- ---------------------------------------------------------------------------

structure Block where
  data : Bytes
  restartOffset : Nat
  numRestarts : Nat
  deriving DecidableEq

/-- `Block::new`. More restart points than the block has room for take the
subtraction below zero, where it wraps. -/
def Block.new (data : Bytes) : Except Error Block :=
  if data.length < 4 then .error (.corruption "Block too small")
  else
    let numRestarts := fromLe (data.drop (data.length - 4))
    if data.length - 4 < numRestarts * 4 then .error (.corruption "Invalid restart offset")
    else .ok ⟨data, data.length - 4 - numRestarts * 4, numRestarts⟩

def Block.getRestartPoint (b : Block) (index : Nat) : Nat :=
  fromLe ((b.data.drop (b.restartOffset + index * 4)).take 4)

structure BlockIterator where
  block : Block
  current : Nat
  restartIndex : Nat
  key : Bytes
  value : Bytes
  valid : Bool
  deriving DecidableEq

def Block.iter (b : Block) : BlockIterator := ⟨b, 0, 0, [], [], false⟩

namespace BlockIterator

def seekToRestartPoint (it : BlockIterator) (index : Nat) : BlockIterator :=
  let current := it.block.getRestartPoint index
  { it with
    key := []
    restartIndex := index
    current := current
    valid := current < it.block.restartOffset }

def seekToFirst (it : BlockIterator) : BlockIterator := it.seekToRestartPoint 0

def parseNextEntry (it : BlockIterator) : BlockIterator :=
  if it.current ≥ it.block.restartOffset then { it with valid := false }
  else
    let data := it.block.data.drop it.current
    if data.length < 12 then { it with valid := false }
    else
      let shared := fromLe (data.take 4)
      let unshared := fromLe ((data.drop 4).take 4)
      let valueLen := fromLe ((data.drop 8).take 4)
      if data.length < 12 + unshared + valueLen then { it with valid := false }
      else
        { it with
          key := it.key.take shared ++ (data.drop 12).take unshared
          value := (data.drop (12 + unshared)).take valueLen
          current := it.current + (12 + unshared + valueLen)
          valid := true }

def advance (it : BlockIterator) : Bool × BlockIterator :=
  if it.valid then (it.parseNextEntry.valid, it.parseNextEntry) else (false, it)

theorem advance_valid (iter : BlockIterator) : iter.advance.2.valid = iter.advance.1 := by
  unfold advance
  split
  · rfl
  · rename_i h
    simpa using h

theorem advance_current {it : BlockIterator} (h : it.advance.1 = true) :
    it.current + 12 ≤ it.block.data.length ∧ it.current + 12 ≤ it.advance.2.current ∧
      it.advance.2.block = it.block := by
  unfold advance at h ⊢
  split at h <;> rename_i hv
  · rw [if_pos hv]
    simp only [parseNextEntry] at h ⊢
    split_ifs at h ⊢ with h₁ h₂ h₃
    · simp only [List.length_drop, not_lt] at h₂
      refine ⟨by omega, ?_, rfl⟩
      show it.current + 12 ≤ it.current + (12 + _ + _)
      omega
  · cases h

def visited (it : BlockIterator) : List (Bytes × Bytes) :=
  if _h : it.advance.1 = true then (it.advance.2.key, it.advance.2.value) :: visited it.advance.2
  else []
termination_by it.block.data.length - it.current
decreasing_by
  obtain ⟨h₁, h₂, h₃⟩ := advance_current _h
  rw [h₃]
  omega

end BlockIterator

-- ---------------------------------------------------------------------------
-- What the builder lays down
-- ---------------------------------------------------------------------------

theorem sharedPrefixLen_le (a b : Bytes) : sharedPrefixLen a b ≤ b.length := by
  induction a generalizing b with
  | nil => simp [sharedPrefixLen]
  | cons x xs ih =>
    cases b with
    | nil => simp [sharedPrefixLen]
    | cons y ys =>
      simp only [sharedPrefixLen, List.length_cons]
      split
      · exact Nat.succ_le_succ (ih ys)
      · exact Nat.zero_le _

theorem take_sharedPrefixLen (a b : Bytes) :
    a.take (sharedPrefixLen a b) = b.take (sharedPrefixLen a b) := by
  induction a generalizing b with
  | nil => simp [sharedPrefixLen]
  | cons x xs ih =>
    cases b with
    | nil => simp [sharedPrefixLen]
    | cons y ys =>
      simp only [sharedPrefixLen]
      split
      · rename_i h
        simp [h, ih ys]
      · simp

namespace BlockBuilder

theorem shared_le (b : BlockBuilder) (key : Bytes) : b.shared key ≤ key.length := by
  unfold shared
  split_ifs <;> simp [sharedPrefixLen_le]

theorem take_shared (b : BlockBuilder) (key : Bytes) :
    b.lastKey.take (b.shared key) = key.take (b.shared key) := by
  unfold shared
  split_ifs <;> simp [take_sharedPrefixLen]

theorem length_entry (b : BlockBuilder) (key value : Bytes) :
    (b.entry key value).length = 12 + (key.length - b.shared key) + value.length := by
  simp [entry]
  omega

@[simp] theorem add_buffer (b : BlockBuilder) (key value : Bytes) :
    (b.add key value).buffer = b.buffer ++ b.entry key value := rfl

@[simp] theorem add_lastKey (b : BlockBuilder) (key value : Bytes) :
    (b.add key value).lastKey = key := rfl

@[simp] theorem add_blockRestartInterval (b : BlockBuilder) (key value : Bytes) :
    (b.add key value).blockRestartInterval = b.blockRestartInterval := rfl

@[simp] theorem addAll_nil (b : BlockBuilder) : b.addAll [] = b := rfl

@[simp] theorem addAll_cons (b : BlockBuilder) (e : Entry) (es : List Entry) :
    b.addAll (e :: es) = (b.add e.key e.value.bytes).addAll es := rfl

theorem addAll_append (b : BlockBuilder) (as bs : List Entry) :
    b.addAll (as ++ bs) = (b.addAll as).addAll bs := List.foldl_append

theorem buffer_addAll (b : BlockBuilder) (es : List Entry) :
    ∃ tail, (b.addAll es).buffer = b.buffer ++ tail := by
  induction es generalizing b with
  | nil => exact ⟨[], by simp⟩
  | cons e es ih =>
    obtain ⟨tail, h⟩ := ih (b.add e.key e.value.bytes)
    exact ⟨b.entry e.key e.value.bytes ++ tail, by simp [h]⟩

theorem restarts_addAll (b : BlockBuilder) (es : List Entry) :
    ∃ tail, (b.addAll es).restarts = b.restarts ++ tail := by
  induction es generalizing b with
  | nil => exact ⟨[], by simp⟩
  | cons e es ih =>
    obtain ⟨tail, h⟩ := ih (b.add e.key e.value.bytes)
    rw [addAll_cons, h]
    by_cases hc : b.counter ≥ b.blockRestartInterval
    · exact ⟨[b.buffer.length] ++ tail, by simp [add, hc]⟩
    · exact ⟨tail, by simp [add, hc]⟩

theorem interval_addAll (b : BlockBuilder) (es : List Entry) :
    (b.addAll es).blockRestartInterval = b.blockRestartInterval := by
  induction es generalizing b with
  | nil => rfl
  | cons e es ih => simp [ih]

theorem lastKey_addAll (interval : Nat) (es : List Entry) :
    ((new interval).addAll es).lastKey = lastKeyOf es := by
  induction es using List.reverseRecOn with
  | nil => rfl
  | append_singleton es e _ => rw [addAll_append, lastKeyOf_append_singleton]; simp

theorem length_addAll_buffer (b : BlockBuilder) (es : List Entry) :
    b.buffer.length + 12 * es.length ≤ (b.addAll es).buffer.length := by
  induction es generalizing b with
  | nil => simp
  | cons e es ih =>
    have h := ih (b.add e.key e.value.bytes)
    simp only [add_buffer, List.length_append, length_entry] at h
    simp only [addAll_cons, List.length_cons]
    omega

@[simp] theorem length_finish (b : BlockBuilder) : b.finish.length = b.currentSize := by
  simp [finish, currentSize, List.length_flatMap, Nat.add_assoc]

theorem new_finish (b : BlockBuilder) (h : b.restarts.length < 2 ^ 32) :
    Block.new b.finish = .ok ⟨b.finish, b.buffer.length, b.restarts.length⟩ := by
  have hlen : b.finish.length - 4 = b.buffer.length + b.restarts.length * 4 := by
    simp [currentSize]
  have hlast : b.finish.drop (b.buffer.length + b.restarts.length * 4) =
      leBytes 4 b.restarts.length := List.drop_left' (by simp)
  have hnum : fromLe (leBytes 4 b.restarts.length) = b.restarts.length := fromLe_leBytes_of_lt h
  unfold Block.new
  simp only [hlen, hlast, hnum]
  rw [if_neg (by rw [length_finish, currentSize]; omega), if_neg (by omega), Nat.add_sub_cancel]

theorem getRestartPoint_zero (b : BlockBuilder) (h : b.restarts = 0 :: rest) :
    (⟨b.finish, b.buffer.length, n⟩ : Block).getRestartPoint 0 = 0 := by
  simp [Block.getRestartPoint, finish, h, fromLe_leBytes]

end BlockBuilder

-- ---------------------------------------------------------------------------
-- What the iterator reads back
-- ---------------------------------------------------------------------------

namespace BlockIterator

/-- The three lengths are read back modulo `2 ^ 32`, and cut what follows them. -/
theorem parseNextEntry_fields {it : BlockIterator} (hcur : it.current < it.block.restartOffset)
    (hdata : it.block.data.drop it.current = leBytes 4 shared ++ leBytes 4 unshared ++ leBytes 4 valueLen ++ rest)
    (hroom : unshared % 2 ^ 32 + valueLen % 2 ^ 32 ≤ rest.length) :
    it.parseNextEntry = { it with
      key := it.key.take (shared % 2 ^ 32) ++ rest.take (unshared % 2 ^ 32)
      value := (rest.drop (unshared % 2 ^ 32)).take (valueLen % 2 ^ 32)
      current := it.current + (12 + unshared % 2 ^ 32 + valueLen % 2 ^ 32)
      valid := true } := by
  have h₀ : (it.block.data.drop it.current).take 4 = leBytes 4 shared := by simp [hdata]
  have h₄ : (it.block.data.drop it.current).drop 4 = leBytes 4 unshared ++ (leBytes 4 valueLen ++ rest) := by
    simp [hdata]
  have h₈ : (it.block.data.drop it.current).drop 8 = leBytes 4 valueLen ++ rest := by
    rw [show 8 = 4 + 4 from rfl, ← List.drop_drop, h₄]
    exact List.drop_left' length_leBytes
  have h₁₂ : (it.block.data.drop it.current).drop 12 = rest := by
    rw [show 12 = 8 + 4 from rfl, ← List.drop_drop, h₈]
    exact List.drop_left' length_leBytes
  have hlen : (it.block.data.drop it.current).length = 12 + rest.length := by simp [hdata]; omega
  have hmod : ∀ n, fromLe (leBytes 4 n) = n % 2 ^ 32 := fun n => fromLe_leBytes
  unfold parseNextEntry
  rw [if_neg (not_le.mpr hcur)]
  simp only [h₀, h₄, h₈, List.take_left' length_leBytes, hmod, hlen]
  rw [if_neg (by omega), if_neg (by omega), ← List.drop_drop, h₁₂]

theorem parseNextEntry_entry {it : BlockIterator} {b : BlockBuilder} {key value rest : Bytes}
    (hcur : it.current < it.block.restartOffset) (hkey : it.key.take (b.shared key) = key.take (b.shared key))
    (hdata : it.block.data.drop it.current = b.entry key value ++ rest)
    (hk : key.length < 2 ^ 32) (hv : value.length < 2 ^ 32) :
    it.parseNextEntry = { it with
      key := key
      value := value
      current := it.current + (b.entry key value).length
      valid := true } := by
  have hle := b.shared_le key
  have hshared : b.shared key % 2 ^ 32 = b.shared key := Nat.mod_eq_of_lt (by omega)
  have hunshared : (key.length - b.shared key) % 2 ^ 32 = key.length - b.shared key := Nat.mod_eq_of_lt (by omega)
  have hvalue : value.length % 2 ^ 32 = value.length := Nat.mod_eq_of_lt hv
  have hcut : (key.drop (b.shared key) ++ (value ++ rest)).take (key.length - b.shared key) =
      key.drop (b.shared key) := List.take_left' (by simp)
  have hbehind : (key.drop (b.shared key) ++ (value ++ rest)).drop (key.length - b.shared key) =
      value ++ rest := List.drop_left' (by simp)
  have hfields : it.block.data.drop it.current =
      leBytes 4 (b.shared key) ++ leBytes 4 (key.length - b.shared key) ++ leBytes 4 value.length ++
        (key.drop (b.shared key) ++ (value ++ rest)) := by simp [hdata, BlockBuilder.entry]
  rw [parseNextEntry_fields hcur hfields (by rw [hunshared, hvalue]; simp), hshared, hunshared, hvalue, hkey, hcut,
    hbehind, List.take_append_drop, List.take_left, b.length_entry]

end BlockIterator

def blockData (interval : Nat) (es : List Entry) : Bytes := ((BlockBuilder.new interval).addAll es).finish

def blockOf (interval : Nat) (es : List Entry) : Block :=
  let b := (BlockBuilder.new interval).addAll es
  ⟨b.finish, b.buffer.length, b.restarts.length⟩

def Fits (e : Entry) : Prop := e.key.length < 2 ^ 32 ∧ e.value.bytes.length < 2 ^ 32

theorem length_restarts_le (interval : Nat) (es : List Entry) :
    (blockOf interval es).numRestarts ≤ (blockData interval es).length := by
  rw [blockData, BlockBuilder.length_finish, BlockBuilder.currentSize]
  show ((BlockBuilder.new interval).addAll es).restarts.length ≤ _
  omega

theorem new_blockData (h : (blockData interval es).length < 2 ^ 32) :
    Block.new (blockData interval es) = .ok (blockOf interval es) :=
  BlockBuilder.new_finish _ (lt_of_le_of_lt (length_restarts_le interval es) h)

namespace BlockIterator

/-- The iterator is behind the entries `done` and before `todo`. -/
structure Stands (it : BlockIterator) (interval : Nat) (done todo : List Entry) : Prop where
  block : it.block = blockOf interval (done ++ todo)
  current : it.current = ((BlockBuilder.new interval).addAll done).buffer.length
  key : it.key = lastKeyOf done

theorem seekToFirst_stands (interval : Nat) (es : List Entry) :
    (blockOf interval es).iter.seekToFirst.Stands interval [] es ∧
      (blockOf interval es).iter.seekToFirst.valid = !es.isEmpty := by
  obtain ⟨tail, hr⟩ := (BlockBuilder.new interval).restarts_addAll es
  have hzero : (blockOf interval es).getRestartPoint 0 = 0 :=
    BlockBuilder.getRestartPoint_zero _ hr
  refine ⟨⟨rfl, hzero, rfl⟩, ?_⟩
  show decide ((blockOf interval es).getRestartPoint 0 < (blockOf interval es).restartOffset) = _
  rw [hzero]
  cases es with
  | nil => rfl
  | cons e es =>
    have hlen := (BlockBuilder.new interval).length_addAll_buffer (e :: es)
    have hpos : 0 < ((BlockBuilder.new interval).addAll (e :: es)).buffer.length := by
      simp only [List.length_cons] at hlen
      omega
    exact decide_eq_true hpos

theorem advance_entry {it : BlockIterator} (hblock : it.block = blockOf interval (done ++ e :: todo))
    (hcurrent : it.current = ((BlockBuilder.new interval).addAll done).buffer.length)
    (hkey : it.key.take (((BlockBuilder.new interval).addAll done).shared e.key) =
      e.key.take (((BlockBuilder.new interval).addAll done).shared e.key))
    (hvalid : it.valid = true) (hfit : Fits e) :
    it.advance.1 = true ∧ it.advance.2.Stands interval (done ++ [e]) todo ∧
      it.advance.2.valid = true ∧ it.advance.2.key = e.key ∧ it.advance.2.value = e.value.bytes := by
  let b := (BlockBuilder.new interval).addAll done
  have hadd : (BlockBuilder.new interval).addAll (done ++ e :: todo) =
      (b.add e.key e.value.bytes).addAll todo := by simp [BlockBuilder.addAll_append, b]
  obtain ⟨tail, htail⟩ := (b.add e.key e.value.bytes).buffer_addAll todo
  have hbuffer : ((BlockBuilder.new interval).addAll (done ++ e :: todo)).buffer =
      b.buffer ++ (b.entry e.key e.value.bytes ++ tail) := by
    rw [hadd, htail, BlockBuilder.add_buffer, List.append_assoc]
  have hlen := b.length_entry e.key e.value.bytes
  have hcur : it.current < it.block.restartOffset := by
    rw [hcurrent, hblock]
    show b.buffer.length < List.length (BlockBuilder.buffer _)
    rw [hbuffer, List.length_append, List.length_append]
    omega
  have hdata : ∃ rest, it.block.data.drop it.current = b.entry e.key e.value.bytes ++ rest := by
    rw [hcurrent, hblock]
    show ∃ rest, List.drop b.buffer.length (BlockBuilder.finish _) = _
    rw [BlockBuilder.finish, hbuffer, List.append_assoc, List.append_assoc, List.drop_left, List.append_assoc]
    exact ⟨_, rfl⟩
  obtain ⟨rest, hdata⟩ := hdata
  have hparse := parseNextEntry_entry hcur hkey hdata hfit.1 hfit.2
  have hadv : it.advance = (true, it.parseNextEntry) := by
    rw [advance, if_pos hvalid, hparse]
  rw [hadv, hparse]
  refine ⟨rfl, ⟨?_, ?_, ?_⟩, rfl, rfl, rfl⟩
  · simpa using hblock
  · show it.current + _ = _
    rw [hcurrent, BlockBuilder.addAll_append]
    simp
  · simp [lastKeyOf]

theorem Stands.advance_cons {it : BlockIterator} (h : it.Stands interval done (e :: todo))
    (hvalid : it.valid = true) (hfit : Fits e) :
    it.advance.1 = true ∧ it.advance.2.Stands interval (done ++ [e]) todo ∧
      it.advance.2.valid = true ∧ it.advance.2.key = e.key ∧ it.advance.2.value = e.value.bytes := by
  refine advance_entry h.block h.current ?_ hvalid hfit
  rw [h.key, ← BlockBuilder.lastKey_addAll interval, BlockBuilder.take_shared]

theorem Stands.advance_nil {it : BlockIterator} (h : it.Stands interval done []) :
    it.advance.1 = false ∧ it.advance.2.valid = false := by
  have hend : it.current ≥ it.block.restartOffset := by
    rw [h.current, h.block, List.append_nil]
    exact le_refl _
  unfold advance parseNextEntry
  rw [if_pos hend]
  split <;> simp_all

theorem Stands.visited_eq {it : BlockIterator} (h : it.Stands interval done todo)
    (hvalid : todo ≠ [] → it.valid = true) (hfit : ∀ e ∈ todo, Fits e) :
    it.visited = todo.map fun e => (e.key, e.value.bytes) := by
  induction todo generalizing it done with
  | nil => rw [visited, dif_neg (by simp [h.advance_nil.1])]; rfl
  | cons e todo ih =>
    obtain ⟨hadv, hnext, hv, hk, hval⟩ :=
      h.advance_cons (hvalid (by simp)) (hfit e List.mem_cons_self)
    rw [visited, dif_pos hadv, ih hnext (fun _ => hv) (fun x hx => hfit x (List.mem_cons_of_mem e hx)), hk,
      hval, List.map_cons]

/-- A loop over a block comes by the entries that were added to it. -/
theorem visited_seekToFirst (hfit : ∀ e ∈ es, Fits e) :
    (blockOf interval es).iter.seekToFirst.visited = es.map fun e => (e.key, e.value.bytes) := by
  obtain ⟨h, hv⟩ := seekToFirst_stands interval es
  exact h.visited_eq (fun hne => by simpa [hv] using hne) hfit

end BlockIterator

-- ---------------------------------------------------------------------------
-- The block builder of the decoded model
-- ---------------------------------------------------------------------------

namespace BlockBuilder

structure Encodes (b : BlockBuilder) (d : AiDb.BlockBuilder) : Prop where
  built : b = (new d.blockRestartInterval).addAll d.entries
  bufferLen : b.buffer.length = d.bufferLen
  restarts : b.restarts.length = d.restarts
  counter : b.counter = d.counter
  lastKey : b.lastKey = d.lastKey

theorem encodes_new (interval : Nat) : (new interval).Encodes (AiDb.BlockBuilder.new interval) :=
  ⟨rfl, rfl, rfl, rfl, rfl⟩

theorem Encodes.interval {b : BlockBuilder} (h : b.Encodes d) :
    b.blockRestartInterval = d.blockRestartInterval := by
  rw [h.built, interval_addAll]
  rfl

theorem Encodes.add {b : BlockBuilder} (h : b.Encodes d) (e : Entry) :
    (b.add e.key e.value.bytes).Encodes (d.add e) where
  built := by
    rw [AiDb.BlockBuilder.add, addAll_append, ← h.built]
    rfl
  bufferLen := by
    simp [length_entry, AiDb.BlockBuilder.add, h.bufferLen, shared, h.counter, h.interval, h.lastKey]
  restarts := by
    simp only [BlockBuilder.add, AiDb.BlockBuilder.add, h.counter, h.interval, ← h.restarts]
    split <;> simp
  counter := by simp only [BlockBuilder.add, AiDb.BlockBuilder.add, h.counter, h.interval]
  lastKey := rfl

theorem Encodes.currentSize {b : BlockBuilder} (h : b.Encodes d) : b.currentSize = d.currentSize := by
  rw [BlockBuilder.currentSize, AiDb.BlockBuilder.currentSize, h.bufferLen, h.restarts]

theorem Encodes.isEmpty {b : BlockBuilder} (h : b.Encodes d) : b.isEmpty = d.isEmpty := by
  have hlen := (new d.blockRestartInterval).length_addAll_buffer d.entries
  rw [← h.built] at hlen
  unfold BlockBuilder.isEmpty AiDb.BlockBuilder.isEmpty
  cases hd : d.entries with
  | nil =>
    rw [h.built, hd]
    rfl
  | cons e es =>
    have hne : b.buffer ≠ [] := by
      intro hb
      simp [hd, hb] at hlen
    simpa using hne

end BlockBuilder

end AiDb.Sstable
