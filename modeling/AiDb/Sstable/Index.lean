import AiDb.Library.Checked
import AiDb.Sstable.Block

/-!
# The index block and the footer

The index block has one entry for each data block, under its last key, and every
entry is a restart point. `find_block` searches the restart points by halves, each
time from the first entry on, and then walks from the entry before the place it
found. The place need not be the best one: it is enough that every entry before it
has a lesser key.
-/

namespace AiDb

open Library (Outcome)

def BlockHandle.decode (data : Bytes) : Except Error BlockHandle :=
  if data.length < 16 then .error (.corruption "BlockHandle too short")
  else .ok ⟨fromLe (data.take 8), fromLe ((data.drop 8).take 8)⟩

namespace Sstable

-- ---------------------------------------------------------------------------
-- The footer
-- ---------------------------------------------------------------------------

structure Footer where
  metaIndexHandle : BlockHandle
  indexHandle : BlockHandle
  deriving DecidableEq

def magicNumber : Nat := 0x5441424c455f5353

def hex (n : Nat) : String := "0x" ++ String.ofList (Nat.toDigits 16 n)

namespace Footer

def encode (f : Footer) : Bytes :=
  f.metaIndexHandle.encode ++ f.indexHandle.encode ++ List.replicate 8 0 ++ leBytes 8 magicNumber

def decode (data : Bytes) : Except Error Footer := do
  if data.length ≠ 48 then
    throw (.corruption ("Footer size mismatch: expected 48, got " ++ toString data.length))
  let found := fromLe ((data.drop 40).take 8)
  if found ≠ magicNumber then
    throw (.corruption
      ("Invalid SSTable magic number: expected " ++ hex magicNumber ++ ", got " ++ hex found))
  let metaIndexHandle ← BlockHandle.decode (data.take 16)
  let indexHandle ← BlockHandle.decode ((data.drop 16).take 16)
  return ⟨metaIndexHandle, indexHandle⟩

end Footer

-- ---------------------------------------------------------------------------
-- The index block
-- ---------------------------------------------------------------------------

/-- What an index entry is to the block builder: the handle is the value. -/
def indexEntry (e : Bytes × BlockHandle) : Entry := ⟨e.1, ⟨e.2.encode, 0⟩⟩

structure IndexBlockBuilder where
  builder : BlockBuilder

namespace IndexBlockBuilder

def new : IndexBlockBuilder := ⟨.new 1⟩

def addEntry (b : IndexBlockBuilder) (key : Bytes) (handle : BlockHandle) : IndexBlockBuilder :=
  ⟨b.builder.add key handle.encode⟩

def finish (b : IndexBlockBuilder) : Bytes := b.builder.finish

def currentSize (b : IndexBlockBuilder) : Nat := b.builder.currentSize

end IndexBlockBuilder

/-- The loop that skips entries: whether it came to its end, and the iterator. -/
def BlockIterator.skip : Nat → BlockIterator → Bool × BlockIterator
  | 0, it => (true, it)
  | n + 1, it => if it.advance.1 then skip n it.advance.2 else (false, it.advance.2)

structure IndexBlock where
  block : Block
  deriving DecidableEq

namespace IndexBlock

def new (data : Bytes) : Except Error IndexBlock := do return ⟨← Block.new data⟩

/-- The binary search of `find_block`. `left` and `right` are `u32`, and so is their sum. -/
def searchRestarts (index : IndexBlock) (key : Bytes) (left right : Nat) : Outcome Error Nat :=
  if _h : left < right then
    if left + right < 2 ^ 32 then
      let mid := (left + right) / 2
      let iter := (index.block.iter.seekToFirst.skip mid).2
      if !iter.valid then searchRestarts index key left mid
      else if iter.key < key then searchRestarts index key (mid + 1) right
      else searchRestarts index key left mid
    else .stopped
  else .ok left
termination_by right - left

/-- The last loop of `find_block`: the handle of the first key that is not below
`key`, or the last handle it came by. -/
def searchFrom (key : Bytes) : Option BlockHandle → List (Bytes × Bytes) → Except Error (Option BlockHandle)
  | last, [] => .ok last
  | _, (entryKey, value) :: rest => do
    let handle ← BlockHandle.decode value
    if key ≤ entryKey then return some handle else searchFrom key (some handle) rest

def findBlock (index : IndexBlock) (key : Bytes) : Outcome Error (Option BlockHandle) :=
  if index.block.numRestarts = 0 then .ok none
  else do
    let left ← index.searchRestarts key 0 index.block.numRestarts
    let (reached, iter) := index.block.iter.seekToFirst.skip (left - 1)
    if reached then .lift (searchFrom key none iter.visited) else .ok none

def iterEntries (index : IndexBlock) : List (Except Error (Bytes × BlockHandle)) :=
  index.block.iter.seekToFirst.visited.map fun e => do return (e.1, ← BlockHandle.decode e.2)

end IndexBlock

end Sstable

-- ---------------------------------------------------------------------------
-- Round trips
-- ---------------------------------------------------------------------------

def BlockHandle.Fits (h : BlockHandle) : Prop := h.offset < 2 ^ 64 ∧ h.size < 2 ^ 64

@[simp] theorem BlockHandle.length_encode (h : BlockHandle) : h.encode.length = 16 := by
  simp [BlockHandle.encode]

theorem BlockHandle.decode_encode {h : BlockHandle} (hfit : h.Fits) : decode h.encode = .ok h := by
  have htake : h.encode.take 8 = leBytes 8 h.offset := List.take_left' length_leBytes
  have hdrop : h.encode.drop 8 = leBytes 8 h.size := List.drop_left' length_leBytes
  have hsize : (leBytes 8 h.size).take 8 = leBytes 8 h.size := List.take_of_length_le (by simp)
  have hoffset : fromLe (leBytes 8 h.offset) = h.offset := fromLe_leBytes_of_lt hfit.1
  have hlen : fromLe (leBytes 8 h.size) = h.size := fromLe_leBytes_of_lt hfit.2
  simp [decode, htake, hdrop, hsize, hoffset, hlen]

namespace Sstable

@[simp] theorem Footer.length_encode (f : Footer) : f.encode.length = 48 := by simp [Footer.encode]

theorem Footer.decode_encode {f : Footer} (hmeta : f.metaIndexHandle.Fits) (hindex : f.indexHandle.Fits) :
    decode f.encode = .ok f := by
  have hm : f.encode.take 16 = f.metaIndexHandle.encode := by simp [Footer.encode]
  have hi : (f.encode.drop 16).take 16 = f.indexHandle.encode := by simp [Footer.encode]
  have hmagic : (f.encode.drop 40).take 8 = leBytes 8 magicNumber := by
    have hd : f.encode.drop 40 = leBytes 8 magicNumber := List.drop_left' (by simp)
    rw [hd]
    exact List.take_of_length_le (by simp)
  have hfound : fromLe (leBytes 8 magicNumber) = magicNumber :=
    fromLe_leBytes_of_lt (by decide)
  simp [decode, hm, hi, hmagic, hfound, BlockHandle.decode_encode hmeta, BlockHandle.decode_encode hindex]
  rfl

-- ---------------------------------------------------------------------------
-- Finding a block
-- ---------------------------------------------------------------------------

theorem BlockIterator.Stands.skip {it : BlockIterator} (h : it.Stands interval done todo)
    (hvalid : todo ≠ [] → it.valid = true) (hfit : ∀ e ∈ todo, Fits e) (hn : n ≤ todo.length) :
    (it.skip n).1 = true ∧ (it.skip n).2.Stands interval (done ++ todo.take n) (todo.drop n) ∧
      (todo ≠ [] → (it.skip n).2.valid = true) := by
  induction n generalizing it done todo with
  | zero => simpa [BlockIterator.skip] using ⟨h, hvalid⟩
  | succ n ih =>
    cases todo with
    | nil => simp at hn
    | cons e todo =>
      obtain ⟨hadv, hnext, hv, -, -⟩ :=
        h.advance_cons (hvalid (by simp)) (hfit e List.mem_cons_self)
      obtain ⟨hr, hs, hsv⟩ := ih hnext (fun _ => hv)
        (fun x hx => hfit x (List.mem_cons_of_mem e hx)) (by simpa using hn)
      rw [BlockIterator.skip, if_pos hadv]
      refine ⟨hr, by simpa using hs, fun _ => ?_⟩
      by_cases hne : todo = []
      · subst hne
        simp only [List.length_cons, List.length_nil, Nat.zero_add] at hn
        obtain rfl : n = 0 := by omega
        exact hv
      · exact hsv hne

namespace IndexBlock

theorem skip_key (hfit : ∀ e ∈ es, Fits e) (hne : es ≠ []) (hn : n ≤ es.length) :
    ((blockOf 1 es).iter.seekToFirst.skip n).2.valid = true ∧
      ((blockOf 1 es).iter.seekToFirst.skip n).2.key = lastKeyOf (es.take n) := by
  obtain ⟨hfirst, hvalid⟩ := BlockIterator.seekToFirst_stands 1 es
  obtain ⟨-, hstands, hv⟩ := hfirst.skip (fun hne => by simpa [hvalid] using hne) hfit hn
  exact ⟨hv hne, hstands.key⟩

/-- The sums of the search fit, and the keys before the place it leaves behind are below
`key`. -/
theorem searchRestarts_spec (hasc : Ascending es) (hfit : ∀ e ∈ es, Fits e) (key : Bytes)
    (hmany : es.length ≤ 2 ^ 31) (hle : left ≤ right) (hright : right ≤ es.length)
    (hbelow : ∀ e ∈ es.take (left - 1), e.key < key) :
    ∃ place, (⟨blockOf 1 es⟩ : IndexBlock).searchRestarts key left right = .ok place ∧ place ≤ right ∧
      ∀ e ∈ es.take (place - 1), e.key < key := by
  induction hd : right - left using Nat.strong_induction_on generalizing left right with
  | _ d ih =>
    rw [searchRestarts]
    split
    · rename_i hlt
      have hmid : left ≤ (left + right) / 2 ∧ (left + right) / 2 < right := by omega
      have hes : es ≠ [] := by
        rintro rfl
        simp at hright
        omega
      obtain ⟨hv, hat⟩ := skip_key hfit hes (n := (left + right) / 2) (by omega)
      rw [if_pos (by omega)]
      simp only [hv, hat, Bool.not_true, Bool.false_eq_true, if_false]
      split
      · rename_i hkey
        refine ih _ (by omega) (by omega) hright ?_ rfl
        -- the key in the middle is the greatest of those before it
        intro e he
        rw [Nat.add_sub_cancel] at he
        have htake : Ascending (es.take ((left + right) / 2)) :=
          ⟨hasc.sorted.sublist (List.take_sublist _ _), fun x hx => hasc.key_ne x (List.mem_of_mem_take hx)⟩
        exact lt_of_le_of_lt (htake.le_lastKeyOf he) hkey
      · obtain ⟨place, hplace, h₁, h₂⟩ := ih _ (by omega) hmid.1 (by omega) hbelow rfl
        exact ⟨place, hplace, by omega, h₂⟩
    · exact ⟨left, rfl, hle, hbelow⟩

theorem searchFrom_eq (key : Bytes) (last : Option BlockHandle) (hfit : ∀ e ∈ index, e.2.Fits) :
    searchFrom key last (index.map fun e => (e.1, e.2.encode)) =
      .ok (if index = [] then last else AiDb.findBlock index key) := by
  induction index generalizing last with
  | nil => rfl
  | cons e index ih =>
    rw [List.map_cons, searchFrom, BlockHandle.decode_encode (hfit e List.mem_cons_self)]
    simp only [bind, Except.bind, pure, Except.pure]
    rw [ih _ fun x hx => hfit x (List.mem_cons_of_mem e hx), if_neg (List.cons_ne_nil e index),
      show e :: index = (e.1, e.2) :: index from rfl, findBlock_cons]
    by_cases hk : key ≤ e.1
    · simp [hk]
    · by_cases hi : index = [] <;> simp [hk, hi]

theorem findBlock_append (hpre : ∀ e ∈ pre, e.1 < key) (hpost : post ≠ []) :
    AiDb.findBlock (pre ++ post) key = AiDb.findBlock post key := by
  induction pre with
  | nil => rfl
  | cons e pre ih =>
    have hne : ¬(key ≤ e.1 ∨ pre ++ post = []) := by
      simp [hpost, hpre e List.mem_cons_self]
    rw [List.cons_append, show e :: (pre ++ post) = (e.1, e.2) :: (pre ++ post) from rfl, findBlock_cons,
      if_neg hne, ih fun x hx => hpre x (List.mem_cons_of_mem e hx)]

theorem length_restarts (b : BlockBuilder) (hint : b.blockRestartInterval = 1) (hc : 1 ≤ b.counter)
    (es : List Entry) : (b.addAll es).restarts.length = b.restarts.length + es.length := by
  induction es generalizing b with
  | nil => rfl
  | cons e es ih =>
    rw [BlockBuilder.addAll_cons, ih (b.add e.key e.value.bytes) hint (Nat.le_add_left 1 _)]
    simp only [BlockBuilder.add, hint, ge_iff_le, if_pos hc, List.length_append, List.length_cons,
      List.length_nil]
    omega

theorem numRestarts_blockOf (e : Entry) (es : List Entry) :
    (blockOf 1 (e :: es)).numRestarts = (e :: es).length := by
  have h := length_restarts ((BlockBuilder.new 1).add e.key e.value.bytes) rfl (le_refl 1) es
  rw [List.length_cons, Nat.add_comm]
  exact h

theorem findBlock_nil (key : Bytes) : (⟨blockOf 1 []⟩ : IndexBlock).findBlock key = .ok none := by
  have hinvalid : (blockOf 1 []).iter.seekToFirst.valid = false := by decide
  have hsearch : (⟨blockOf 1 []⟩ : IndexBlock).searchRestarts key 0 1 = .ok 0 := by
    rw [searchRestarts, dif_pos Nat.zero_lt_one, if_pos (by decide)]
    simp only [Nat.zero_add, Nat.reduceDiv, BlockIterator.skip, hinvalid, Bool.not_false, if_true]
    rw [searchRestarts, dif_neg (lt_irrefl 0)]
  have hvisited : (blockOf 1 []).iter.seekToFirst.visited = [] := BlockIterator.visited_seekToFirst (by simp)
  unfold findBlock
  rw [if_neg (by decide)]
  simp only [show (blockOf 1 []).numRestarts = 1 from rfl, hsearch, Outcome.ok_bind, Nat.zero_sub,
    BlockIterator.skip, hvisited, if_true]
  rfl

theorem findBlock_eq {index : Index} (hasc : Ascending (index.map indexEntry))
    (hkeys : ∀ e ∈ index, e.1.length < 2 ^ 32) (hfit : ∀ e ∈ index, e.2.Fits)
    (hmany : index.length ≤ 2 ^ 31) (key : Bytes) :
    (⟨blockOf 1 (index.map indexEntry)⟩ : IndexBlock).findBlock key = .ok (AiDb.findBlock index key) := by
  have hfits : ∀ e ∈ index.map indexEntry, Fits e := by
    intro e he
    obtain ⟨x, hx, rfl⟩ := List.mem_map.mp he
    exact ⟨hkeys x hx, by simp [indexEntry]⟩
  obtain ⟨hfirst, hvalid⟩ := BlockIterator.seekToFirst_stands 1 (index.map indexEntry)
  have hv : index.map indexEntry ≠ [] → (blockOf 1 (index.map indexEntry)).iter.seekToFirst.valid = true :=
    fun hne => by simpa [hvalid] using hne
  cases hi : index with
  | nil =>
    subst hi
    exact findBlock_nil key
  | cons x rest =>
    rw [← hi]
    have hne : index ≠ [] := by simp [hi]
    have hnum : (blockOf 1 (index.map indexEntry)).numRestarts = index.length := by
      rw [hi, List.map_cons, numRestarts_blockOf]
      simp
    obtain ⟨place, hplace, hle, hbelow⟩ := searchRestarts_spec hasc hfits key (by simpa using hmany)
      (Nat.zero_le index.length) (by simp) (by simp)
    generalize hm : place - 1 = m at hbelow
    have hlt : m < index.length := by
      have := List.length_pos_iff.mpr hne
      omega
    obtain ⟨hreached, hstands, hsv⟩ := hfirst.skip hv hfits (n := m) (by simpa using hlt.le)
    have hdrop : index.drop m ≠ [] := by simpa using hlt
    have hvisited : ((blockOf 1 (index.map indexEntry)).iter.seekToFirst.skip m).2.visited =
        (index.drop m).map fun e => (e.1, e.2.encode) := by
      rw [hstands.visited_eq (fun _ => hsv (by simpa using hne)) fun e he => hfits e (List.mem_of_mem_drop he)]
      simp [← List.map_drop, indexEntry, Function.comp_def]
    have hpre : ∀ e ∈ index.take m, e.1 < key := by
      intro e he
      refine hbelow (indexEntry e) ?_
      rw [← List.map_take]
      exact List.mem_map_of_mem he
    unfold findBlock
    simp only [hnum, hplace]
    rw [if_neg (by omega)]
    simp only [Outcome.ok_bind, hm, hreached, hvisited, if_true]
    rw [searchFrom_eq key none fun e he => hfit e (List.mem_of_mem_drop he), if_neg hdrop]
    conv => rhs; rw [← List.take_append_drop m index]
    rw [findBlock_append hpre hdrop, Outcome.lift_ok]

theorem iterEntries_eq {index : Index} (hkeys : ∀ e ∈ index, e.1.length < 2 ^ 32) (hfit : ∀ e ∈ index, e.2.Fits) :
    (⟨blockOf 1 (index.map indexEntry)⟩ : IndexBlock).iterEntries = index.map .ok := by
  have hfits : ∀ e ∈ index.map indexEntry, Fits e := by
    intro e he
    obtain ⟨x, hx, rfl⟩ := List.mem_map.mp he
    exact ⟨hkeys x hx, by simp [indexEntry]⟩
  unfold iterEntries
  rw [BlockIterator.visited_seekToFirst hfits]
  simp only [List.map_map]
  refine List.map_congr_left fun e he => ?_
  simp [indexEntry, BlockHandle.decode_encode (hfit e he), bind, Except.bind, pure, Except.pure]

end IndexBlock

end Sstable

end AiDb
