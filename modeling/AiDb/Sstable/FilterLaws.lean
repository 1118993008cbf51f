import AiDb.Library.Checked
import AiDb.Library.Folds
import AiDb.Sstable.Bloom

/-!
# Bloom filters as sets

The positions of the keys are set in any order and any number of times with the same
result. A filter that was decoded from bytes answers without a fault unless it has
hash positions and no bits, which `decode` lets pass.
-/

namespace AiDb.Sstable

open Library

namespace BloomFilter

-- ---------------------------------------------------------------------------
-- The adds as a set
-- ---------------------------------------------------------------------------

def addAll (f : BloomFilter) (keys : List Bytes) : BloomFilter := keys.foldl add f

@[simp] theorem addAll_nil (f : BloomFilter) : f.addAll [] = f := rfl

@[simp] theorem addAll_cons (f : BloomFilter) (key : Bytes) (keys : List Bytes) :
    f.addAll (key :: keys) = (f.add key).addAll keys := rfl

theorem setBit_comm (f : BloomFilter) (p q : Nat) : (f.setBit p).setBit q = (f.setBit q).setBit p := by
  unfold setBit
  split_ifs <;> simp_all
  by_cases hbyte : p / 8 = q / 8
  · rw [hbyte, List.modify_modify_eq, List.modify_modify_eq]
    congr 1
    funext byte
    show byte ||| mask p ||| mask q = byte ||| mask q ||| mask p
    rw [UInt8.or_assoc, UInt8.or_comm (mask p), ← UInt8.or_assoc]
  · rw [List.modify_modify_ne _ _ _ hbyte]

theorem setBit_idem (f : BloomFilter) (p : Nat) : (f.setBit p).setBit p = f.setBit p := by
  unfold setBit
  split_ifs <;> simp_all
  rw [List.modify_modify_eq]
  congr 1
  funext byte
  simp [UInt8.or_assoc]

theorem addAll_eq (f : BloomFilter) (keys : List Bytes) : f.addAll keys = (keys.flatMap f.hashValues).foldl setBit f := by
  induction keys generalizing f with
  | nil => rfl
  | cons key keys ih =>
    have hvalues : (f.add key).hashValues = f.hashValues := funext fun k => hashValues_add f key k
    rw [addAll_cons, ih, hvalues, List.flatMap_cons, List.foldl_append]
    rfl

theorem addAll_congr (f : BloomFilter) {keys keys' : List Bytes} (h : ∀ k, k ∈ keys ↔ k ∈ keys') :
    f.addAll keys = f.addAll keys' := by
  rw [addAll_eq, addAll_eq]
  refine foldl_congr_mem setBit_comm setBit_idem f fun p => ?_
  simp only [List.mem_flatMap, h]

theorem addAll_append (f : BloomFilter) (keys more : List Bytes) : (f.addAll keys).addAll more = f.addAll (keys ++ more) :=
  List.foldl_append.symm

theorem Of.addAll {f : BloomFilter} (h : f.Of fed) (keys : List Bytes) :
    (f.addAll keys).Of ⟨fed.numBits, fed.numHashes, fed.keys ++ keys⟩ := by
  induction keys generalizing f fed with
  | nil => simpa using h
  | cons key keys ih => simpa [Fed.add] using ih (h.add key)

theorem Fed.Claims.more {numBits numHashes : Nat} {keys : List Bytes} {key : Bytes} (h : Fed.Claims ⟨numBits, numHashes, keys⟩ key)
    (more : List Bytes) : Fed.Claims ⟨numBits, numHashes, keys ++ more⟩ key := by
  intro p hp
  obtain ⟨k, hk, hpk⟩ := h p hp
  exact ⟨k, List.mem_append_left more hk, hpk⟩

/-- A filter of any size: what was added is found, in whatever order and however often it
was added, also after more was added, and the filter comes back from its bytes. -/
theorem set_laws {numBits numHashes : Nat} (hpos : 1 ≤ numBits) (hbits : numBits < 2 ^ 64) (hhashes : numHashes < 2 ^ 32)
    (keys : List Bytes) :
    (∀ key ∈ keys, ((withBitsAndHashes numBits numHashes).addAll keys).mayContain key = true) ∧
      (∀ keys', (∀ k, k ∈ keys' ↔ k ∈ keys) →
        ((withBitsAndHashes numBits numHashes).addAll keys').bits = ((withBitsAndHashes numBits numHashes).addAll keys).bits) ∧
      (∀ key more, ((withBitsAndHashes numBits numHashes).addAll keys).mayContain key = true →
        (((withBitsAndHashes numBits numHashes).addAll keys).addAll more).mayContain key = true) ∧
      ∃ f, decode ((withBitsAndHashes numBits numHashes).addAll keys).encode = .ok f ∧
        f = (withBitsAndHashes numBits numHashes).addAll keys ∧
        ∀ key, f.mayContain key = ((withBitsAndHashes numBits numHashes).addAll keys).mayContain key := by
  have hof : ∀ keys, ((withBitsAndHashes numBits numHashes).addAll keys).Of ⟨numBits, numHashes, keys⟩ := fun keys => by
    simpa using (withBitsAndHashes_of hpos hbits hhashes).addAll keys
  refine ⟨fun key hkey => ?_, fun keys' h => ?_, fun key more h => ?_, ?_⟩
  · exact (hof keys).mayContain_iff key |>.mpr (Fed.claims_of_mem hkey)
  · rw [addAll_congr _ h]
  · rw [addAll_append]
    exact (hof _).mayContain_iff key |>.mpr (((hof keys).mayContain_iff key |>.mp h).more more)
  · exact ⟨_, (hof keys).decode_encode, rfl, fun _ => rfl⟩

theorem set_laws_nineBits :
    ((withBitsAndHashes 9 3).addAll [[97], [98]]).mayContain [97] = true ∧
      ((withBitsAndHashes 9 3).addAll [[98], [97], [98]]).bits = ((withBitsAndHashes 9 3).addAll [[97], [98]]).bits := by
  obtain ⟨hadded, hset, -⟩ := set_laws (by decide : 1 ≤ 9) (by decide) (by decide : 3 < 2 ^ 32) [[97], [98]]
  exact ⟨hadded [97] (by decide), hset [[98], [97], [98]] (by simp)⟩

-- ---------------------------------------------------------------------------
-- Queries that may stop
-- ---------------------------------------------------------------------------

/-- The loop of `hash_values`; the remainder stops on a filter without bits. -/
def hashPositionsChecked (f : BloomFilter) (hash1 hash2 : UInt32) : List Nat → Outcome Empty (List Nat)
  | [] => .ok []
  | i :: is => do
    let pos ← .rem (hash1 + UInt32.ofNat i * hash2).toNat f.numBits
    return pos :: (← f.hashPositionsChecked hash1 hash2 is)

def hashValuesChecked (f : BloomFilter) (key : Bytes) : Outcome Empty (List Nat) :=
  f.hashPositionsChecked (Filter.hashWithSeed key 0xbc9f1d34) (Filter.hashWithSeed key 0xd0e89c7b) (List.range f.numHashes)

def setBitChecked (f : BloomFilter) (pos : Nat) : Outcome Empty BloomFilter :=
  if pos < f.numBits then do
    let byte ← .index f.bits (pos / 8)
    return { f with bits := f.bits.set (pos / 8) (byte ||| mask pos) }
  else .ok f

def isBitSetChecked (f : BloomFilter) (pos : Nat) : Outcome Empty Bool :=
  if pos < f.numBits then do
    let byte ← .index f.bits (pos / 8)
    return byte &&& mask pos ≠ 0
  else .ok false

def areBitsSetChecked (f : BloomFilter) : List Nat → Outcome Empty Bool
  | [] => .ok true
  | pos :: rest => do
    if ← f.isBitSetChecked pos then f.areBitsSetChecked rest else return false

def mayContainChecked (f : BloomFilter) (key : Bytes) : Outcome Empty Bool := do
  f.areBitsSetChecked (← f.hashValuesChecked key)

def setBitsChecked (f : BloomFilter) : List Nat → Outcome Empty BloomFilter
  | [] => .ok f
  | pos :: rest => do (← f.setBitChecked pos).setBitsChecked rest

def addChecked (f : BloomFilter) (key : Bytes) : Outcome Empty BloomFilter := do
  f.setBitsChecked (← f.hashValuesChecked key)

variable {f : BloomFilter}

theorem hashPositionsChecked_eq (h : f.numBits ≠ 0) (hash1 hash2 : UInt32) (is : List Nat) :
    f.hashPositionsChecked hash1 hash2 is = .ok (is.map fun i => (hash1 + UInt32.ofNat i * hash2).toNat % f.numBits) := by
  induction is with
  | nil => rfl
  | cons i is ih => simp [hashPositionsChecked, Outcome.rem_eq h, ih]

theorem hashValuesChecked_eq (h : f.numBits ≠ 0 ∨ f.numHashes = 0) (key : Bytes) :
    f.hashValuesChecked key = .ok (f.hashValues key) := by
  rcases h with h | h
  · exact hashPositionsChecked_eq h _ _ _
  · simp [hashValuesChecked, hashPositionsChecked, hashValues, Filter.hashValues, h]

theorem hashValuesChecked_stopped (hbits : f.numBits = 0) (hhashes : f.numHashes ≠ 0) (key : Bytes) :
    f.hashValuesChecked key = .stopped := by
  obtain ⟨n, hn⟩ := Nat.exists_eq_succ_of_ne_zero hhashes
  simp [hashValuesChecked, hn, List.range_succ_eq_map, hashPositionsChecked, hbits]

theorem Sized.byte_lt (h : f.Sized) (hpos : pos < f.numBits) : pos / 8 < f.bits.length := by
  rw [h, numBytes]
  omega

theorem setBitChecked_eq (h : f.Sized) (pos : Nat) : f.setBitChecked pos = .ok (f.setBit pos) := by
  unfold setBitChecked setBit
  split_ifs with hpos
  · have hlt := h.byte_lt hpos
    rw [Outcome.index_eq hlt, Outcome.ok_bind, List.modify_eq_set_get _ hlt]
    rfl
  · rfl

theorem isBitSetChecked_eq (h : f.Sized) (pos : Nat) : f.isBitSetChecked pos = .ok (f.isBitSet pos) := by
  unfold isBitSetChecked isBitSet
  split_ifs with hpos
  · have hlt := h.byte_lt hpos
    rw [Outcome.index_eq hlt, Outcome.ok_bind, List.getD_eq_getElem _ _ hlt]
    rfl
  · rfl

theorem areBitsSetChecked_eq (h : f.Sized) (ps : List Nat) : f.areBitsSetChecked ps = .ok (ps.all f.isBitSet) := by
  induction ps with
  | nil => rfl
  | cons p ps ih =>
    rw [areBitsSetChecked, isBitSetChecked_eq h, Outcome.ok_bind, List.all_cons]
    cases hset : f.isBitSet p <;> simp [ih]

theorem setBitsChecked_eq (h : f.Sized) (ps : List Nat) : f.setBitsChecked ps = .ok (ps.foldl setBit f) := by
  induction ps generalizing f with
  | nil => rfl
  | cons p ps ih => rw [setBitsChecked, setBitChecked_eq h, Outcome.ok_bind, ih (h.setBit p), List.foldl_cons]

/-- A filter whose bytes are enough for its bits does what the plain functions say. -/
theorem mayContainChecked_eq (h : f.Sized) (hbits : f.numBits ≠ 0 ∨ f.numHashes = 0) (key : Bytes) :
    f.mayContainChecked key = .ok (f.mayContain key) := by
  rw [mayContainChecked, hashValuesChecked_eq hbits, Outcome.ok_bind, areBitsSetChecked_eq h]
  rfl

theorem addChecked_eq (h : f.Sized) (hbits : f.numBits ≠ 0 ∨ f.numHashes = 0) (key : Bytes) :
    f.addChecked key = .ok (f.add key) := by
  rw [addChecked, hashValuesChecked_eq hbits, Outcome.ok_bind, setBitsChecked_eq h]
  rfl

theorem decode_eq_ok {data : Bytes} (h : decode data = .ok f) :
    f.Sized ∧ f.numHashes = fromLe (data.take 4) ∧ f.numBits = fromLe ((data.drop 4).take 8) := by
  unfold decode at h
  dsimp only at h
  split_ifs at h with hshort hsize
  cases h
  refine ⟨?_, rfl, rfl⟩
  simp only [Sized, List.length_drop]
  omega

/-- Of a decoded filter every query and every add returns just if its header has bits, or
has no hash positions. -/
theorem decoded_safe_iff {data : Bytes} (h : decode data = .ok f) :
    (∀ key, (f.mayContainChecked key).Returns ∧ (f.addChecked key).Returns) ↔
      fromLe ((data.drop 4).take 8) ≠ 0 ∨ fromLe (data.take 4) = 0 := by
  obtain ⟨hsized, hhashes, hbits⟩ := decode_eq_ok h
  rw [← hhashes, ← hbits]
  constructor
  · intro hreturns
    by_contra hnot
    obtain ⟨hzero, hsome⟩ := not_or.mp hnot
    have hquery := (hreturns []).1
    rw [mayContainChecked, hashValuesChecked_stopped (not_not.mp hzero) hsome] at hquery
    exact Outcome.not_returns_stopped hquery
  · intro hsafe key
    rw [mayContainChecked_eq hsized hsafe, addChecked_eq hsized hsafe]
    exact ⟨Outcome.returns_ok _, Outcome.returns_ok _⟩

theorem decoded_safe_iff_eightBits :
    decode ([1, 0, 0, 0] ++ [8, 0, 0, 0, 0, 0, 0, 0] ++ [0]) = .ok ⟨[0], 1, 8⟩ ∧
      ∀ key, (mayContainChecked ⟨[0], 1, 8⟩ key).Returns ∧ (addChecked ⟨[0], 1, 8⟩ key).Returns := by
  have hdecode : decode ([1, 0, 0, 0] ++ [8, 0, 0, 0, 0, 0, 0, 0] ++ [0]) = .ok ⟨[0], 1, 8⟩ := by decide +kernel
  exact ⟨hdecode, (decoded_safe_iff hdecode).mpr (.inl (by decide))⟩

theorem not_decoded_safe_noBits :
    decode ([1, 0, 0, 0] ++ [0, 0, 0, 0, 0, 0, 0, 0]) = .ok ⟨[], 1, 0⟩ ∧ ¬(mayContainChecked ⟨[], 1, 0⟩ [97]).Returns := by
  refine ⟨by decide +kernel, ?_⟩
  rw [mayContainChecked, hashValuesChecked_stopped rfl (by decide)]
  exact Outcome.not_returns_stopped

end BloomFilter

end AiDb.Sstable
