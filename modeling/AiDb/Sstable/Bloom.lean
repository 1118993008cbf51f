import AiDb.Filter

/-!
# The Bloom filter as a bit array

The filter that a table stores: the bits as bytes, with their number and the number
of hash positions before them. A bit is set exactly when some key added to the
filter has it among its positions, so the stored filter answers as the set of keys
does.
-/

namespace AiDb.Sstable

structure BloomFilter where
  bits : Bytes
  numHashes : Nat
  numBits : Nat
  deriving DecidableEq

def numBytes (numBits : Nat) : Nat := (numBits + 7) / 8

namespace BloomFilter

def withBitsAndHashes (numBits numHashes : Nat) : BloomFilter :=
  ⟨List.replicate (numBytes numBits) 0, numHashes, numBits⟩

def default : BloomFilter := withBitsAndHashes Filter.defaultBits Filter.defaultHashes

def mask (pos : Nat) : UInt8 := 1 <<< UInt8.ofNat (pos % 8)

def setBit (f : BloomFilter) (pos : Nat) : BloomFilter :=
  if pos < f.numBits then { f with bits := f.bits.modify (pos / 8) (· ||| mask pos) } else f

def isBitSet (f : BloomFilter) (pos : Nat) : Bool :=
  if pos < f.numBits then f.bits.getD (pos / 8) 0 &&& mask pos ≠ 0 else false

def hashValues (f : BloomFilter) (key : Bytes) : List Nat := Filter.hashValues f.numHashes f.numBits key

def mayContain (f : BloomFilter) (key : Bytes) : Bool := (f.hashValues key).all f.isBitSet

def add (f : BloomFilter) (key : Bytes) : BloomFilter := (f.hashValues key).foldl setBit f

def encode (f : BloomFilter) : Bytes := leBytes 4 f.numHashes ++ leBytes 8 f.numBits ++ f.bits

def decode (data : Bytes) : Except Error BloomFilter :=
  if data.length < 12 then .error (.corruption "Bloom filter data too short")
  else
    let numHashes := fromLe (data.take 4)
    let numBits := fromLe ((data.drop 4).take 8)
    if data.length ≠ 12 + numBytes numBits then .error (.corruption "Bloom filter size mismatch")
    else .ok ⟨data.drop 12, numHashes, numBits⟩

-- ---------------------------------------------------------------------------
-- Bits
-- ---------------------------------------------------------------------------

theorem and_mask_or_mask (byte : UInt8) (p q : Nat) :
    (byte ||| mask p) &&& mask q ≠ 0 ↔ p % 8 = q % 8 ∨ byte &&& mask q ≠ 0 := by
  have hall : ∀ b : Fin 256, ∀ i j : Fin 8,
      (UInt8.ofNat b ||| 1 <<< UInt8.ofNat i) &&& 1 <<< UInt8.ofNat j ≠ 0 ↔
        i = j ∨ UInt8.ofNat b &&& 1 <<< UInt8.ofNat j ≠ 0 := by decide +kernel
  have h := hall ⟨byte.toNat, byte.toNat_lt⟩ ⟨p % 8, Nat.mod_lt p (by decide)⟩ ⟨q % 8, Nat.mod_lt q (by decide)⟩
  simpa [mask] using h

def Sized (f : BloomFilter) : Prop := f.bits.length = numBytes f.numBits

theorem setBit_numBits (f : BloomFilter) (pos : Nat) : (f.setBit pos).numBits = f.numBits := by
  unfold setBit
  split <;> rfl

theorem setBit_numHashes (f : BloomFilter) (pos : Nat) : (f.setBit pos).numHashes = f.numHashes := by
  unfold setBit
  split <;> rfl

theorem Sized.setBit {f : BloomFilter} (h : f.Sized) (pos : Nat) : (f.setBit pos).Sized := by
  unfold BloomFilter.setBit
  split
  · simpa [Sized] using h
  · exact h

theorem isBitSet_setBit {f : BloomFilter} (h : f.Sized) (hp : p < f.numBits) (hq : q < f.numBits) :
    (f.setBit p).isBitSet q = true ↔ p = q ∨ f.isBitSet q = true := by
  have hlen : q / 8 < f.bits.length := by
    rw [h, numBytes]
    omega
  unfold setBit
  rw [if_pos hp]
  simp only [isBitSet, if_pos hq, List.getD_eq_getElem?_getD, List.getElem?_modify, List.getElem?_eq_getElem hlen]
  by_cases hbyte : p / 8 = q / 8
  · have heq : p % 8 = q % 8 ↔ p = q := by omega
    simp [hbyte, and_mask_or_mask, heq]
  · have hne : p ≠ q := by
      rintro rfl
      exact hbyte rfl
    simp [hbyte, hne]

theorem foldl_setBit {f : BloomFilter} {ps : List Nat} (h : f.Sized) (hps : ∀ p ∈ ps, p < f.numBits) :
    (ps.foldl setBit f).Sized ∧ ∀ q < f.numBits, ((ps.foldl setBit f).isBitSet q = true ↔ q ∈ ps ∨ f.isBitSet q = true) := by
  induction ps generalizing f with
  | nil => simp [h]
  | cons p ps ih =>
    have hp := hps p List.mem_cons_self
    obtain ⟨hs, hset⟩ := ih (h.setBit p) fun x hx => by
      rw [setBit_numBits]
      exact hps x (List.mem_cons_of_mem p hx)
    rw [List.foldl_cons]
    refine ⟨hs, fun q hq => ?_⟩
    rw [hset q (by rwa [setBit_numBits]), isBitSet_setBit h hp hq, List.mem_cons]
    tauto

theorem hashValues_lt {k m : Nat} (h : 0 < m) (key : Bytes) : ∀ p ∈ Filter.hashValues k m key, p < m := by
  intro p hp
  simp only [Filter.hashValues, List.mem_map] at hp
  obtain ⟨i, -, rfl⟩ := hp
  exact Nat.mod_lt _ h

-- ---------------------------------------------------------------------------
-- The filter of a table
-- ---------------------------------------------------------------------------

/-- A filter by its sizes and the keys added to it. -/
structure Fed where
  numBits : Nat
  numHashes : Nat
  keys : List Bytes

def Fed.default : Fed := ⟨Filter.defaultBits, Filter.defaultHashes, []⟩

def Fed.add (fed : Fed) (key : Bytes) : Fed := { fed with keys := fed.keys ++ [key] }

def Fed.Claims (fed : Fed) (key : Bytes) : Prop :=
  ∀ p ∈ Filter.hashValues fed.numHashes fed.numBits key, ∃ k ∈ fed.keys, p ∈ Filter.hashValues fed.numHashes fed.numBits k

structure Of (f : BloomFilter) (fed : Fed) : Prop where
  numBits : f.numBits = fed.numBits
  numHashes : f.numHashes = fed.numHashes
  sized : f.Sized
  pos : 0 < f.numBits
  numBits_lt : f.numBits < 2 ^ 64
  numHashes_lt : f.numHashes < 2 ^ 32
  bits : ∀ q < f.numBits, (f.isBitSet q = true ↔ ∃ k ∈ fed.keys, q ∈ f.hashValues k)

theorem isBitSet_withBitsAndHashes (numBits numHashes q : Nat) :
    (withBitsAndHashes numBits numHashes).isBitSet q = false := by
  unfold isBitSet withBitsAndHashes
  split
  · by_cases hq : q / 8 < numBytes numBits <;> simp [hq]
  · rfl

theorem withBitsAndHashes_of {numBits numHashes : Nat} (hpos : 0 < numBits) (hbits : numBits < 2 ^ 64)
    (hhashes : numHashes < 2 ^ 32) : (withBitsAndHashes numBits numHashes).Of ⟨numBits, numHashes, []⟩ where
  numBits := rfl
  numHashes := rfl
  sized := by simp [Sized, withBitsAndHashes]
  pos := hpos
  numBits_lt := hbits
  numHashes_lt := hhashes
  bits := by simp [isBitSet_withBitsAndHashes]

theorem default_of : default.Of .default := withBitsAndHashes_of (by decide) (by decide) (by decide)

theorem add_sizes (f : BloomFilter) (key : Bytes) :
    (f.add key).numBits = f.numBits ∧ (f.add key).numHashes = f.numHashes := by
  unfold BloomFilter.add
  induction f.hashValues key generalizing f with
  | nil => exact ⟨rfl, rfl⟩
  | cons p ps ih => exact ⟨(ih _).1.trans (setBit_numBits f p), (ih _).2.trans (setBit_numHashes f p)⟩

@[simp] theorem hashValues_add (f : BloomFilter) (key k : Bytes) : (f.add key).hashValues k = f.hashValues k := by
  rw [hashValues, hashValues, (add_sizes f key).1, (add_sizes f key).2]

theorem Of.add {f : BloomFilter} (h : f.Of fed) (key : Bytes) : (f.add key).Of (fed.add key) := by
  obtain ⟨hs, hset⟩ := foldl_setBit h.sized (hashValues_lt h.pos key)
  obtain ⟨hb, hh⟩ := f.add_sizes key
  refine ⟨hb.trans h.numBits, hh.trans h.numHashes, hs, hb ▸ h.pos, hb ▸ h.numBits_lt, hh ▸ h.numHashes_lt,
    fun q hq => ?_⟩
  have hq' : q < f.numBits := hb ▸ hq
  simp only [hashValues_add]
  rw [BloomFilter.add, hashValues, hset q hq', h.bits q hq']
  simp only [Fed.add, List.mem_append, List.mem_singleton, or_and_right, exists_or, exists_eq_left]
  exact or_comm

theorem Of.mayContain_iff {f : BloomFilter} (h : f.Of fed) (key : Bytes) : f.mayContain key = true ↔ fed.Claims key := by
  unfold BloomFilter.mayContain Fed.Claims
  rw [List.all_eq_true, hashValues, h.numBits, h.numHashes]
  refine forall₂_congr fun p hp => ?_
  have hlt : p < f.numBits := by
    rw [h.numBits]
    exact hashValues_lt (h.numBits ▸ h.pos) key p hp
  rw [h.bits p hlt]
  simp only [hashValues, h.numBits, h.numHashes]

theorem Fed.claims_of_mem {fed : Fed} (h : key ∈ fed.keys) : fed.Claims key := fun _ hp => ⟨key, h, hp⟩

theorem Of.length_encode {f : BloomFilter} (h : f.Of fed) : f.encode.length = 12 + numBytes f.numBits := by
  rw [← h.sized]
  simp [encode]
  omega

theorem Of.decode_encode {f : BloomFilter} (h : f.Of fed) : decode f.encode = .ok f := by
  have hdrop : f.encode.drop 4 = leBytes 8 f.numBits ++ f.bits := by simp [encode]
  have hbits : f.encode.drop 12 = f.bits := List.drop_left' (by simp)
  have htake : f.encode.take 4 = leBytes 4 f.numHashes := by simp [encode]
  have hhashes : fromLe (f.encode.take 4) = f.numHashes := by
    rw [htake]
    exact fromLe_leBytes_of_lt h.numHashes_lt
  have hnum : fromLe ((f.encode.drop 4).take 8) = f.numBits := by
    rw [hdrop, List.take_left' length_leBytes]
    exact fromLe_leBytes_of_lt h.numBits_lt
  unfold decode
  simp only [hhashes, hnum, hbits, h.length_encode]
  rw [if_neg (by omega), if_neg (by simp)]

end BloomFilter

end AiDb.Sstable
