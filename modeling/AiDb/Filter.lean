import AiDb.Bytes

/-!
# The Bloom filter of a table

The builder adds every key of a table to one filter of 100 000 bits with seven
hash positions for each key. The filter is given here by the keys added to it:
a bit is set when some added key has it among its positions.
-/

namespace AiDb.Filter

def fnvOffsetBasis : UInt64 := 0xcbf29ce484222325
def fnvPrime : UInt64 := 0x100000001b3

def fnvWrite (state : UInt64) (bytes : Bytes) : UInt64 :=
  bytes.foldl (fun s b => (s ^^^ b.toUInt64) * fnvPrime) state

/-- `BloomFilter::hash_with_seed`. Hashing a slice writes its length first. -/
def hashWithSeed (key : Bytes) (seed : UInt32) : UInt32 :=
  (fnvWrite (fnvWrite (fnvOffsetBasis ^^^ seed.toUInt64) (leBytes 8 key.length)) key).toUInt32

/-- `BloomFilter::hash_values`: position `i` is `h1 + i * h2`, wrapping, modulo
the number of bits. -/
def hashValues (numHashes numBits : Nat) (key : Bytes) : List Nat :=
  let hash1 := hashWithSeed key 0xbc9f1d34
  let hash2 := hashWithSeed key 0xd0e89c7b
  (List.range numHashes).map fun i => (hash1 + UInt32.ofNat i * hash2).toNat % numBits

/-- `BloomFilter::default_with_keys(10000)`: ten bits for each key. -/
def defaultBits : Nat := 100000
def defaultHashes : Nat := 7

def mayContain (keys : List Bytes) (key : Bytes) : Bool :=
  (hashValues defaultHashes defaultBits key).all fun pos =>
    keys.any fun k => pos ∈ hashValues defaultHashes defaultBits k

theorem mayContain_of_mem (h : key ∈ keys) : mayContain keys key = true := by
  simp only [mayContain, List.all_eq_true, List.any_eq_true, decide_eq_true_eq]
  intro pos hpos
  exact ⟨key, h, hpos⟩

end AiDb.Filter
