import AiDb.Table.Lru

/-!
# What the block cache keeps

The calls of one thread keep the cache within its capacity. The queue is in the order
in which its keys were last used, so an insert evicts the keys that were used the
longest ago.
-/

namespace AiDb

inductive CacheCall
  | insert (key : CacheKey) (value : Bytes)
  | get (key : CacheKey)
  | clear
  deriving DecidableEq

namespace BlockCache

def Accepts (c : BlockCache) (value : Bytes) : Prop := c.capacity ≠ 0 ∧ value.length ≤ c.capacity

instance decidableAccepts (c : BlockCache) (value : Bytes) : Decidable (c.Accepts value) := by
  unfold Accepts
  infer_instance

def Evicts (c : BlockCache) (size : Nat) (key : CacheKey) : Prop :=
  (c.cache key).isSome ∧ ∀ c', c.makeRoom size c.lruQueue.length = some c' → c'.cache key = none

end BlockCache

/-- A cache with the number of its calls and, for each key, the last one that inserted
or hit it. -/
structure TrackedCache where
  cache : BlockCache
  calls : Nat
  lastUse : CacheKey → Nat

namespace TrackedCache

def new (capacity : Nat) : TrackedCache := ⟨.new capacity, 0, fun _ => 0⟩

def call (t : TrackedCache) : CacheCall → Option TrackedCache
  | .insert key value => (t.cache.insert key value).map fun cache =>
      ⟨cache, t.calls + 1, if t.cache.Accepts value then Function.update t.lastUse key (t.calls + 1) else t.lastUse⟩
  | .get key =>
    let (answer, cache) := t.cache.get key
    some ⟨cache, t.calls + 1, if answer.isSome then Function.update t.lastUse key (t.calls + 1) else t.lastUse⟩
  | .clear => some ⟨t.cache.clear, t.calls + 1, t.lastUse⟩

def run (t : TrackedCache) : List CacheCall → Option TrackedCache
  | [] => some t
  | call :: calls => (t.call call).bind (·.run calls)

end TrackedCache

def latestInsert (capacity : Nat) (key : CacheKey) : List CacheCall → Option Bytes
  | [] => none
  | .insert k value :: calls =>
    (latestInsert capacity key calls).or (if k = key ∧ value.length ≤ capacity then some value else none)
  | _ :: calls => latestInsert capacity key calls

theorem latestInsert_append (capacity : Nat) (key : CacheKey) (calls more : List CacheCall) :
    latestInsert capacity key (calls ++ more) =
      (latestInsert capacity key more).or (latestInsert capacity key calls) := by
  induction calls with
  | nil => simp [latestInsert]
  | cons call calls ih => cases call <;> simp [latestInsert, ih, Option.or_assoc]

namespace TrackedCache

variable {t : TrackedCache} {capacity : Nat} {calls : List CacheCall}

theorem run_append (calls more : List CacheCall) : t.run (calls ++ more) = (t.run calls).bind (·.run more) := by
  induction calls generalizing t with
  | nil => rfl
  | cons call calls ih =>
    simp only [List.cons_append, run, Option.bind_assoc]
    congr 1
    funext t'
    exact ih

structure Kept (t : TrackedCache) (capacity : Nat) (calls : List CacheCall) : Prop where
  sound : t.cache.Sound
  capacity_eq : t.cache.capacity = capacity
  bounded : t.cache.currentSize ≤ capacity
  latest : ∀ key value, t.cache.cache key = some value → latestInsert capacity key calls = some value
  disabled : capacity = 0 → ∀ key, t.cache.cache key = none
  past : ∀ key, t.lastUse key ≤ t.calls
  ordered : t.cache.lruQueue.Pairwise fun a b => t.lastUse a < t.lastUse b

theorem kept_new (capacity : Nat) : (new capacity).Kept capacity [] where
  sound := BlockCache.sound_new capacity
  capacity_eq := rfl
  bounded := Nat.zero_le _
  latest key value h := by cases h
  disabled _ _ := rfl
  past _ := le_refl _
  ordered := .nil

theorem past_use (h : ∀ key, t.lastUse key ≤ t.calls) (key k : CacheKey) :
    Function.update t.lastUse key (t.calls + 1) k ≤ t.calls + 1 := by
  rw [Function.update_apply]
  split_ifs
  · exact le_refl _
  · exact Nat.le_succ_of_le (h k)

theorem ordered_use {queue : List CacheKey} {key : CacheKey} (h : queue.Pairwise fun a b => t.lastUse a < t.lastUse b)
    (hpast : ∀ key, t.lastUse key ≤ t.calls) (hkey : key ∉ queue) :
    (queue ++ [key]).Pairwise fun a b => Function.update t.lastUse key (t.calls + 1) a <
      Function.update t.lastUse key (t.calls + 1) b := by
  have hne : ∀ k ∈ queue, k ≠ key := fun k hk heq => hkey (heq ▸ hk)
  refine List.pairwise_append.mpr ⟨h.imp_of_mem fun ha hb hlt => ?_, List.pairwise_singleton _ _, fun a ha b hb => ?_⟩
  · simpa [hne _ ha, hne _ hb] using hlt
  · obtain rfl := List.mem_singleton.mp hb
    simpa [hne a ha] using Nat.lt_succ_of_le (hpast a)

theorem insert_ignored (h : ¬t.cache.Accepts value) (key : CacheKey) :
    t.call (.insert key value) = some ⟨t.cache, t.calls + 1, t.lastUse⟩ := by
  have hignored : t.cache.insert key value = some t.cache := by
    unfold BlockCache.insert
    split_ifs with hzero hlarge
    · rfl
    · rfl
    · exact absurd ⟨hzero, not_lt.mp hlarge⟩ h
  simp [call, hignored, h]

theorem insert_accepted (h : t.cache.Accepts value) (key : CacheKey) :
    t.call (.insert key value) = (t.cache.makeRoom value.length t.cache.lruQueue.length).map fun c =>
      ⟨c.store key value, t.calls + 1, Function.update t.lastUse key (t.calls + 1)⟩ := by
  simp only [call, BlockCache.insert, if_neg h.1, if_neg (not_lt.mpr h.2), if_pos h, Option.map_map]
  rfl

theorem Kept.insert_ignored (h : t.Kept capacity calls) (key : CacheKey) (hvalue : ¬t.cache.Accepts value) :
    Kept ⟨t.cache, t.calls + 1, t.lastUse⟩ capacity (calls ++ [.insert key value]) where
  sound := h.sound
  capacity_eq := h.capacity_eq
  bounded := h.bounded
  latest k data hk := by
    have hsize : ¬value.length ≤ capacity := fun hle =>
      hvalue ⟨fun hzero => by simp [h.disabled (h.capacity_eq ▸ hzero)] at hk, h.capacity_eq.symm ▸ hle⟩
    simp [latestInsert_append, latestInsert, hsize, h.latest k data hk]
  disabled := h.disabled
  past k := Nat.le_succ_of_le (h.past k)
  ordered := h.ordered

/-- An insert that is not ignored returns, and leaves what was used later than what it
has evicted. -/
theorem Kept.insert_accepted (h : t.Kept capacity calls) (key : CacheKey) (hvalue : t.cache.Accepts value) :
    ∃ t', t.call (.insert key value) = some t' ∧ t'.Kept capacity (calls ++ [.insert key value]) ∧
      ∀ e s, t.cache.Evicts value.length e → (t'.cache.cache s).isSome → t.lastUse e < t'.lastUse s := by
  obtain ⟨c, evicted, hroom, hqueue, hsound, hwithin, hcapacity, hfits⟩ :=
    BlockCache.makeRoom_spec value.length h.sound hvalue.2 rfl
  have hordered := h.ordered
  rw [hqueue] at hordered
  obtain ⟨-, hkeep, hbefore⟩ := List.pairwise_append.mp hordered
  refine ⟨⟨c.store key value, t.calls + 1, Function.update t.lastUse key (t.calls + 1)⟩,
    by rw [TrackedCache.insert_accepted hvalue, hroom]; rfl, ?_, fun e s he hs => ?_⟩
  · refine ⟨hsound.store key value, ?_, ?_, fun k data hk => ?_, fun hzero => ?_, past_use h.past key, ?_⟩
    · rw [BlockCache.store_capacity, hcapacity, h.capacity_eq]
    · show (c.store key value).currentSize ≤ capacity
      rw [BlockCache.store_currentSize]
      have := h.capacity_eq
      omega
    · have hle : value.length ≤ capacity := h.capacity_eq ▸ hvalue.2
      rw [BlockCache.store_cache, Function.update_apply] at hk
      split at hk
      · simp_all [latestInsert_append, latestInsert]
      · rename_i hne
        simp [latestInsert_append, latestInsert, Ne.symm hne, h.latest k data (hwithin k data hk)]
    · exact absurd (h.capacity_eq.trans hzero) hvalue.1
    · show (c.store key value).lruQueue.Pairwise _
      rw [hsound.store_lruQueue]
      exact ordered_use (hkeep.filter _) h.past (by simp)
  · -- an evicted key was in the part of the queue that the loop took off
    obtain ⟨hcached, hgone⟩ := he
    have hlast : t.lastUse e ≤ t.calls := h.past e
    have hmem : e ∈ evicted := by
      have hin : e ∈ t.cache.lruQueue := (h.sound.mem_iff e).mpr hcached
      rw [hqueue, List.mem_append] at hin
      refine hin.resolve_right fun hstays => ?_
      have := (hsound.mem_iff e).mp hstays
      simp [hgone c hroom] at this
    rw [BlockCache.store_cache] at hs
    show t.lastUse e < Function.update t.lastUse key (t.calls + 1) s
    by_cases hkey : s = key
    · simp only [hkey, Function.update_self]
      omega
    · rw [Function.update_of_ne hkey] at hs
      rw [Function.update_of_ne hkey]
      exact hbefore e hmem s ((hsound.mem_iff s).mpr hs)

/-- What an insert adds up before it compares it with the capacity fits 64 bits. -/
theorem Kept.insert_fits (h : t.Kept capacity calls) (hcapacity : capacity < 2 ^ 63) (hvalue : t.cache.Accepts value) :
    t.cache.currentSize + value.length < 2 ^ 64 := by
  have hbounded := h.bounded
  have hvalue : value.length ≤ capacity := h.capacity_eq ▸ hvalue.2
  omega

theorem Kept.get (h : t.Kept capacity calls) (key : CacheKey) :
    ∃ t', t.call (.get key) = some t' ∧ t'.Kept capacity (calls ++ [.get key]) := by
  have hlatest : ∀ k data, t.cache.cache k = some data →
      latestInsert capacity k (calls ++ [.get key]) = some data := fun k data hk => by
    simp [latestInsert_append, latestInsert, h.latest k data hk]
  refine ⟨_, rfl, ?_⟩
  cases hl : t.cache.lookup key with
  | none =>
    exact ⟨h.sound, h.capacity_eq, h.bounded, hlatest, h.disabled, fun k => Nat.le_succ_of_le (h.past k), h.ordered⟩
  | some data =>
    obtain ⟨-, hmem⟩ := BlockCache.mem_of_lookup h.sound hl
    refine ⟨h.sound.touch hmem, h.capacity_eq, h.bounded, hlatest, h.disabled, past_use h.past key, ?_⟩
    exact ordered_use (h.ordered.sublist List.erase_sublist) h.past h.sound.nodup.not_mem_erase

theorem Kept.clear (h : t.Kept capacity calls) :
    Kept ⟨t.cache.clear, t.calls + 1, t.lastUse⟩ capacity (calls ++ [.clear]) where
  sound := BlockCache.sound_clear t.cache
  capacity_eq := h.capacity_eq
  bounded := Nat.zero_le _
  latest k data hk := by cases hk
  disabled _ _ := rfl
  past k := Nat.le_succ_of_le (h.past k)
  ordered := .nil

theorem Kept.call (h : t.Kept capacity calls) (call : CacheCall) :
    ∃ t', t.call call = some t' ∧ t'.Kept capacity (calls ++ [call]) := by
  cases call with
  | insert key value =>
    by_cases hvalue : t.cache.Accepts value
    · obtain ⟨t', ht', hkept, -⟩ := h.insert_accepted key hvalue
      exact ⟨t', ht', hkept⟩
    · exact ⟨_, TrackedCache.insert_ignored hvalue key, h.insert_ignored key hvalue⟩
  | get key => exact h.get key
  | clear => exact ⟨_, rfl, h.clear⟩

theorem run_kept (capacity : Nat) (calls : List CacheCall) :
    ∃ t, (new capacity).run calls = some t ∧ t.Kept capacity calls := by
  induction calls using List.reverseRecOn with
  | nil => exact ⟨_, rfl, kept_new capacity⟩
  | append_singleton calls call ih =>
    obtain ⟨t, ht, hkept⟩ := ih
    obtain ⟨t', ht', hkept'⟩ := hkept.call call
    exact ⟨t', by simp [run_append, ht, run, ht'], hkept'⟩

end TrackedCache

/-- The block cache in one thread: every call returns, the queue lists the cached keys,
each once, the size is that of the blocks and within the capacity, a hit gives the last
value that was inserted, and an insert evicts what was used the longest ago. -/
theorem cache_bounded_lru (capacity : Nat) (calls : List CacheCall) :
    ∃ t, (TrackedCache.new capacity).run calls = some t ∧
      (∀ key, key ∈ t.cache.lruQueue ↔ (t.cache.cache key).isSome) ∧ t.cache.lruQueue.Nodup ∧
      t.cache.currentSize = (t.cache.lruQueue.map t.cache.sizeOf).sum ∧ t.cache.currentSize ≤ capacity ∧
      (∀ key, (t.cache.get key).1 = none ∨ (t.cache.get key).1 = latestInsert capacity key calls) ∧
      ∀ key value t', t.call (.insert key value) = some t' → t.cache.Accepts value →
        ∀ e s, t.cache.Evicts value.length e → (t'.cache.cache s).isSome → t.lastUse e < t'.lastUse s := by
  obtain ⟨t, ht, hkept⟩ := TrackedCache.run_kept capacity calls
  refine ⟨t, ht, hkept.sound.mem_iff, hkept.sound.nodup, hkept.sound.size_eq, hkept.bounded, fun key => ?_, ?_⟩
  · unfold BlockCache.get
    cases hl : t.cache.lookup key with
    | none => exact .inl rfl
    | some data => exact .inr (hkept.latest key data (BlockCache.mem_of_lookup hkept.sound hl).1).symm
  · intro key value t' hcall hvalue e s he hs
    obtain ⟨t'', ht'', -, hlater⟩ := hkept.insert_accepted key hvalue
    rw [ht''] at hcall
    cases hcall
    exact hlater e s he hs

end AiDb
