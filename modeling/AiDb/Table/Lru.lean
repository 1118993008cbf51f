import AiDb.Table.SharedCursor

/-!
# The block cache in one thread

The queue of the cache lists its keys, each once, and its size is that of its blocks.
So an insert always finds room: the loop that evicts would spin on an empty queue, and
with an empty queue the cache is empty.
-/

namespace AiDb

namespace BlockCache

def get (c : BlockCache) (key : CacheKey) : Option Bytes × BlockCache :=
  match c.lookup key with
  | some data => (some data, c.touch key)
  | none => (none, c)

def evictOne (c : BlockCache) : BlockCache :=
  match c.lruQueue with
  | [] => c
  | victim :: rest => { c with lruQueue := rest }.remove victim

/-- The loop of `insert`. A queue of so many keys is empty after as many rounds, and on
an empty queue the loop spins. -/
def makeRoom (size : Nat) : (rounds : Nat) → BlockCache → Option BlockCache
  | 0, c => if c.capacity < c.currentSize + size then none else some c
  | rounds + 1, c => if c.capacity < c.currentSize + size then makeRoom size rounds c.evictOne else some c

def insert (c : BlockCache) (key : CacheKey) (value : Bytes) : Option BlockCache :=
  if c.capacity = 0 then some c
  else if c.capacity < value.length then some c
  else (c.makeRoom value.length c.lruQueue.length).map (·.store key value)

def clear (c : BlockCache) : BlockCache := { c with cache := fun _ => none, lruQueue := [], currentSize := 0 }

def sizeOf (c : BlockCache) (key : CacheKey) : Nat := ((c.cache key).map List.length).getD 0

structure Sound (c : BlockCache) : Prop where
  nodup : c.lruQueue.Nodup
  mem_iff : ∀ key, key ∈ c.lruQueue ↔ (c.cache key).isSome
  size_eq : c.currentSize = (c.lruQueue.map c.sizeOf).sum

/-- The keys are those of the cache, each once, and its size is that of their blocks. -/
structure Accounts (c : BlockCache) (keys : List CacheKey) : Prop where
  nodup : keys.Nodup
  mem_iff : ∀ key, key ∈ keys ↔ (c.cache key).isSome
  size_eq : c.currentSize = (keys.map c.sizeOf).sum

def Within (c old : BlockCache) : Prop := ∀ key data, c.cache key = some data → old.cache key = some data

theorem Within.refl (c : BlockCache) : c.Within c := fun _ _ => id

theorem Within.trans {c₁ c₂ c₃ : BlockCache} (h : c₁.Within c₂) (h' : c₂.Within c₃) : c₁.Within c₃ :=
  fun key data hc => h' key data (h key data hc)

variable {c : BlockCache}

theorem sound_new (capacity : Nat) : (new capacity).Sound where
  nodup := List.nodup_nil
  mem_iff key := by simp [new]
  size_eq := rfl

theorem sound_clear (c : BlockCache) : c.clear.Sound where
  nodup := List.nodup_nil
  mem_iff key := by simp [clear]
  size_eq := rfl

theorem Sound.accounts (h : c.Sound) : c.Accounts c.lruQueue := ⟨h.nodup, h.mem_iff, h.size_eq⟩

theorem Accounts.sound (h : c.Accounts c.lruQueue) : c.Sound := ⟨h.nodup, h.mem_iff, h.size_eq⟩

theorem Accounts.perm (h : c.Accounts keys) (hperm : keys'.Perm keys) : c.Accounts keys' where
  nodup := hperm.nodup_iff.mpr h.nodup
  mem_iff key := hperm.mem_iff.trans (h.mem_iff key)
  size_eq := h.size_eq.trans (hperm.map _).sum_eq.symm

theorem touch_queue_perm (hkey : key ∈ c.lruQueue) : (c.touch key).lruQueue.Perm c.lruQueue :=
  (List.perm_append_singleton _ _).trans (List.perm_cons_erase hkey).symm

theorem Sound.touch (h : c.Sound) (hkey : key ∈ c.lruQueue) : (c.touch key).Sound := by
  have haccounts := h.accounts.perm (touch_queue_perm hkey)
  exact ⟨haccounts.nodup, haccounts.mem_iff, haccounts.size_eq⟩

theorem mem_of_lookup (h : c.Sound) (hl : c.lookup key = some data) : c.cache key = some data ∧ key ∈ c.lruQueue := by
  unfold lookup at hl
  split_ifs at hl
  exact ⟨hl, (h.mem_iff key).mpr (by rw [hl]; rfl)⟩

@[simp] theorem remove_lruQueue (c : BlockCache) (key : CacheKey) : (c.remove key).lruQueue = c.lruQueue := by
  unfold remove
  split <;> rfl

@[simp] theorem remove_capacity (c : BlockCache) (key : CacheKey) : (c.remove key).capacity = c.capacity := by
  unfold remove
  split <;> rfl

theorem remove_currentSize (c : BlockCache) (key : CacheKey) : (c.remove key).currentSize = c.currentSize - c.sizeOf key := by
  unfold remove sizeOf
  split <;> simp [*]

theorem remove_within (c : BlockCache) (key : CacheKey) : (c.remove key).Within c := by
  intro k data hk
  rw [remove_cache, Function.update_apply] at hk
  split at hk
  · cases hk
  · exact hk

theorem Accounts.remove (h : c.Accounts keys) (key : CacheKey) : (c.remove key).Accounts (keys.erase key) where
  nodup := h.nodup.erase key
  mem_iff k := by
    rw [h.nodup.mem_erase_iff, h.mem_iff, remove_cache]
    by_cases hk : k = key <;> simp [hk]
  size_eq := by
    have hsizes : (keys.erase key).map (c.remove key).sizeOf = (keys.erase key).map c.sizeOf := by
      refine List.map_congr_left fun k hk => ?_
      have hne : k ≠ key := (h.nodup.mem_erase_iff.mp hk).1
      simp [sizeOf, remove_cache, hne]
    rw [remove_currentSize, hsizes, h.size_eq]
    by_cases hmem : key ∈ keys
    · rw [((List.perm_cons_erase hmem).map c.sizeOf).sum_eq, List.map_cons, List.sum_cons, Nat.add_sub_cancel_left]
    · have hnone : c.cache key = none := by simpa [h.mem_iff] using hmem
      rw [List.erase_of_not_mem hmem]
      simp [sizeOf, hnone]

theorem Sound.removed (h : c.Sound) (hq : c.lruQueue = victim :: rest) :
    ({ c with lruQueue := rest }.remove victim).Sound := by
  have hfront : Accounts { c with lruQueue := rest } c.lruQueue := ⟨h.nodup, h.mem_iff, h.size_eq⟩
  have haccounts := hfront.remove victim
  rw [hq, List.erase_cons_head] at haccounts
  refine Accounts.sound ?_
  rw [remove_lruQueue]
  exact haccounts

theorem makeRoom_spec (size : Nat) (h : c.Sound) (hfits : size ≤ c.capacity) (hrounds : c.lruQueue.length = rounds) :
    ∃ c' evicted, makeRoom size rounds c = some c' ∧ c.lruQueue = evicted ++ c'.lruQueue ∧ c'.Sound ∧ c'.Within c ∧
      c'.capacity = c.capacity ∧ c'.currentSize + size ≤ c.capacity := by
  induction rounds generalizing c with
  | zero =>
    have hnil : c.lruQueue = [] := List.length_eq_zero_iff.mp hrounds
    have hempty : c.currentSize = 0 := by simpa [hnil] using h.size_eq
    refine ⟨c, [], ?_, rfl, h, .refl c, rfl, by omega⟩
    rw [makeRoom, if_neg (by omega)]
  | succ rounds ih =>
    rw [makeRoom]
    split
    · obtain ⟨victim, rest, hq⟩ := List.exists_cons_of_length_eq_add_one hrounds
      have hevict : c.evictOne = { c with lruQueue := rest }.remove victim := by simp [evictOne, hq]
      have hrest : ({ c with lruQueue := rest }.remove victim).lruQueue.length = rounds := by
        rw [remove_lruQueue]
        simpa [hq] using hrounds
      rw [hevict]
      obtain ⟨c', evicted, hc', hqueue, hsound, hwithin, hcapacity, hroom⟩ := ih (h.removed hq) (by simpa using hfits) hrest
      rw [remove_lruQueue] at hqueue
      rw [remove_capacity] at hcapacity hroom
      refine ⟨c', victim :: evicted, hc', ?_, hsound, hwithin.trans (remove_within _ victim), hcapacity, hroom⟩
      rw [hq, List.cons_append, ← hqueue]
    · exact ⟨c, [], rfl, rfl, h, .refl c, rfl, by omega⟩

theorem Sound.store_lruQueue (h : c.Sound) (key : CacheKey) (value : Bytes) :
    (c.store key value).lruQueue = c.lruQueue.filter (· ≠ key) ++ [key] := by
  cases hkey : c.cache key with
  | none =>
    have hall : ∀ k ∈ c.lruQueue, decide (k ≠ key) = true := fun k hk =>
      decide_eq_true fun heq => by simpa [heq, hkey] using (h.mem_iff k).mp hk
    rw [List.filter_eq_self.mpr hall]
    simp [BlockCache.store, hkey]
  | some old => simp [BlockCache.store, hkey]

theorem store_currentSize (c : BlockCache) (key : CacheKey) (value : Bytes) :
    (c.store key value).currentSize = c.currentSize - c.sizeOf key + value.length := by
  unfold BlockCache.store sizeOf
  dsimp only
  split <;> simp [*]

@[simp] theorem store_capacity (c : BlockCache) (key : CacheKey) (value : Bytes) :
    (c.store key value).capacity = c.capacity := by
  unfold BlockCache.store
  dsimp only
  split <;> rfl

theorem Accounts.store (h : c.Accounts keys) (key : CacheKey) (value : Bytes) :
    (c.store key value).Accounts (keys.filter (· ≠ key) ++ [key]) where
  nodup := by
    rw [List.nodup_append]
    exact ⟨h.nodup.filter _, List.nodup_singleton _, by simp⟩
  mem_iff k := by
    rw [store_cache]
    by_cases hk : k = key <;> simp [hk, h.mem_iff]
  size_eq := by
    -- what is left of the old blocks is what a removal of the key would leave
    have herase : keys.filter (· ≠ key) = keys.erase key := by
      rw [h.nodup.erase_eq_filter]
      exact List.filter_congr fun k _ => by by_cases hk : k = key <;> simp [hk]
    have hsizes : (keys.erase key).map (c.store key value).sizeOf = (keys.erase key).map (c.remove key).sizeOf := by
      refine List.map_congr_left fun k hk => ?_
      have hne : k ≠ key := (h.nodup.mem_erase_iff.mp hk).1
      simp [sizeOf, store_cache, remove_cache, hne]
    have hrest := (h.remove key).size_eq
    rw [remove_currentSize] at hrest
    rw [store_currentSize, herase, List.map_append, hsizes, List.sum_append, ← hrest]
    simp [sizeOf, store_cache]

theorem Sound.store (h : c.Sound) (key : CacheKey) (value : Bytes) : (c.store key value).Sound := by
  refine Accounts.sound ?_
  rw [h.store_lruQueue]
  exact h.accounts.store key value

theorem insert_spec (h : c.Sound) (key : CacheKey) (value : Bytes) : ∃ c', c.insert key value = some c' ∧ c'.Sound ∧
    ∀ k data, c'.cache k = some data → c.cache k = some data ∨ k = key ∧ data = value := by
  unfold insert
  split_ifs with hzero hlarge
  · exact ⟨c, rfl, h, fun _ _ => .inl⟩
  · exact ⟨c, rfl, h, fun _ _ => .inl⟩
  · obtain ⟨c', -, hc', -, hsound, hwithin, -⟩ := makeRoom_spec value.length h (not_lt.mp hlarge) rfl
    refine ⟨c'.store key value, by rw [hc']; rfl, hsound.store key value, fun k data hk => ?_⟩
    rw [store_cache, Function.update_apply] at hk
    split at hk
    · exact .inr ⟨‹_›, (Option.some.inj hk).symm⟩
    · exact .inl (hwithin k data hk)

end BlockCache

-- ---------------------------------------------------------------------------
-- The cache of a handle
-- ---------------------------------------------------------------------------

structure SharedCache where
  cache : BlockCache
  sound : cache.Sound

namespace SharedCache

def new (capacity : Nat) : SharedCache := ⟨.new capacity, BlockCache.sound_new capacity⟩

def find (c : SharedCache) (key : CacheKey) : Option Bytes := c.cache.cache key

theorem get_sound (c : SharedCache) (key : CacheKey) : (c.cache.get key).2.Sound := by
  unfold BlockCache.get
  split
  · rename_i hl
    exact c.sound.touch (BlockCache.mem_of_lookup c.sound hl).2
  · exact c.sound

def get (c : SharedCache) (key : CacheKey) : Option Bytes × SharedCache :=
  ((c.cache.get key).1, ⟨(c.cache.get key).2, c.get_sound key⟩)

theorem insert_isSome (c : SharedCache) (key : CacheKey) (value : Bytes) : (c.cache.insert key value).isSome := by
  obtain ⟨c', hc', -⟩ := BlockCache.insert_spec c.sound key value
  simp [hc']

theorem insert_sound (c : SharedCache) (key : CacheKey) (value : Bytes) :
    ((c.cache.insert key value).get (c.insert_isSome key value)).Sound := by
  obtain ⟨c', hc', hsound, -⟩ := BlockCache.insert_spec c.sound key value
  simpa [hc'] using hsound

def insert (c : SharedCache) (key : CacheKey) (value : Bytes) : SharedCache :=
  ⟨(c.cache.insert key value).get (c.insert_isSome key value), c.insert_sound key value⟩

def clear (c : SharedCache) : SharedCache := ⟨c.cache.clear, c.cache.sound_clear⟩

@[simp] theorem find_new (capacity : Nat) (key : CacheKey) : (new capacity).find key = none := rfl

@[simp] theorem find_clear (c : SharedCache) (key : CacheKey) : c.clear.find key = none := rfl

@[simp] theorem find_get (c : SharedCache) (key k : CacheKey) : (c.get key).2.find k = c.find k := by
  unfold get find BlockCache.get
  dsimp only
  split <;> rfl

theorem get_eq_some {c : SharedCache} (h : (c.get key).1 = some data) : c.find key = some data := by
  unfold get BlockCache.get at h
  dsimp only at h
  split at h
  · rename_i d hl
    cases h
    exact (BlockCache.mem_of_lookup c.sound hl).1
  · cases h

theorem find_insert {c : SharedCache} (h : (c.insert key value).find k = some data) :
    c.find k = some data ∨ k = key ∧ data = value := by
  obtain ⟨c', hc', -, hfind⟩ := BlockCache.insert_spec c.sound key value
  refine hfind k data ?_
  unfold insert find at h
  simpa [hc'] using h

end SharedCache

end AiDb
