import AiDb.Table.Recency

/-!
# The block cache under threads

Every section that a call runs under its locks is one step: the lookup of `get` and its
touch; of `insert` the look at the size, the key that `evict_one` takes off the queue, the
block that it then removes, and the last section; and `clear`. Between two sections of a
call the others go on, so the queue may list a key twice, or one that is not cached. But
a cached key is on the queue or in the hands of an eviction, and the size is that of
the blocks.
-/

namespace AiDb

open Library

/-- Where a call is: before its first section; with the block of a hit, before the touch;
at the head of the loop of `insert`; before the queue pop of `evict_one`; with
the key it took off; before the last section of `insert`; or past its return. -/
inductive CachePc
  | start
  | touching (data : Bytes)
  | testing
  | popping
  | removing (victim : CacheKey)
  | storing
  | returned (answer : Option Bytes)
  deriving DecidableEq

structure CacheThread where
  call : CacheCall
  pc : CachePc

namespace CacheThread

def nextGet (c : BlockCache) (key : CacheKey) : CachePc → Option (BlockCache × CachePc)
  | .start =>
    match c.lookup key with
    | some data => some (c, .touching data)
    | none => some (c, .returned none)
  | .touching data => some (c.touch key, .returned (some data))
  | _ => none

/-- A section of `insert`. On an empty queue `evict_one` does nothing. -/
def nextInsert (c : BlockCache) (key : CacheKey) (value : Bytes) : CachePc → Option (BlockCache × CachePc)
  | .start => some (c, if c.Accepts value then .testing else .returned none)
  | .testing => some (c, if c.capacity < c.currentSize + value.length then .popping else .storing)
  | .popping =>
    match c.lruQueue with
    | [] => some (c, .testing)
    | victim :: rest => some ({ c with lruQueue := rest }, .removing victim)
  | .removing victim => some (c.remove victim, .testing)
  | .storing => some (c.store key value, .returned none)
  | _ => none

def nextClear (c : BlockCache) : CachePc → Option (BlockCache × CachePc)
  | .start => some (c.clear, .returned none)
  | _ => none

def next (c : BlockCache) (t : CacheThread) : Option (BlockCache × CacheThread) :=
  let result :=
    match t.call with
    | .get key => nextGet c key t.pc
    | .insert key value => nextInsert c key value t.pc
    | .clear => nextClear c t.pc
  result.map fun (c, pc) => (c, { t with pc })

end CacheThread

def runCache (capacity : Nat) (calls : List CacheCall) (schedule : List Nat) :
    Option (Config BlockCache CacheThread) :=
  (Config.mk (BlockCache.new capacity) (calls.map (⟨·, .start⟩))).run CacheThread.next schedule

-- ---------------------------------------------------------------------------
-- What a section does
-- ---------------------------------------------------------------------------

/-- The effect on the cache of a section that moves a call from `pc` to `pc'`. -/
inductive SectionEffect (c : BlockCache) (pc pc' : CachePc) : BlockCache → Prop
  | same : (∀ k, pc ≠ .removing k) → SectionEffect c pc pc' c
  | touch (key : CacheKey) : (∀ k, pc ≠ .removing k) → SectionEffect c pc pc' (c.touch key)
  | pop : (∀ k, pc ≠ .removing k) → c.lruQueue = victim :: rest → pc' = .removing victim →
      SectionEffect c pc pc' { c with lruQueue := rest }
  | remove : pc = .removing victim → SectionEffect c pc pc' (c.remove victim)
  | store (key : CacheKey) (value : Bytes) : (∀ k, pc ≠ .removing k) → SectionEffect c pc pc' (c.store key value)
  | clear : SectionEffect c pc pc' c.clear

variable {c c' : BlockCache} {t t' : CacheThread} {pc pc' : CachePc}

theorem CacheThread.nextGet_effect (h : nextGet c key pc = some (c', pc')) : SectionEffect c pc pc' c' := by
  cases pc with
  | start =>
    simp only [nextGet] at h
    split at h <;> cases h <;> exact .same (by simp)
  | touching data =>
    cases h
    exact .touch key (by simp)
  | testing => cases h
  | popping => cases h
  | removing victim => cases h
  | storing => cases h
  | returned answer => cases h

theorem CacheThread.nextInsert_effect (h : nextInsert c key value pc = some (c', pc')) : SectionEffect c pc pc' c' := by
  cases pc with
  | start =>
    cases h
    exact .same (by simp)
  | touching data => cases h
  | testing =>
    cases h
    exact .same (by simp)
  | popping =>
    simp only [nextInsert] at h
    split at h
    · cases h
      exact .same (by simp)
    · rename_i hq
      cases h
      exact .pop (by simp) hq rfl
  | removing victim =>
    cases h
    exact .remove rfl
  | storing =>
    cases h
    exact .store key value (by simp)
  | returned answer => cases h

theorem CacheThread.next_effect (h : next c t = some (c', t')) : SectionEffect c t.pc t'.pc c' := by
  obtain ⟨⟨c1, pc1⟩, hresult, heq⟩ := Option.map_eq_some_iff.mp h
  cases heq
  split at hresult
  · exact nextGet_effect hresult
  · exact nextInsert_effect hresult
  · unfold nextClear at hresult
    split at hresult <;> cases hresult
    exact .clear

theorem SectionEffect.accounts (h : SectionEffect c pc pc' c') (haccounts : ∃ keys, c.Accounts keys) :
    ∃ keys, c'.Accounts keys := by
  obtain ⟨keys, hkeys⟩ := haccounts
  cases h with
  | same => exact ⟨keys, hkeys⟩
  | touch key => exact ⟨keys, hkeys.nodup, hkeys.mem_iff, hkeys.size_eq⟩
  | pop => exact ⟨keys, hkeys.nodup, hkeys.mem_iff, hkeys.size_eq⟩
  | remove => exact ⟨_, hkeys.remove _⟩
  | store key value => exact ⟨_, hkeys.store key value⟩
  | clear => exact ⟨_, c.sound_clear.accounts⟩

theorem BlockCache.mem_touch (h : k ∈ c.lruQueue) (key : CacheKey) : k ∈ (c.touch key).lruQueue := by
  by_cases hk : k = key
  · simp [BlockCache.touch, hk]
  · simp [BlockCache.touch, List.mem_erase_of_ne hk, h]

theorem BlockCache.mem_store (h : k ∈ c.lruQueue ∨ k = key) (value : Bytes) : k ∈ (c.store key value).lruQueue := by
  unfold BlockCache.store
  by_cases hk : k = key
  · simp [hk]
  · have hmem := h.resolve_right hk
    cases c.cache key <;> simp [hmem, hk]

theorem SectionEffect.held (h : SectionEffect c pc pc' c') (hcached : (c'.cache key).isSome) :
    (key ∈ c'.lruQueue ∨ pc' = .removing key) ∨ (c.cache key).isSome ∧ key ∉ c.lruQueue ∧ pc ≠ .removing key := by
  by_cases hqueue : key ∈ c.lruQueue
  · refine .inl ?_
    cases h with
    | same => exact .inl hqueue
    | touch k => exact .inl (BlockCache.mem_touch hqueue k)
    | pop _ hq hpc =>
      rw [hq] at hqueue
      rcases List.mem_cons.mp hqueue with rfl | hrest
      · exact .inr hpc
      · exact .inl hrest
    | remove => exact .inl (by simpa using hqueue)
    | store k value => exact .inl (BlockCache.mem_store (.inl hqueue) value)
    | clear => cases hcached
  · cases h with
    | same hpc => exact .inr ⟨hcached, hqueue, hpc key⟩
    | touch k hpc => exact .inr ⟨hcached, hqueue, hpc key⟩
    | pop hpc => exact .inr ⟨hcached, hqueue, hpc key⟩
    | remove hpc =>
      rw [BlockCache.remove_cache, Function.update_apply] at hcached
      split_ifs at hcached with hk
      · cases hcached
      · exact .inr ⟨hcached, hqueue, by simpa [hpc] using Ne.symm hk⟩
    | store k value hpc =>
      rw [BlockCache.store_cache, Function.update_apply] at hcached
      split_ifs at hcached with hk
      · exact .inl (.inl (BlockCache.mem_store (.inr hk) value))
      · exact .inr ⟨hcached, hqueue, hpc key⟩
    | clear => cases hcached

-- ---------------------------------------------------------------------------
-- Every interleaving
-- ---------------------------------------------------------------------------

/-- The key is on the queue, or an eviction has taken it off and is yet to remove its
block. -/
def BlockCache.Held (c : BlockCache) (threads : List CacheThread) (key : CacheKey) : Prop :=
  key ∈ c.lruQueue ∨ ∃ t ∈ threads, t.pc = .removing key

/-- In every interleaving the size is that of the cached blocks, and every cached key is
on the queue or has been popped by an eviction in flight. So a loop that finds no room
finds a key on the queue, or an eviction is in flight. -/
theorem cache_accounting {s : Config BlockCache CacheThread} (hrun : runCache capacity calls schedule = some s) :
    (∃ keys, s.shared.Accounts keys) ∧ (∀ key, (s.shared.cache key).isSome → s.shared.Held s.threads key) ∧
      ∀ size ≤ s.shared.capacity, s.shared.capacity < s.shared.currentSize + size →
        s.shared.lruQueue ≠ [] ∨ ∃ t ∈ s.threads, ∃ victim, t.pc = .removing victim := by
  have hkept : (∃ keys, s.shared.Accounts keys) ∧
      ∀ key, (s.shared.cache key).isSome → s.shared.Held s.threads key := by
    refine Config.run_invariant (I := fun s => (∃ keys, s.shared.Accounts keys) ∧
      ∀ key, (s.shared.cache key).isSome → s.shared.Held s.threads key) ?_ ⟨?_, ?_⟩ (Config.along_true _ _) hrun
    · rintro s i t c' t' ⟨haccounts, hheld⟩ - ht hnext
      have heffect := CacheThread.next_effect hnext
      refine ⟨heffect.accounts haccounts, fun key hcached => ?_⟩
      rcases heffect.held hcached with (hqueue | hpc) | ⟨hbefore, hqueue, hpc⟩
      · exact .inl hqueue
      · exact .inr ⟨t', Config.mem_set_self ht t', hpc⟩
      · have hother := (hheld key hbefore).resolve_left hqueue
        exact .inr ((Config.exists_set ht t' hother).resolve_left hpc)
    · exact ⟨[], (BlockCache.sound_new capacity).accounts⟩
    · intro key hcached
      cases hcached
  obtain ⟨⟨keys, hkeys⟩, hheld⟩ := hkept
  refine ⟨⟨keys, hkeys⟩, hheld, fun size hsize hfull => ?_⟩
  -- there is a block, since the size is not zero
  obtain ⟨key, hmem⟩ : ∃ key, key ∈ keys := by
    refine List.exists_mem_of_ne_nil keys fun hnil => ?_
    have := hkeys.size_eq
    simp [hnil] at this
    omega
  rcases hheld key ((hkeys.mem_iff key).mp hmem) with hqueue | ⟨t, ht, hpc⟩
  · exact .inl (List.ne_nil_of_mem hqueue)
  · exact .inr ⟨t, ht, key, hpc⟩

/-- Two inserts of two bytes each into a cache of three: the second one has taken the key
of the first one off the queue and is yet to remove its block. -/
theorem cache_accounting_evicting :
    ∃ s, runCache 3 [.insert ⟨0, 0⟩ [1, 2], .insert ⟨0, 9⟩ [3, 4]] [0, 0, 0, 1, 1, 1] = some s ∧
      (∃ keys, s.shared.Accounts keys) ∧ (∀ key, (s.shared.cache key).isSome → s.shared.Held s.threads key) ∧
      ∀ size ≤ s.shared.capacity, s.shared.capacity < s.shared.currentSize + size →
        s.shared.lruQueue ≠ [] ∨ ∃ t ∈ s.threads, ∃ victim, t.pc = .removing victim := by
  have hsome : (runCache 3 [.insert ⟨0, 0⟩ [1, 2], .insert ⟨0, 9⟩ [3, 4]] [0, 0, 0, 1, 1, 1]).isSome := by decide +kernel
  obtain ⟨s, hs⟩ := Option.isSome_iff_exists.mp hsome
  exact ⟨s, hs, cache_accounting hs⟩

end AiDb
