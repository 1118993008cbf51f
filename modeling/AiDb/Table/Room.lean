import AiDb.Table.Accounting

/-!
# The room that an insert has found

`insert` looks at the size in one section and inserts in another. What it found may be
gone by then, so the cache may grow beyond its capacity. When no call is in flight,
that is seen at the last insertion alone: the calls that evict insert afterwards.
-/

namespace AiDb

open Library

def CachePc.InFlight : CachePc → Prop
  | .start | .returned _ => False
  | _ => True

def CacheThread.Inserting (t : CacheThread) : Prop := (∃ key value, t.call = .insert key value) ∧ t.pc.InFlight

def BlockCache.HasRoom (c : BlockCache) (key : CacheKey) (value : Bytes) : Prop :=
  c.currentSize - c.sizeOf key + value.length ≤ c.capacity

instance BlockCache.decidableHasRoom (c : BlockCache) (key : CacheKey) (value : Bytes) : Decidable (c.HasRoom key value) := by
  unfold BlockCache.HasRoom
  infer_instance

/-- Whether the last final insertion had room, or a `clear` came after it, once the
thread has taken its step. -/
def CacheThread.fitsAfter (c : BlockCache) (t : CacheThread) (fits : Bool) : Bool :=
  match t.call, t.pc with
  | .insert key value, .storing => decide (c.HasRoom key value)
  | .clear, .start => true
  | _, _ => fits

def lastInsertionFits : (fits : Bool) → Config BlockCache CacheThread → (schedule : List Nat) → Bool
  | fits, _, [] => fits
  | fits, s, i :: is =>
    match s.threads[i]?, s.step CacheThread.next i with
    | some t, some s' => lastInsertionFits (t.fitsAfter s.shared fits) s' is
    | _, _ => fits

variable {c c' : BlockCache} {t t' : CacheThread}

@[simp] theorem BlockCache.touch_capacity (c : BlockCache) (key : CacheKey) : (c.touch key).capacity = c.capacity := rfl

@[simp] theorem BlockCache.clear_capacity (c : BlockCache) : c.clear.capacity = c.capacity := rfl

/-- A step leaves its call an insert in flight, or is a final insertion or a `clear`, or
changes nothing of the size. -/
theorem CacheThread.next_size (h : next c t = some (c', t')) : c'.capacity = c.capacity ∧
    (t'.Inserting ∨ (∀ fits, (c'.currentSize ≤ c.capacity ↔ t.fitsAfter c fits = true)) ∨
      ¬t.Inserting ∧ c'.currentSize = c.currentSize ∧ ∀ fits, t.fitsAfter c fits = fits) := by
  obtain ⟨⟨c1, pc1⟩, hresult, heq⟩ := Option.map_eq_some_iff.mp h
  cases heq
  obtain ⟨call, pc⟩ := t
  cases call with
  | get key =>
    have hnot : ∀ pc, ¬Inserting ⟨.get key, pc⟩ := by simp [Inserting]
    cases pc with
    | start =>
      simp only [nextGet] at hresult
      split at hresult <;> cases hresult <;> exact ⟨rfl, .inr (.inr ⟨hnot _, rfl, fun _ => rfl⟩)⟩
    | touching data =>
      cases hresult
      exact ⟨rfl, .inr (.inr ⟨hnot _, rfl, fun _ => rfl⟩)⟩
    | testing => cases hresult
    | popping => cases hresult
    | removing victim => cases hresult
    | storing => cases hresult
    | returned answer => cases hresult
  | insert key value =>
    have hinserting : ∀ pc : CachePc, pc.InFlight → Inserting ⟨.insert key value, pc⟩ := fun _ hpc => ⟨⟨key, value, rfl⟩, hpc⟩
    cases pc with
    | start =>
      cases hresult
      refine ⟨rfl, ?_⟩
      by_cases hvalue : c.Accepts value
      · rw [if_pos hvalue]
        exact .inl (hinserting _ trivial)
      · exact .inr (.inr ⟨by simp [Inserting, CachePc.InFlight], rfl, fun _ => rfl⟩)
    | touching data => cases hresult
    | testing =>
      cases hresult
      refine ⟨rfl, .inl (hinserting _ ?_)⟩
      split <;> trivial
    | popping =>
      simp only [nextInsert] at hresult
      split at hresult <;> cases hresult <;> exact ⟨rfl, .inl (hinserting _ trivial)⟩
    | removing victim =>
      cases hresult
      exact ⟨by simp, .inl (hinserting _ trivial)⟩
    | storing =>
      cases hresult
      refine ⟨by simp, .inr (.inl fun _ => ?_)⟩
      rw [BlockCache.store_currentSize]
      exact decide_eq_true_iff.symm
    | returned answer => cases hresult
  | clear =>
    simp only [nextClear] at hresult
    split at hresult <;> cases hresult
    exact ⟨rfl, .inr (.inl fun _ => by simp [fitsAfter, BlockCache.clear])⟩

theorem lastInsertionFits_run {s s' : Config BlockCache CacheThread} {schedule : List Nat} {fits : Bool}
    (hrun : s.run CacheThread.next schedule = some s') (hcapacity : s.shared.capacity = capacity)
    (h : (∃ t ∈ s.threads, t.Inserting) ∨ (s.shared.currentSize ≤ capacity ↔ fits = true)) :
    (∃ t ∈ s'.threads, t.Inserting) ∨
      (s'.shared.currentSize ≤ capacity ↔ lastInsertionFits fits s schedule = true) := by
  induction schedule generalizing s fits with
  | nil =>
    cases hrun
    exact h
  | cons i schedule ih =>
    obtain ⟨s1, hstep, hrun⟩ := Config.run_cons hrun
    obtain ⟨t, c', t', ht, hnext, rfl⟩ := Config.step_eq_some.mp hstep
    obtain ⟨hsame, hsize⟩ := CacheThread.next_size hnext
    simp only [lastInsertionFits, ht, hstep]
    refine ih hrun (hsame.trans hcapacity) ?_
    rcases hsize with hinserting | hdecided | ⟨hnot, hsize, hfits⟩
    · exact .inl ⟨t', Config.mem_set_self ht t', hinserting⟩
    · rw [hcapacity] at hdecided
      exact .inr (hdecided fits)
    · rw [hsize, hfits]
      exact h.imp (fun hother => (Config.exists_set ht t' hother).resolve_left hnot) id

/-- When no call is in flight, the size is within the capacity just if the last final
insertion of the run found room for its value, or a `clear` came after it. -/
theorem cache_within_capacity_iff {s : Config BlockCache CacheThread} (hrun : runCache capacity calls schedule = some s)
    (hidle : ∀ t ∈ s.threads, ¬t.pc.InFlight) :
    s.shared.currentSize ≤ capacity ↔
      lastInsertionFits true ⟨BlockCache.new capacity, calls.map (⟨·, .start⟩)⟩ schedule = true := by
  refine (lastInsertionFits_run hrun rfl (.inr (by simp [BlockCache.new]))).resolve_left ?_
  rintro ⟨t, ht, -, hflight⟩
  exact hidle t ht hflight

/-- Two inserts of two bytes each into a cache of three, the second begun while the first
is under way: it makes its test after the other's insertion, and evicts the block. -/
theorem cache_within_capacity_iff_evicting : ∃ s,
    runCache 3 [.insert ⟨0, 0⟩ [1, 2], .insert ⟨0, 9⟩ [3, 4]] [0, 1, 0, 0, 1, 1, 1, 1, 1] = some s ∧
      (∀ t ∈ s.threads, ¬t.pc.InFlight) ∧ s.shared.lookup ⟨0, 0⟩ = none ∧ s.shared.lookup ⟨0, 9⟩ = some [3, 4] ∧
      s.shared.currentSize ≤ 3 := by
  have hrun : (runCache 3 [.insert ⟨0, 0⟩ [1, 2], .insert ⟨0, 9⟩ [3, 4]] [0, 1, 0, 0, 1, 1, 1, 1, 1]).map (fun s =>
      (s.threads.map CacheThread.pc, s.shared.lookup ⟨0, 0⟩, s.shared.lookup ⟨0, 9⟩)) =
        some ([.returned none, .returned none], none, some [3, 4]) := by
    decide +kernel
  obtain ⟨s, hs, heq⟩ := Option.map_eq_some_iff.mp hrun
  simp only [Prod.mk.injEq] at heq
  obtain ⟨hpcs, hevicted, hkept⟩ := heq
  have hidle : ∀ t ∈ s.threads, ¬t.pc.InFlight := by
    intro t ht
    have hpc : t.pc ∈ s.threads.map CacheThread.pc := List.mem_map_of_mem ht
    rw [hpcs] at hpc
    simp only [List.mem_cons, List.not_mem_nil, or_false, or_self] at hpc
    simp [hpc, CachePc.InFlight]
  exact ⟨s, hs, hidle, hevicted, hkept, (cache_within_capacity_iff hs hidle).mpr (by decide +kernel)⟩

/-- Two inserts of two bytes each into a cache of three: both find room before either of
them inserts. -/
theorem not_cache_within_capacity : ∃ s,
    runCache 3 [.insert ⟨0, 0⟩ [1, 2], .insert ⟨0, 9⟩ [3, 4]] [0, 0, 1, 1, 0, 1] = some s ∧
      (∀ t ∈ s.threads, ¬t.pc.InFlight) ∧ ¬s.shared.currentSize ≤ 3 := by
  have hrun : (runCache 3 [.insert ⟨0, 0⟩ [1, 2], .insert ⟨0, 9⟩ [3, 4]] [0, 0, 1, 1, 0, 1]).map (fun s =>
      (s.threads.map CacheThread.pc, s.shared.currentSize)) = some ([.returned none, .returned none], 4) := by
    decide +kernel
  obtain ⟨s, hs, heq⟩ := Option.map_eq_some_iff.mp hrun
  obtain ⟨hpcs, hsize⟩ := Prod.mk.inj heq
  refine ⟨s, hs, fun t ht => ?_, by omega⟩
  have hpc : t.pc ∈ s.threads.map CacheThread.pc := List.mem_map_of_mem ht
  rw [hpcs] at hpc
  simp only [List.mem_cons, List.not_mem_nil, or_false, or_self] at hpc
  simp [hpc, CachePc.InFlight]

end AiDb
