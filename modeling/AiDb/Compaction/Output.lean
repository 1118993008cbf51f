import AiDb.Compaction.Merge
import AiDb.Table.Contents
import AiDb.Library.Merge

/-!
# What a merge hands out

The inputs of a merge are sources in the sense of `Library.Merge`: an input
hands out its entries block by block, and fails at the first block that cannot
be read. `collect_merged` says that `MergeIterator` merges them by key and,
among equal keys, by the position of the input.
-/

namespace AiDb

open Library

variable {read : BlockRead}

/-- The entries of a table up to the first block that cannot be read. -/
def scanBlocks (read : BlockRead) : Index → Source Entry
  | [] => ⟨[], false⟩
  | (_, handle) :: index =>
    match read handle with
    | .error _ => ⟨[], true⟩
    | .ok entries => ⟨entries ++ (scanBlocks read index).items, (scanBlocks read index).fails⟩

def BlocksNonempty (read : BlockRead) (index : Index) : Prop :=
  ∀ e ∈ index, read e.2 ≠ .ok []

-- ---------------------------------------------------------------------------
-- One input
-- ---------------------------------------------------------------------------

namespace SSTableIterator

def remaining (it : SSTableIterator) (read : BlockRead) : Source Entry :=
  let later := scanBlocks read (it.indexIterEntries.drop (it.currentBlockIndex + 1))
  match it.currentBlockIter with
  | some b => ⟨b.rest ++ later.items, later.fails⟩
  | none => later

/-- The iterator over the current block stays valid while entries are left. -/
structure Ready (it : SSTableIterator) (read : BlockRead) : Prop where
  valid : ∀ b, it.currentBlockIter = some b → b.valid = true ∨ b.rest = []
  blocks : BlocksNonempty read it.indexIterEntries

theorem scanBlocks_drop (read : BlockRead) (index : Index) (n : Nat) : scanBlocks read (index.drop n) =
    match index[n]? with
    | none => ⟨[], false⟩
    | some (_, handle) =>
      match read handle with
      | .error _ => ⟨[], true⟩
      | .ok entries =>
        ⟨entries ++ (scanBlocks read (index.drop (n + 1))).items,
          (scanBlocks read (index.drop (n + 1))).fails⟩ := by
  cases h : index[n]? with
  | none =>
    rw [List.drop_eq_nil_of_le (List.getElem?_eq_none_iff.mp h)]
    rfl
  | some e =>
    obtain ⟨hn, he⟩ := List.getElem?_eq_some_iff.mp h
    rw [List.drop_eq_getElem_cons hn, he]
    rfl

theorem nextBlock_spec (it : SSTableIterator) (hready : it.Ready read) :
    match scanBlocks read (it.indexIterEntries.drop (it.currentBlockIndex + 1)) with
    | ⟨[], true⟩ => ∃ e, it.nextBlock read = .error e
    | ⟨[], false⟩ => ∃ it', it.nextBlock read = .ok (false, it')
    | ⟨e :: es, fails⟩ => ∃ it', it.nextBlock read = .ok (true, it') ∧ it'.valid = true ∧
        it'.entry = some e ∧ it'.Ready read ∧ it'.remaining read = ⟨es, fails⟩ := by
  rw [scanBlocks_drop]
  unfold nextBlock loadCurrentBlock
  dsimp only
  cases h : it.indexIterEntries[it.currentBlockIndex + 1]? with
  | none => exact ⟨_, rfl⟩
  | some entry =>
    obtain ⟨k, handle⟩ := entry
    dsimp only
    cases hr : read handle with
    | error e => exact ⟨e, rfl⟩
    | ok entries =>
      cases entries with
      | nil => exact absurd hr (hready.blocks (k, handle) (List.mem_of_getElem? h))
      | cons e es =>
        refine ⟨_, rfl, rfl, rfl, ⟨?_, hready.blocks⟩, rfl⟩
        rintro b ⟨⟩
        exact .inl rfl

theorem advance_spec {it : SSTableIterator} (hready : it.Ready read) :
    match it.remaining read with
    | ⟨[], true⟩ => ∃ e, it.advance read = .error e
    | ⟨[], false⟩ => ∃ it', it.advance read = .ok (false, it')
    | ⟨e :: es, fails⟩ => ∃ it', it.advance read = .ok (true, it') ∧ it'.valid = true ∧
        it'.entry = some e ∧ it'.Ready read ∧ it'.remaining read = ⟨es, fails⟩ := by
  unfold remaining advance
  cases hb : it.currentBlockIter with
  | none => exact nextBlock_spec it hready
  | some b =>
    obtain ⟨rest, current, valid⟩ := b
    dsimp only
    cases rest with
    | cons e es =>
      have hv : valid = true := (hready.valid _ hb).resolve_right (by simp)
      subst hv
      refine ⟨_, rfl, rfl, rfl, ⟨?_, hready.blocks⟩, rfl⟩
      rintro b ⟨⟩
      exact .inl rfl
    | nil =>
      have hadv : (BlockIterator.advance ⟨[], current, valid⟩).1 = false := by
        cases valid <;> rfl
      rw [if_neg (by simp [hadv])]
      have hrest : (BlockIterator.advance ⟨[], current, valid⟩).2.rest = [] := by
        cases valid <;> rfl
      refine nextBlock_spec { it with
        currentBlockIter := some (BlockIterator.advance ⟨[], current, valid⟩).2 } ⟨?_, hready.blocks⟩
      rintro b ⟨⟩
      exact .inr hrest

theorem ready_seekToFirst {r : SSTableReader} (hne : BlocksNonempty read r.indexBlock)
    (h : (SSTableIterator.new r).seekToFirst read = .ok it) :
    it.Ready read ∧ it.remaining read = scanBlocks read r.indexBlock := by
  unfold seekToFirst loadCurrentBlock SSTableIterator.new at h
  dsimp only at h
  have hscan := scanBlocks_drop read r.indexBlock 0
  rw [List.drop_zero] at hscan
  cases hi : r.indexBlock[0]? with
  | none =>
    rw [hi] at h hscan
    cases h
    have hnil : r.indexBlock = [] := by simpa using hi
    exact ⟨⟨nofun, hne⟩, by simp [remaining, hnil]⟩
  | some e =>
    rw [hi] at h hscan
    dsimp only at h hscan
    cases hr : read e.2 with
    | error err => rw [hr] at h; cases h
    | ok entries =>
      rw [hr] at h hscan
      cases h
      refine ⟨⟨?_, hne⟩, by rw [hscan]; rfl⟩
      rintro b ⟨⟩
      cases entries <;> simp [BlockIterator.seekToFirst]

theorem seekToFirst_error {r : SSTableReader} (hne : BlocksNonempty read r.indexBlock) :
    (∃ e, (SSTableIterator.new r).seekToFirst read = .error e) ↔
      scanBlocks read r.indexBlock = ⟨[], true⟩ := by
  unfold seekToFirst loadCurrentBlock SSTableIterator.new
  dsimp only
  cases hi : r.indexBlock with
  | nil => simp [scanBlocks]
  | cons e es =>
    simp only [List.getElem?_cons_zero, scanBlocks]
    cases hr : read e.2 with
    | error err => exact iff_of_true ⟨err, rfl⟩ rfl
    | ok entries =>
      have hentries : entries ≠ [] := fun h => hne e (by rw [hi]; exact List.mem_cons_self) (h ▸ hr)
      refine iff_of_false (fun h => (nomatch h.choose_spec)) ?_
      simp [hentries]

end SSTableIterator

-- ---------------------------------------------------------------------------
-- The heap
-- ---------------------------------------------------------------------------

namespace Compaction

def MergeEntry.rank (x : MergeEntry) : Bytes ×ₗ ℕ := toLex (x.entry.key, x.iteratorIndex)

theorem MergeEntry.before_iff (x y : MergeEntry) : x.before y ↔ x.rank < y.rank := by
  simp only [before, rank, Prod.Lex.toLex_lt_toLex]

theorem popHeap_eq_none : popHeap heap = none ↔ heap = [] := by
  cases heap with
  | nil => simp [popHeap]
  | cons e es =>
    simp only [popHeap]
    cases popHeap es with
    | none => simp
    | some p =>
      dsimp only
      split_ifs <;> simp

theorem popHeap_some (h : popHeap heap = some (m, rest)) :
    heap.Perm (m :: rest) ∧ ∀ x ∈ heap, m.rank ≤ x.rank := by
  induction heap generalizing m rest with
  | nil => cases h
  | cons e es ih =>
    simp only [popHeap] at h
    cases hp : popHeap es with
    | none =>
      rw [hp] at h
      cases h
      rw [popHeap_eq_none] at hp
      subst hp
      simp
    | some p =>
      obtain ⟨m', rest'⟩ := p
      obtain ⟨hperm, hmin⟩ := ih hp
      rw [hp] at h
      dsimp only at h
      split_ifs at h with hb
      · cases h
        rw [MergeEntry.before_iff] at hb
        refine ⟨(hperm.cons e).trans (List.Perm.swap m e rest'), ?_⟩
        intro x hx
        rcases List.mem_cons.mp hx with rfl | hx
        · exact le_of_lt hb
        · exact hmin x hx
      · cases h
        rw [MergeEntry.before_iff, not_lt] at hb
        refine ⟨List.Perm.refl _, ?_⟩
        intro x hx
        rcases List.mem_cons.mp hx with rfl | hx
        · exact le_refl _
        · exact hb.trans (hmin x hx)

-- ---------------------------------------------------------------------------
-- The merge
-- ---------------------------------------------------------------------------

namespace MergeIterator

variable {reads : Nat → BlockRead}

def tagged (i : Nat) (s : Source Entry) : Source MergeEntry := ⟨s.items.map (⟨·, i⟩), s.fails⟩

/-- The iterators from position `base` on and their entries in the heap, against
the sources they have still to hand out. -/
structure Linked (reads : Nat → BlockRead) (base : Nat) (m : MergeIterator)
    (S : Sources MergeEntry) : Prop where
  apart : (m.heap.map MergeEntry.iteratorIndex).Nodup
  heap_iff : ∀ x, x ∈ m.heap ↔ ∃ i, base ≤ i ∧ (S i).items.head? = some x
  index_eq : ∀ i, base ≤ i → ∀ x ∈ (S i).items, x.iteratorIndex = i
  ready : ∀ i, base ≤ i → ∀ x xs, (S i).items = x :: xs → ∃ it, m.iterators[i - base]? = some it ∧
    it.Ready (reads i) ∧ ⟨xs, (S i).fails⟩ = tagged i (it.remaining (reads i))

def sourcesFrom (reads : Nat → BlockRead) (base : Nat) (readers : List SSTableReader) :
    Sources MergeEntry := fun i =>
  match readers[i - base]? with
  | some r => tagged i (scanBlocks (reads i) r.indexBlock)
  | none => ⟨[], false⟩

theorem sourcesFrom_base : sourcesFrom reads base (r :: rs) base =
    tagged base (scanBlocks (reads base) r.indexBlock) := by
  simp [sourcesFrom]

theorem sourcesFrom_succ (h : base + 1 ≤ i) :
    sourcesFrom reads base (r :: rs) i = sourcesFrom reads (base + 1) rs i := by
  have : i - base = i - (base + 1) + 1 := by omega
  simp [sourcesFrom, this]

/-- `advance` on an iterator that had `src` left gave `it` and the pending entries
`pend`. -/
def Pushed (read : BlockRead) (i : Nat) (src : Source Entry) (pend : List MergeEntry)
    (it : SSTableIterator) : Prop :=
  src = ⟨[], false⟩ ∧ pend = [] ∨
  ∃ e es, src.items = e :: es ∧ pend = [⟨e, i⟩] ∧ it.Ready read ∧ it.remaining read = ⟨es, src.fails⟩

theorem advance_pending {it : SSTableIterator} (hready : it.Ready (reads i))
    (h : it.advance (reads i) = .ok (more, it')) :
    Pushed (reads i) i (it.remaining (reads i)) (pending i more it') it' := by
  have hspec := SSTableIterator.advance_spec hready
  rcases hrem : it.remaining (reads i) with ⟨_ | ⟨e, es⟩, _ | _⟩
  · rw [hrem] at hspec
    obtain ⟨it'', hadv⟩ := hspec
    rw [h] at hadv
    cases hadv
    exact .inl ⟨rfl, rfl⟩
  · rw [hrem] at hspec
    obtain ⟨e, hadv⟩ := hspec
    rw [h] at hadv
    cases hadv
  all_goals
    rw [hrem] at hspec
    obtain ⟨it'', hadv, hvalid, hentry, hready', hrem'⟩ := hspec
    rw [h] at hadv
    cases hadv
    exact .inr ⟨e, es, rfl, by simp [pending, hvalid, hentry], hready', hrem'⟩

theorem Linked.nil (hS : ∀ i, base ≤ i → (S i).items = []) :
    Linked reads base ⟨[], []⟩ S where
  apart := List.nodup_nil
  heap_iff x := by
    refine ⟨fun h => (nomatch h), ?_⟩
    rintro ⟨i, hi, hx⟩
    rw [hS i hi] at hx
    cases hx
  index_eq i hi x hx := by
    rw [hS i hi] at hx
    cases hx
  ready i hi x xs hx := by
    rw [hS i hi] at hx
    cases hx

theorem Linked.congr (h : Linked reads base m S) (hS : ∀ i, base ≤ i → S i = S' i) :
    Linked reads base m S' where
  apart := h.apart
  heap_iff x := by
    rw [h.heap_iff x]
    exact exists_congr fun i => and_congr_right fun hi => by rw [hS i hi]
  index_eq i hi := by rw [← hS i hi]; exact h.index_eq i hi
  ready i hi := by rw [← hS i hi]; exact h.ready i hi

theorem Linked.index_ge (h : Linked reads base m S) (hx : x ∈ m.heap) : base ≤ x.iteratorIndex := by
  obtain ⟨i, hi, hhead⟩ := (h.heap_iff x).mp hx
  rw [h.index_eq i hi x (List.mem_of_mem_head? hhead)]
  exact hi

theorem Pushed.mem (h : Pushed read i src pend it) :
    x ∈ pend ↔ (tagged i src).items.head? = some x := by
  rcases h with ⟨hsrc, rfl⟩ | ⟨e, es, hsrc, rfl, -⟩
  · simp [tagged, hsrc]
  · simp [tagged, hsrc, eq_comm]

theorem Pushed.index (h : Pushed read i src pend it) (hx : x ∈ pend) : x.iteratorIndex = i := by
  rcases h with ⟨-, rfl⟩ | ⟨e, es, -, rfl, -⟩
  · cases hx
  · rw [List.mem_singleton.mp hx]

theorem Pushed.nodup (h : Pushed read i src pend it) : (pend.map MergeEntry.iteratorIndex).Nodup := by
  rcases h with ⟨-, rfl⟩ | ⟨e, es, -, rfl, -⟩ <;> simp

theorem Pushed.ready (h : Pushed read i src pend it) (hx : (tagged i src).items = x :: xs) :
    it.Ready read ∧ ⟨xs, (tagged i src).fails⟩ = tagged i (it.remaining read) := by
  rcases h with ⟨hsrc, -⟩ | ⟨e, es, hsrc, -, hready, hrem⟩
  · simp [tagged, hsrc] at hx
  · rw [hrem]
    simp only [tagged, hsrc, List.map_cons, List.cons.injEq] at hx ⊢
    exact ⟨hready, by rw [hx.2]⟩

theorem Linked.cons (h : Linked reads (base + 1) tail S) (hS : S base = tagged base src)
    (hp : Pushed (reads base) base src pend it) :
    Linked reads base ⟨pend ++ tail.heap, it :: tail.iterators⟩ S where
  apart := by
    rw [List.map_append, List.nodup_append]
    refine ⟨hp.nodup, h.apart, ?_⟩
    intro a ha b hb
    obtain ⟨x, hx, rfl⟩ := List.mem_map.mp ha
    obtain ⟨y, hy, rfl⟩ := List.mem_map.mp hb
    have := hp.index hx
    have := h.index_ge hy
    omega
  heap_iff x := by
    rw [List.mem_append, hp.mem, h.heap_iff x, ← hS]
    constructor
    · rintro (hx | ⟨i, hi, hx⟩)
      · exact ⟨base, le_refl _, hx⟩
      · exact ⟨i, by omega, hx⟩
    · rintro ⟨i, hi, hx⟩
      rcases Nat.eq_or_lt_of_le hi with rfl | hlt
      · exact .inl hx
      · exact .inr ⟨i, hlt, hx⟩
  index_eq i hi x hx := by
    rcases Nat.eq_or_lt_of_le hi with rfl | hlt
    · rw [hS] at hx
      obtain ⟨e, -, rfl⟩ := List.mem_map.mp hx
      rfl
    · exact h.index_eq i hlt x hx
  ready i hi x xs hx := by
    rcases Nat.eq_or_lt_of_le hi with rfl | hlt
    · rw [hS] at hx ⊢
      exact ⟨it, by simp, hp.ready hx⟩
    · obtain ⟨it', hit, hready⟩ := h.ready i hlt x xs hx
      refine ⟨it', ?_, hready⟩
      rw [show i - base = i - (base + 1) + 1 by omega]
      simpa using hit

theorem newFrom_linked (base : Nat) (hne : ∀ i r, rs[i]? = some r → BlocksNonempty (reads (base + i)) r.indexBlock)
    (h : newFrom reads base rs = .ok m) :
    Linked reads base m (sourcesFrom reads base rs) := by
  induction rs generalizing base m with
  | nil =>
    cases h
    exact Linked.nil fun i _ => by simp [sourcesFrom]
  | cons r rs ih =>
    simp only [newFrom] at h
    cases hseek : (SSTableIterator.new r).seekToFirst (reads base) with
    | error e => rw [hseek] at h; cases h
    | ok it =>
      obtain ⟨hready, hrem⟩ := SSTableIterator.ready_seekToFirst (hne 0 r rfl) hseek
      rw [hseek] at h
      cases hadv : it.advance (reads base) with
      | error e => simp only [bind, Except.bind, hadv] at h; cases h
      | ok p =>
        obtain ⟨more, it'⟩ := p
        cases htail : newFrom reads (base + 1) rs with
        | error e => simp only [bind, Except.bind, hadv, htail] at h; cases h
        | ok tail =>
          simp only [bind, Except.bind, hadv, htail, pure, Except.pure] at h
          cases h
          have hne' : ∀ i r', rs[i]? = some r' → BlocksNonempty (reads (base + 1 + i)) r'.indexBlock := by
            intro i r' hi
            have := hne (i + 1) r' (by simpa using hi)
            rwa [show base + (i + 1) = base + 1 + i by omega] at this
          have hlink := (ih (base + 1) hne' htail).congr fun i hi => (sourcesFrom_succ (r := r) hi).symm
          refine hlink.cons sourcesFrom_base ?_
          rw [Nat.add_zero] at hready hrem
          rw [← hrem]
          exact advance_pending hready hadv

theorem Linked.top (h : Linked reads 0 m S) (hpop : popHeap m.heap = some (x, others)) :
    ∃ xs it, (S x.iteratorIndex).items = x :: xs ∧ Least MergeEntry.rank S x ∧
      m.iterators[x.iteratorIndex]? = some it ∧ it.Ready (reads x.iteratorIndex) ∧
      ⟨xs, (S x.iteratorIndex).fails⟩ = tagged x.iteratorIndex (it.remaining (reads x.iteratorIndex)) := by
  obtain ⟨hperm, hmin⟩ := popHeap_some hpop
  have hx : x ∈ m.heap := hperm.mem_iff.mpr List.mem_cons_self
  obtain ⟨i, hi, hhead⟩ := (h.heap_iff x).mp hx
  obtain rfl := h.index_eq i hi x (List.mem_of_mem_head? hhead)
  obtain ⟨xs, hxs⟩ := List.head?_eq_some_iff.mp hhead
  obtain ⟨it, hit, hready, hrem⟩ := h.ready _ hi x xs hxs
  refine ⟨xs, it, hxs, ?_, hit, hready, hrem⟩
  intro j y hy
  exact hmin y ((h.heap_iff y).mpr ⟨j, Nat.zero_le j, hy⟩)

theorem Linked.advance (h : Linked reads 0 m S) (hpop : popHeap m.heap = some (x, others))
    (hx : (S x.iteratorIndex).items = x :: xs)
    (hxs : (⟨xs, (S x.iteratorIndex).fails⟩ : Source MergeEntry) = tagged x.iteratorIndex src)
    (hlt : x.iteratorIndex < m.iterators.length)
    (hp : Pushed (reads x.iteratorIndex) x.iteratorIndex src pend it) :
    Linked reads 0 ⟨pend ++ others, m.iterators.set x.iteratorIndex it⟩ (S.advance x.iteratorIndex xs) := by
  obtain ⟨hperm, -⟩ := popHeap_some hpop
  have hnodup : ((x :: others).map MergeEntry.iteratorIndex).Nodup :=
    (hperm.map _).nodup_iff.mp h.apart
  obtain ⟨hfresh, hothers⟩ := List.nodup_cons.mp hnodup
  have hself : (S.advance x.iteratorIndex xs) x.iteratorIndex = tagged x.iteratorIndex src := by
    rw [Sources.advance_self, hxs]
  have hne : ∀ y ∈ others, y.iteratorIndex ≠ x.iteratorIndex := by
    intro y hy heq
    exact hfresh (heq ▸ List.mem_map_of_mem hy)
  constructor
  · show ((pend ++ others).map _).Nodup
    rw [List.map_append, List.nodup_append]
    refine ⟨hp.nodup, hothers, ?_⟩
    intro a ha b hb
    obtain ⟨y, hy, rfl⟩ := List.mem_map.mp ha
    obtain ⟨z, hz, rfl⟩ := List.mem_map.mp hb
    rw [hp.index hy]
    exact (hne z hz).symm
  · intro y
    show y ∈ pend ++ others ↔ _
    rw [List.mem_append, hp.mem, ← hself]
    constructor
    · rintro (hy | hy)
      · exact ⟨x.iteratorIndex, Nat.zero_le _, hy⟩
      · obtain ⟨j, hj, hhead⟩ := (h.heap_iff y).mp (hperm.mem_iff.mpr (List.mem_cons_of_mem x hy))
        have hji : j ≠ x.iteratorIndex := by
          rw [← h.index_eq j hj y (List.mem_of_mem_head? hhead)]
          exact hne y hy
        exact ⟨j, hj, by rwa [Sources.advance_ne hji]⟩
    · rintro ⟨j, hj, hhead⟩
      by_cases hji : j = x.iteratorIndex
      · exact .inl (hji ▸ hhead)
      · rw [Sources.advance_ne hji] at hhead
        have hy : y ∈ x :: others := hperm.mem_iff.mp ((h.heap_iff y).mpr ⟨j, hj, hhead⟩)
        refine .inr ((List.mem_cons.mp hy).resolve_left ?_)
        rintro rfl
        exact hji (h.index_eq j hj y (List.mem_of_mem_head? hhead)).symm
  · intro j hj y hy
    exact h.index_eq j hj y (Sources.mem_advance hx hy)
  · intro j hj y ys hy
    by_cases hji : j = x.iteratorIndex
    · subst hji
      rw [hself] at hy ⊢
      exact ⟨it, by simp [hlt], hp.ready hy⟩
    · rw [Sources.advance_ne hji] at hy ⊢
      obtain ⟨it', hit, hready⟩ := h.ready j hj y ys hy
      refine ⟨it', ?_, hready⟩
      rw [List.getElem?_set_ne (by omega)]
      exact hit

def total (n : Nat) (S : Sources MergeEntry) : Nat := ∑ i ∈ Finset.range n, (S i).items.length

theorem total_advance (hi : i < n) (hx : (S i).items = x :: xs) : total n (S.advance i xs) < total n S := by
  refine Finset.sum_lt_sum ?_ ⟨i, Finset.mem_range.mpr hi, ?_⟩
  · intro j _
    by_cases hj : j = i
    · subst hj
      simp [Sources.advance_self, hx]
    · rw [Sources.advance_ne hj]
  · simp [Sources.advance_self, hx]

/-- With enough rounds, the loop over the iterator merges the sources. -/
theorem collect_merged (h : Linked reads 0 m S) (hfuel : total m.iterators.length S ≤ fuel) :
    ∃ out, Merged MergeEntry.rank S out ∧ m.collect reads fuel = out.map MergeEntry.entry := by
  induction fuel generalizing m S with
  | zero =>
    refine ⟨[], .done fun i => ?_, rfl⟩
    cases hi : (S i).items with
    | nil => rfl
    | cons x xs =>
      obtain ⟨it, hit, -⟩ := h.ready i (Nat.zero_le i) x xs hi
      have hlt : i < m.iterators.length := (List.getElem?_eq_some_iff.mp hit).1
      have := total_advance hlt hi
      omega
  | succ fuel ih =>
    unfold collect next
    cases hpop : popHeap m.heap with
    | none =>
      have hheap := popHeap_eq_none.mp hpop
      refine ⟨[], .done fun i => ?_, rfl⟩
      cases hi : (S i).items with
      | nil => rfl
      | cons x xs =>
        have : x ∈ m.heap := (h.heap_iff x).mpr ⟨i, Nat.zero_le i, by rw [hi]; rfl⟩
        rw [hheap] at this
        cases this
    | some p =>
      obtain ⟨x, others⟩ := p
      obtain ⟨xs, it, hx, hleast, hit, hready, hrem⟩ := h.top hpop
      have hlt : x.iteratorIndex < m.iterators.length := (List.getElem?_eq_some_iff.mp hit).1
      dsimp only
      unfold advanceIterator
      dsimp only
      rw [hit]
      dsimp only
      cases hadv : it.advance (reads x.iteratorIndex) with
      | error e =>
        -- the input of the popped entry cannot be read on
        have hfail : it.remaining (reads x.iteratorIndex) = ⟨[], true⟩ := by
          have hspec := SSTableIterator.advance_spec hready
          rcases hr : it.remaining (reads x.iteratorIndex) with ⟨_ | ⟨e', es⟩, _ | _⟩ <;>
            simp [hr, hadv] at hspec ⊢
        rw [hfail] at hrem
        simp only [tagged, List.map_nil, Source.mk.injEq] at hrem
        exact ⟨[], .stop (by rw [hx, hrem.1]) hrem.2 hleast, rfl⟩
      | ok q =>
        obtain ⟨more, it'⟩ := q
        have hp := advance_pending hready hadv
        have hlink := h.advance hpop hx hrem hlt hp
        obtain ⟨out, hmerged, hcollect⟩ := ih hlink (by
          have := total_advance hlt hx
          simp only [List.length_set]
          omega)
        refine ⟨x :: out, .take hx ?_ hleast hmerged, ?_⟩
        · intro hxs
          rw [hxs] at hrem
          rcases hp with ⟨hsrc, -⟩ | ⟨e, es, hsrc, -⟩
          · rw [hsrc] at hrem
            exact congrArg Source.fails hrem
          · have := congrArg Source.items hrem
            simp [tagged, hsrc] at this
        · simp only [bind, Except.bind, pure, Except.pure, List.map_cons, hcollect]

theorem newFrom_error (base : Nat) (hne : ∀ i r, rs[i]? = some r → BlocksNonempty (reads (base + i)) r.indexBlock) :
    (∃ e, newFrom reads base rs = .error e) ↔
      ∃ i r, rs[i]? = some r ∧ scanBlocks (reads (base + i)) r.indexBlock = ⟨[], true⟩ := by
  induction rs generalizing base with
  | nil => simp [newFrom]
  | cons r rs ih =>
    have hr := hne 0 r rfl
    rw [Nat.add_zero] at hr
    have hrest : (∃ i r', rs[i]? = some r' ∧ scanBlocks (reads (base + 1 + i)) r'.indexBlock = ⟨[], true⟩) ∨
        scanBlocks (reads base) r.indexBlock = ⟨[], true⟩ ↔
        ∃ i r', (r :: rs)[i]? = some r' ∧ scanBlocks (reads (base + i)) r'.indexBlock = ⟨[], true⟩ := by
      constructor
      · rintro (⟨i, r', hi, hs⟩ | hs)
        · exact ⟨i + 1, r', by simpa using hi, by rwa [show base + (i + 1) = base + 1 + i by omega]⟩
        · exact ⟨0, r, rfl, hs⟩
      · rintro ⟨_ | i, r', hi, hs⟩
        · cases hi
          exact .inr hs
        · exact .inl ⟨i, r', by simpa using hi, by rwa [show base + 1 + i = base + (i + 1) by omega]⟩
    have ih := ih (base + 1) fun i r' hi => by
      have := hne (i + 1) r' (by simpa using hi)
      rwa [show base + (i + 1) = base + 1 + i by omega] at this
    rw [← hrest, ← ih, ← SSTableIterator.seekToFirst_error hr]
    simp only [newFrom]
    cases hseek : (SSTableIterator.new r).seekToFirst (reads base) with
    | error e => exact iff_of_true ⟨e, rfl⟩ (.inr ⟨e, rfl⟩)
    | ok it =>
      obtain ⟨hready, hrem⟩ := SSTableIterator.ready_seekToFirst hr hseek
      have hscan : scanBlocks (reads base) r.indexBlock ≠ ⟨[], true⟩ := by
        rw [Ne, ← SSTableIterator.seekToFirst_error hr, hseek]
        exact fun h => (nomatch h.choose_spec)
      cases hadv : it.advance (reads base) with
      | error e =>
        have hspec := SSTableIterator.advance_spec hready
        rw [hrem] at hspec
        rcases hs : scanBlocks (reads base) r.indexBlock with ⟨_ | ⟨e', es⟩, _ | _⟩ <;>
          simp [hs, hadv] at hspec hscan
      | ok q =>
        simp only [bind, Except.bind, hadv]
        cases htail : newFrom reads (base + 1) rs <;> simp [pure, Except.pure]

theorem scanBlocks_length : (scanBlocks read index).items.length ≤ readableEntries read index := by
  induction index with
  | nil => simp [scanBlocks]
  | cons e es ih =>
    simp only [scanBlocks, readableEntries, List.map_cons, List.sum_cons] at ih ⊢
    cases read e.2 with
    | error _ => simp
    | ok entries =>
      simp only [List.length_append]
      omega

theorem total_le_mergeFuel : total readers.length (sourcesFrom reads 0 readers) ≤ mergeFuel reads readers := by
  rw [total, mergeFuel, List.mapIdx_eq_ofFn, List.sum_ofFn, Finset.sum_range]
  refine Finset.sum_le_sum fun i _ => ?_
  have hi : readers[(i : Nat) - 0]? = some readers[i] := by simp
  simp only [sourcesFrom, hi, tagged, List.length_map]
  exact scanBlocks_length

theorem newFrom_length (h : newFrom reads base rs = .ok m) : m.iterators.length = rs.length := by
  induction rs generalizing base m with
  | nil => cases h; rfl
  | cons r rs ih =>
    simp only [newFrom] at h
    cases hseek : (SSTableIterator.new r).seekToFirst (reads base) with
    | error e => rw [hseek] at h; cases h
    | ok it =>
      rw [hseek] at h
      cases hadv : it.advance (reads base) with
      | error e => simp only [bind, Except.bind, hadv] at h; cases h
      | ok p =>
        cases htail : newFrom reads (base + 1) rs with
        | error e => simp only [bind, Except.bind, hadv, htail] at h; cases h
        | ok tail =>
          simp only [bind, Except.bind, hadv, htail, pure, Except.pure] at h
          cases h
          simp [ih htail]

structure InOrder (reads : Nat → BlockRead) (readers : List SSTableReader) : Prop where
  blocks : ∀ i r, readers[i]? = some r → BlocksNonempty (reads i) r.indexBlock
  sorted : ∀ i r, readers[i]? = some r →
    (scanBlocks (reads i) r.indexBlock).items.Pairwise fun a b => a.key < b.key

theorem mem_sourcesFrom : x ∈ (sourcesFrom reads 0 readers i).items ↔
    ∃ r e, readers[i]? = some r ∧ e ∈ (scanBlocks (reads i) r.indexBlock).items ∧ x = ⟨e, i⟩ := by
  simp only [sourcesFrom, Nat.sub_zero]
  cases readers[i]? with
  | none => simp
  | some r => simp [tagged, eq_comm]

theorem InOrder.ordered (h : InOrder reads readers) (hnew : new reads readers = .ok m) :
    (sourcesFrom reads 0 readers).Ordered MergeEntry.rank where
  ascending i := by
    simp only [sourcesFrom, Nat.sub_zero]
    cases hi : readers[i]? with
    | none => exact .nil
    | some r =>
      refine List.pairwise_map.mpr ((h.sorted i r hi).imp fun hab => ?_)
      rw [← MergeEntry.before_iff]
      exact .inl hab
  apart := by
    intro x i y j hx hy heq
    obtain ⟨_, _, -, -, rfl⟩ := mem_sourcesFrom.mp hx
    obtain ⟨_, _, -, -, rfl⟩ := mem_sourcesFrom.mp hy
    exact (Prod.mk.inj heq).2
  fails_nonempty := by
    intro i hf hnil
    simp only [sourcesFrom, Nat.sub_zero] at hf hnil
    cases hi : readers[i]? with
    | none => rw [hi] at hf; cases hf
    | some r =>
      rw [hi] at hf hnil
      have hscan : scanBlocks (reads i) r.indexBlock = ⟨[], true⟩ := by
        rcases hs : scanBlocks (reads i) r.indexBlock with ⟨items, fails⟩
        simp only [hs, tagged, List.map_eq_nil_iff] at hf hnil
        rw [hf, hnil]
      obtain ⟨e, he⟩ := (newFrom_error 0 (by simpa using h.blocks)).mpr ⟨i, r, hi, by simpa using hscan⟩
      rw [new, he] at hnew
      cases hnew

/-- What a run of `MergeIterator` over the inputs hands out. -/
theorem collect_spec (h : InOrder reads readers) (hnew : new reads readers = .ok m)
    (hfuel : mergeFuel reads readers ≤ fuel) :
    ∃ out : List MergeEntry, m.collect reads fuel = out.map MergeEntry.entry ∧
      (out.Pairwise fun x y => x.rank < y.rank) ∧
      ∀ x, x ∈ out ↔ (∃ i, x ∈ (sourcesFrom reads 0 readers i).items) ∧
        (sourcesFrom reads 0 readers).InTime MergeEntry.rank x := by
  have hlink := newFrom_linked 0 (by simpa using h.blocks) hnew
  have htotal : total m.iterators.length (sourcesFrom reads 0 readers) ≤ fuel := by
    rw [newFrom_length hnew]
    exact total_le_mergeFuel.trans hfuel
  obtain ⟨out, hmerged, hcollect⟩ := collect_merged hlink htotal
  obtain ⟨hsorted, hmem⟩ := hmerged.mem_iff (h.ordered hnew)
  exact ⟨out, hcollect, hsorted, hmem⟩

end MergeIterator

end Compaction

end AiDb
