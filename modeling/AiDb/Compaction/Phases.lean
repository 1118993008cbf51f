import AiDb.Compaction.Newest

/-!
# The two phases of a merge

`MergeIterator::new` reads the first block of every input, the iteration reads
the others. When the reads change in between, the merge is the one in which
every block is read in its own phase.
-/

namespace AiDb

def AgreeFrom (read read' : BlockRead) (index : Index) (n : Nat) : Prop :=
  ∀ j e, n ≤ j → index[j]? = some e → read e.2 = read' e.2

theorem AgreeFrom.mono {read read' : BlockRead} (h : AgreeFrom read read' index n) (hle : n ≤ m) : AgreeFrom read read' index m :=
  fun j e hj => h j e (hle.trans hj)

namespace SSTableIterator

variable {it it' : SSTableIterator} {read read' : BlockRead}

theorem nextBlock_congr (h : AgreeFrom read read' it.indexIterEntries (it.currentBlockIndex + 1)) :
    it.nextBlock read = it.nextBlock read' := by
  unfold nextBlock loadCurrentBlock
  dsimp only
  cases hi : it.indexIterEntries[it.currentBlockIndex + 1]? with
  | none => rfl
  | some e => simp only [h _ e (le_refl _) hi]

theorem advance_congr (h : AgreeFrom read read' it.indexIterEntries (it.currentBlockIndex + 1)) :
    it.advance read = it.advance read' := by
  unfold advance
  cases it.currentBlockIter with
  | none => exact nextBlock_congr h
  | some b =>
    dsimp only
    split
    · rfl
    · exact nextBlock_congr h

theorem nextBlock_index (h : it.nextBlock read = .ok (more, it')) :
    it'.indexIterEntries = it.indexIterEntries ∧ it.currentBlockIndex ≤ it'.currentBlockIndex := by
  unfold nextBlock loadCurrentBlock at h
  dsimp only at h
  cases hi : it.indexIterEntries[it.currentBlockIndex + 1]? with
  | none =>
    rw [hi] at h
    cases h
    exact ⟨rfl, Nat.le_succ _⟩
  | some e =>
    rw [hi] at h
    cases hr : read e.2 with
    | error err => simp only [hr] at h; cases h
    | ok entries =>
      simp only [hr] at h
      cases h
      exact ⟨rfl, Nat.le_succ _⟩

theorem advance_index (h : it.advance read = .ok (more, it')) :
    it'.indexIterEntries = it.indexIterEntries ∧ it.currentBlockIndex ≤ it'.currentBlockIndex := by
  unfold advance at h
  cases hb : it.currentBlockIter with
  | none => rw [hb] at h; exact nextBlock_index h
  | some b =>
    rw [hb] at h
    dsimp only at h
    split at h
    · cases h
      exact ⟨rfl, le_refl _⟩
    · exact nextBlock_index h

end SSTableIterator

namespace Compaction.MergeIterator

variable {reads reads' : Nat → BlockRead}

/-- The reads agree on every block that an iterator has still to load. -/
def AgreeAhead (reads reads' : Nat → BlockRead) (m : MergeIterator) : Prop :=
  ∀ i it, m.iterators[i]? = some it →
    AgreeFrom (reads i) (reads' i) it.indexIterEntries (it.currentBlockIndex + 1)

theorem advanceIterator_congr {m : MergeIterator} (h : AgreeAhead reads reads' m) (i : Nat) :
    m.advanceIterator reads i = m.advanceIterator reads' i := by
  unfold advanceIterator
  cases hi : m.iterators[i]? with
  | none => rfl
  | some it => simp only [SSTableIterator.advance_congr (h i it hi)]

theorem advanceIterator_ahead {m m' : MergeIterator} (h : AgreeAhead reads reads' m)
    (hm : m.advanceIterator reads i = .ok m') : AgreeAhead reads reads' m' := by
  unfold advanceIterator at hm
  cases hi : m.iterators[i]? with
  | none =>
    rw [hi] at hm
    cases hm
    exact h
  | some it =>
    rw [hi] at hm
    dsimp only at hm
    cases hadv : it.advance (reads i) with
    | error e => rw [hadv] at hm; cases hm
    | ok p =>
      obtain ⟨more, it'⟩ := p
      rw [hadv] at hm
      cases hm
      intro j jt hj
      by_cases hji : i = j
      · subst hji
        rw [List.getElem?_set_self (List.getElem?_eq_some_iff.mp hi).1] at hj
        cases hj
        obtain ⟨hindex, hle⟩ := SSTableIterator.advance_index hadv
        rw [hindex]
        exact (h i it hi).mono (Nat.succ_le_succ hle)
      · rw [List.getElem?_set_ne hji] at hj
        exact h j jt hj

theorem collect_congr (fuel : Nat) {m : MergeIterator} (h : AgreeAhead reads reads' m) :
    m.collect reads fuel = m.collect reads' fuel := by
  induction fuel generalizing m with
  | zero => rfl
  | succ fuel ih =>
    simp only [collect, next]
    cases hpop : popHeap m.heap with
    | none => rfl
    | some p =>
      obtain ⟨e, heap⟩ := p
      have h' : AgreeAhead reads reads' { m with heap := heap } := h
      simp only [← advanceIterator_congr h' e.iteratorIndex]
      cases hadv : advanceIterator reads { m with heap := heap } e.iteratorIndex with
      | error err => rfl
      | ok m' => exact congrArg (e.entry :: ·) (ih (advanceIterator_ahead h' hadv))

theorem newFrom_congr (base : Nat) (h : ∀ i r, rs[i]? = some r → ∀ e, r.indexBlock[0]? = some e →
      reads (base + i) e.2 = reads' (base + i) e.2 ∧ reads (base + i) e.2 ≠ .ok []) :
    newFrom reads base rs = newFrom reads' base rs := by
  induction rs generalizing base with
  | nil => rfl
  | cons r rs ih =>
    have htail : newFrom reads (base + 1) rs = newFrom reads' (base + 1) rs := by
      refine ih (base + 1) fun i r' hi e he => ?_
      have := h (i + 1) r' (by simpa using hi) e he
      rwa [show base + (i + 1) = base + 1 + i by omega] at this
    have hr := h 0 r rfl
    rw [Nat.add_zero] at hr
    simp only [newFrom, SSTableIterator.new, SSTableIterator.seekToFirst, SSTableIterator.loadCurrentBlock, htail]
    cases he : r.indexBlock[0]? with
    | none =>
      have hnil : r.indexBlock = [] := by simpa using he
      simp only [hnil]
      rfl
    | some e =>
      obtain ⟨heq, hne⟩ := hr e he
      simp only [← heq]
      cases hread : reads base e.2 with
      | error err => rfl
      | ok entries =>
        cases entries with
        | nil => exact absurd hread hne
        | cons x xs => rfl

theorem newFrom_iterators {rs : List SSTableReader} {it : SSTableIterator} {i : Nat} (base : Nat)
    (h : newFrom reads base rs = .ok m) (hi : m.iterators[i]? = some it) :
    ∃ r, rs[i]? = some r ∧ it.indexIterEntries = r.indexBlock := by
  induction rs generalizing base m i with
  | nil => cases h; simp at hi
  | cons r rs ih =>
    simp only [newFrom] at h
    cases hseek : (SSTableIterator.new r).seekToFirst (reads base) with
    | error e => rw [hseek] at h; cases h
    | ok it0 =>
      rw [hseek] at h
      dsimp only [bind, Except.bind] at h
      cases hadv : it0.advance (reads base) with
      | error e => rw [hadv] at h; cases h
      | ok p =>
        obtain ⟨more, it1⟩ := p
        rw [hadv] at h
        dsimp only at h
        cases htail : newFrom reads (base + 1) rs with
        | error e => rw [htail] at h; cases h
        | ok tail =>
          rw [htail] at h
          cases h
          cases i with
          | succ i => exact ih (base + 1) htail (by simpa using hi)
          | zero =>
            have hit : it1 = it := by simpa using hi
            subst hit
            refine ⟨r, rfl, ((SSTableIterator.advance_index hadv).1).trans ?_⟩
            unfold SSTableIterator.seekToFirst SSTableIterator.loadCurrentBlock SSTableIterator.new at hseek
            dsimp only at hseek
            split at hseek
            · cases hseek; rfl
            · rename_i k handle _
              cases hread : reads base handle with
              | error e => rw [hread] at hseek; cases hseek
              | ok entries => rw [hread] at hseek; cases hseek; rfl

def firstHandle (readers : List SSTableReader) (i : Nat) : Option BlockHandle :=
  (readers[i]?.bind fun r => r.indexBlock.head?).map Prod.snd

/-- Every block read in its own phase: the first one of each input before, the
others after. -/
def phased (before after : Nat → BlockRead) (readers : List SSTableReader) (i : Nat) : BlockRead := fun handle =>
  if firstHandle readers i = some handle then before i handle else after i handle

theorem phased_first {readers : List SSTableReader} (hr : readers[i]? = some r)
    (he : r.indexBlock[0]? = some e) : phased before after readers i e.2 = before i e.2 := by
  have : firstHandle readers i = some e.2 := by
    simp [firstHandle, hr, List.head?_eq_getElem?, he]
  rw [phased, if_pos this]

theorem merge_phased {before after : Nat → BlockRead} {readers : List SSTableReader}
    (hfirst : ∀ i r, readers[i]? = some r → ∀ e, r.indexBlock[0]? = some e → before i e.2 ≠ .ok [])
    (hapart : ∀ r ∈ readers, r.indexBlock.Pairwise fun a b => a.2 ≠ b.2) (fuel : Nat) :
    (new before readers).map (fun m => m.collect after fuel) =
      (new (phased before after readers) readers).map
        fun m => m.collect (phased before after readers) fuel := by
  have hnew : new before readers = new (phased before after readers) readers := by
    refine newFrom_congr 0 fun i r hi e he => ?_
    rw [Nat.zero_add]
    exact ⟨(phased_first hi he).symm, hfirst i r hi e he⟩
  rw [← hnew]
  cases hm : new before readers with
  | error e => rfl
  | ok m =>
    refine congrArg Except.ok (collect_congr fuel fun i it hi => ?_)
    obtain ⟨r, hr, hindex⟩ := newFrom_iterators 0 hm hi
    rw [hindex]
    intro j e hj he
    -- a block after the first one has another handle
    have hne : firstHandle readers i ≠ some e.2 := by
      have hp := hapart r (List.mem_of_getElem? hr)
      cases hb : r.indexBlock with
      | nil => rw [hb] at he; simp at he
      | cons e0 es =>
        rw [hb] at hp he
        obtain ⟨j, rfl⟩ : ∃ j', j = j' + 1 := ⟨j - 1, by omega⟩
        have := (List.pairwise_cons.mp hp).1 e (List.mem_of_getElem? (by simpa using he))
        simpa [firstHandle, hr, hb] using this
    rw [phased, if_neg hne]

end Compaction.MergeIterator

-- ---------------------------------------------------------------------------
-- What is handed out was read
-- ---------------------------------------------------------------------------

def Yields (P : Entry → Prop) (read : BlockRead) : Prop :=
  ∀ handle es, read handle = .ok es → ∀ e ∈ es, P e

variable {P : Entry → Prop}

def SSTableIterator.All (P : Entry → Prop) (it : SSTableIterator) : Prop :=
  ∀ b, it.currentBlockIter = some b → (∀ e ∈ b.rest, P e) ∧ ∀ e, b.current = some e → P e

namespace SSTableIterator

variable {it it' : SSTableIterator} {read : BlockRead}

theorem loadCurrentBlock_all (hr : Yields P read) (h : it.loadCurrentBlock read = .ok it') : it'.All P := by
  unfold loadCurrentBlock at h
  split at h
  · cases h
    exact nofun
  · rename_i k handle _
    cases hread : read handle with
    | error e => rw [hread] at h; cases h
    | ok es =>
      rw [hread] at h
      cases h
      rintro b ⟨⟩
      exact ⟨hr handle es hread, nofun⟩

theorem all_advance {b : BlockIterator} (h : (∀ e ∈ b.rest, P e) ∧ ∀ e, b.current = some e → P e) :
    (∀ e ∈ b.advance.2.rest, P e) ∧ ∀ e, b.advance.2.current = some e → P e := by
  unfold BlockIterator.advance
  split
  · split
    · exact h
    · rename_i e es hrest
      rw [hrest] at h
      refine ⟨fun x hx => h.1 x (List.mem_cons_of_mem _ hx), ?_⟩
      rintro x ⟨⟩
      exact h.1 _ List.mem_cons_self
  · exact h

theorem nextBlock_all (hr : Yields P read) (h : it.nextBlock read = .ok (more, it')) : it'.All P := by
  unfold nextBlock at h
  cases hload : loadCurrentBlock { it with currentBlockIndex := it.currentBlockIndex + 1 } read with
  | error e => rw [hload] at h; cases h
  | ok it1 =>
    have hall := loadCurrentBlock_all hr hload
    rw [hload] at h
    dsimp only [bind, Except.bind] at h
    split at h
    · rename_i b hb
      cases h
      rintro b' ⟨⟩
      exact all_advance (hall b hb)
    · cases h
      exact hall

theorem advance_all (hr : Yields P read) (hit : it.All P) (h : it.advance read = .ok (more, it')) : it'.All P := by
  unfold advance at h
  cases hb : it.currentBlockIter with
  | none => rw [hb] at h; exact nextBlock_all hr h
  | some b =>
    rw [hb] at h
    dsimp only at h
    split at h
    · cases h
      rintro b' ⟨⟩
      exact all_advance (hit b hb)
    · exact nextBlock_all hr h

end SSTableIterator

namespace Compaction.MergeIterator

structure All (P : Entry → Prop) (m : MergeIterator) : Prop where
  heap : ∀ x ∈ m.heap, P x.entry
  iterators : ∀ it ∈ m.iterators, it.All P

theorem pending_all {it : SSTableIterator} (h : it.All P) (hx : x ∈ pending i more it) : P x.entry := by
  unfold pending at hx
  split at hx
  · split at hx
    · rename_i e he
      obtain rfl := List.mem_singleton.mp hx
      unfold SSTableIterator.entry at he
      obtain ⟨b, hb, hcur⟩ := Option.bind_eq_some_iff.mp he
      exact (h b hb).2 e hcur
    · cases hx
  · cases hx

theorem newFrom_all {rs : List SSTableReader} {base : Nat} (hr : ∀ i, Yields P (reads i))
    (h : newFrom reads base rs = .ok m) : m.All P := by
  induction rs generalizing base m with
  | nil => cases h; exact ⟨nofun, nofun⟩
  | cons r rs ih =>
    simp only [newFrom] at h
    cases hseek : (SSTableIterator.new r).seekToFirst (reads base) with
    | error e => rw [hseek] at h; cases h
    | ok it0 =>
      rw [hseek] at h
      dsimp only [bind, Except.bind] at h
      cases hadv : it0.advance (reads base) with
      | error e => rw [hadv] at h; cases h
      | ok p =>
        obtain ⟨more, it1⟩ := p
        rw [hadv] at h
        dsimp only at h
        cases htail : newFrom reads (base + 1) rs with
        | error e => rw [htail] at h; cases h
        | ok tail =>
          rw [htail] at h
          cases h
          have hit := SSTableIterator.advance_all (hr base)
            (SSTableIterator.loadCurrentBlock_all (hr base) hseek) hadv
          have htail := ih htail
          refine ⟨fun x hx => ?_, fun it hmem => ?_⟩
          · rcases List.mem_append.mp hx with hx | hx
            · exact pending_all hit hx
            · exact htail.heap x hx
          · rcases List.mem_cons.mp hmem with rfl | hmem
            · exact hit
            · exact htail.iterators it hmem

theorem advanceIterator_all {m m' : MergeIterator} (hr : ∀ i, Yields P (reads i)) (hm : m.All P)
    (h : m.advanceIterator reads i = .ok m') : m'.All P := by
  unfold advanceIterator at h
  cases hi : m.iterators[i]? with
  | none =>
    rw [hi] at h
    cases h
    exact hm
  | some it =>
    rw [hi] at h
    dsimp only at h
    cases hadv : it.advance (reads i) with
    | error e => rw [hadv] at h; cases h
    | ok p =>
      obtain ⟨more, it'⟩ := p
      rw [hadv] at h
      cases h
      have hit := SSTableIterator.advance_all (hr i) (hm.iterators it (List.mem_of_getElem? hi)) hadv
      refine ⟨fun x hx => ?_, fun jt hmem => ?_⟩
      · rcases List.mem_append.mp hx with hx | hx
        · exact pending_all hit hx
        · exact hm.heap x hx
      · rcases List.mem_or_eq_of_mem_set hmem with hmem | rfl
        · exact hm.iterators jt hmem
        · exact hit

theorem collect_all (fuel : Nat) {m : MergeIterator} (hr : ∀ i, Yields P (reads i)) (hm : m.All P)
    (he : e ∈ m.collect reads fuel) : P e := by
  induction fuel generalizing m with
  | zero => cases he
  | succ fuel ih =>
    simp only [collect, next] at he
    cases hpop : popHeap m.heap with
    | none => rw [hpop] at he; cases he
    | some p =>
      obtain ⟨x, heap⟩ := p
      rw [hpop] at he
      have hperm := (popHeap_some hpop).1
      have hm' : All P { m with heap := heap } :=
        ⟨fun y hy => hm.heap y (hperm.mem_iff.mpr (List.mem_cons_of_mem _ hy)), hm.iterators⟩
      dsimp only at he
      cases hadv : advanceIterator reads { m with heap := heap } x.iteratorIndex with
      | error err => rw [hadv] at he; cases he
      | ok m' =>
        rw [hadv] at he
        rcases List.mem_cons.mp he with rfl | he
        · exact hm.heap x (hperm.mem_iff.mpr List.mem_cons_self)
        · exact ih (advanceIterator_all hr hm' hadv) he

end Compaction.MergeIterator

end AiDb
