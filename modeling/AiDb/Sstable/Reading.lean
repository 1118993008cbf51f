import AiDb.Sstable.RoundTrip

/-!
# Reading an encoded table

`Reads` says that a byte reader has open a file in which a decoded table lies. Its
lookups, its least and greatest key and its iterator then give what the decoded
table holds; a lookup only where the filter lets the key pass.
-/

namespace AiDb.Sstable

open Library (Outcome)

def pairOf (e : Entry) : Bytes × Bytes := (e.key, e.value.bytes)

structure SSTableReader.Reads (snap : Snap) (r : SSTableReader) (f : SstFile) : Prop where
  wellFormed : f.WellFormed
  entries : ∀ e ∈ f.entries, Fits e
  stored : ∀ blk ∈ f.blocks, Stored snap r.file blk
  indexBlock : r.indexBlock = ⟨blockOf 1 (f.index.map indexEntry)⟩
  handles : ∀ e ∈ f.index, e.2.Fits
  indexLen : f.index.length ≤ 2 ^ 31

-- ---------------------------------------------------------------------------
-- The index
-- ---------------------------------------------------------------------------

theorem lastKeyOf_mem (h : es ≠ []) : ∃ e ∈ es, lastKeyOf es = e.key :=
  ⟨es.getLast h, List.getLast_mem h, by simp [lastKeyOf, List.getLast?_eq_some_getLast h]⟩

theorem indexOf_ascending (hne : ∀ b ∈ blocks, b.entries ≠ [])
    (hasc : Ascending (blocks.flatMap AiDb.Block.entries)) : Ascending ((indexOf blocks).map indexEntry) where
  sorted := by
    have hcross := (List.pairwise_flatMap.mp hasc.sorted).2
    simp only [indexOf, List.map_map, List.pairwise_map]
    refine hcross.imp_of_mem fun {a b} ha hb h => ?_
    obtain ⟨x, hx, hxa⟩ := lastKeyOf_mem (hne a ha)
    obtain ⟨y, hy, hyb⟩ := lastKeyOf_mem (hne b hb)
    show lastKeyOf a.entries < lastKeyOf b.entries
    rw [hxa, hyb]
    exact h x hx y hy
  key_ne := by
    intro e he
    simp only [indexOf, List.map_map, List.mem_map, Function.comp_apply] at he
    obtain ⟨b, hb, rfl⟩ := he
    obtain ⟨x, hx, hxb⟩ := lastKeyOf_mem (hne b hb)
    show lastKeyOf b.entries ≠ []
    rw [hxb]
    exact hasc.key_ne x (List.mem_flatMap.mpr ⟨b, hb, hx⟩)

theorem indexOf_key (hne : ∀ b ∈ blocks, b.entries ≠ []) (he : e ∈ indexOf blocks) :
    ∃ x ∈ blocks.flatMap AiDb.Block.entries, e.1 = x.key := by
  obtain ⟨b, hb, rfl⟩ := List.mem_map.mp he
  obtain ⟨x, hx, hxb⟩ := lastKeyOf_mem (hne b hb)
  exact ⟨x, List.mem_flatMap.mpr ⟨b, hb, hx⟩, hxb⟩

theorem scan_map (key : Bytes) (es : List Entry) :
    scan key (es.map pairOf) = (scanBlock key es).map Value.bytes := by
  induction es with
  | nil => rfl
  | cons e es ih =>
    simp only [List.map_cons, pairOf, scan, scanBlock]
    split_ifs
    · rfl
    · rfl
    · rfl
    · exact ih

namespace SSTableReader

variable {snap : Snap} {r : SSTableReader} {f : SstFile}

theorem Reads.keys (h : r.Reads snap f) : ∀ e ∈ f.index, e.1.length < 2 ^ 32 := by
  intro e he
  rw [h.wellFormed.index_eq] at he
  obtain ⟨x, hx, hk⟩ := indexOf_key h.wellFormed.nonempty he
  rw [hk]
  exact (h.entries x hx).1

theorem Reads.iterEntries (h : r.Reads snap f) : r.indexBlock.iterEntries = f.index.map .ok := by
  rw [h.indexBlock]
  exact IndexBlock.iterEntries_eq h.keys h.handles

theorem Reads.findBlock (h : r.Reads snap f) (key : Bytes) :
    r.indexBlock.findBlock key = .ok (AiDb.findBlock f.index key) := by
  have hasc : Ascending (f.index.map indexEntry) := by
    rw [h.wellFormed.index_eq]
    exact indexOf_ascending h.wellFormed.nonempty h.wellFormed.ascending
  rw [h.indexBlock]
  exact IndexBlock.findBlock_eq hasc h.keys h.handles h.indexLen key

theorem Reads.block (h : r.Reads snap f) (hb : blk ∈ f.blocks) :
    (blockAt snap.decompress r.file blk.handle).bind Block.new = .ok (blockOf 16 blk.entries) := by
  rw [(h.stored blk hb).blockAt]
  exact new_blockData (h.stored blk hb).1

theorem Reads.fits (h : r.Reads snap f) (hb : blk ∈ f.blocks) : ∀ e ∈ blk.entries, Fits e :=
  fun e he => h.entries e (List.mem_flatMap.mpr ⟨blk, hb, he⟩)

theorem Reads.visited (h : r.Reads snap f) (hb : blk ∈ f.blocks) :
    (blockOf 16 blk.entries).iter.seekToFirst.visited = blk.entries.map pairOf :=
  BlockIterator.visited_seekToFirst (h.fits hb)

-- ---------------------------------------------------------------------------
-- Lookups
-- ---------------------------------------------------------------------------

def Admits (r : SSTableReader) (key : Bytes) : Prop := ∀ filter ∈ r.bloomFilter, filter.mayContain key = true

theorem get_of_not_admits (h : ¬r.Admits key) : r.get snap key = .ok none := by
  unfold SSTableReader.get
  have hdeny : (r.bloomFilter.any fun filter => !filter.mayContain key) = true := by
    unfold Admits at h
    push Not at h
    obtain ⟨filter, hfilter, hmay⟩ := h
    exact (Option.any_eq_true _ _).mpr ⟨filter, hfilter, by simpa using hmay⟩
  rw [if_pos hdeny]

theorem get_of_admits (h : r.Admits key) : r.get snap key = (do
    match ← r.indexBlock.findBlock key with
    | none => return none
    | some handle => .lift do
      let block ← Block.new (← blockAt snap.decompress r.file handle)
      return scan key block.iter.seekToFirst.visited) := by
  unfold SSTableReader.get
  have hpass : (r.bloomFilter.any fun filter => !filter.mayContain key) = false := by
    rw [Option.any_eq_false]
    intro filter hfilter
    simp [h filter hfilter]
  exact if_neg (by simp [hpass])

theorem Reads.get (h : r.Reads snap f) (hadmits : r.Admits key) :
    r.get snap key = .ok ((live (AiDb.stored f.entries key)).map Value.bytes) := by
  rw [get_of_admits hadmits, h.findBlock, h.wellFormed.index_eq]
  by_cases hb : f.blocks = []
  · simp [hb, indexOf, AiDb.findBlock, SstFile.entries, AiDb.stored]
  · obtain ⟨blk, hmem, hfind, hst⟩ := findBlock_spec key h.wellFormed.nonempty h.wellFormed.ascending hb
    have hsorted : blk.entries.Pairwise fun x y => x.key < y.key :=
      (List.pairwise_flatMap.mp h.wellFormed.ascending.sorted).1 blk hmem
    have hblock := h.block hmem
    rw [hfind, SstFile.entries, hst, Outcome.ok_bind]
    simp only [bind, Except.bind, pure, Except.pure] at hblock ⊢
    rw [(h.stored blk hmem).blockAt] at hblock ⊢
    simp only at hblock ⊢
    rw [hblock]
    simp only [h.visited hmem, scan_map, scanBlock_eq hsorted, Outcome.lift_ok]

/-- A filter that lets the keys of the table pass is not noticed. -/
theorem Reads.get_eq (h : r.Reads snap f) (hadmits : ∀ e ∈ f.entries, r.Admits e.key) (key : Bytes) :
    r.get snap key = .ok ((live (AiDb.stored f.entries key)).map Value.bytes) := by
  by_cases hkey : r.Admits key
  · exact h.get hkey
  · have hnone : AiDb.stored f.entries key = none := by
      rw [stored_eq_none]
      rintro e he rfl
      exact hkey (hadmits e he)
    rw [get_of_not_admits hkey, hnone]
    rfl

theorem Reads.smallestKey (h : r.Reads snap f) :
    r.smallestKey snap = .ok (f.entries.head?.map Entry.key) := by
  unfold SSTableReader.smallestKey
  rw [h.iterEntries, h.wellFormed.index_eq]
  cases hb : f.blocks with
  | nil => simp [indexOf, SstFile.entries, hb]
  | cons blk rest =>
    have hmem : blk ∈ f.blocks := by simp [hb]
    have hblock := h.block hmem
    have hne := h.wellFormed.nonempty blk hmem
    simp only [indexOf, List.map_cons, bind, Except.bind, pure, Except.pure] at hblock ⊢
    rw [(h.stored blk hmem).blockAt] at hblock ⊢
    simp only at hblock ⊢
    rw [hblock]
    simp only [h.visited hmem, SstFile.entries, hb, List.flatMap_cons]
    cases he : blk.entries with
    | nil => exact absurd he hne
    | cons e es => rfl

theorem mapM_ok (xs : List α) : (xs.map .ok).mapM id = (.ok xs : Except ε (List α)) := by
  induction xs with
  | nil => rfl
  | cons x xs ih => simp [List.mapM_cons, ih, bind, Except.bind, pure, Except.pure]

theorem Reads.largestKey (h : r.Reads snap f) :
    r.largestKey = .ok (f.entries.getLast?.map Entry.key) := by
  unfold SSTableReader.largestKey
  rw [h.iterEntries, mapM_ok, h.wellFormed.index_eq]
  simp only [bind, Except.bind, pure, Except.pure, Except.ok.injEq, SstFile.entries, indexOf, List.getLast?_map,
    Option.map_map]
  cases hb : f.blocks using List.reverseRecOn with
  | nil => simp
  | append_singleton rest blk =>
    have hne := h.wellFormed.nonempty blk (by simp [hb])
    simp [lastKeyOf, List.getLast?_append, List.getLast?_eq_some_getLast hne]

end SSTableReader

-- ---------------------------------------------------------------------------
-- Iterating
-- ---------------------------------------------------------------------------

namespace SSTableIterator

variable {snap : Snap} {r : SSTableReader} {f : SstFile}

/-- The iterator is in the block after `pre`, behind the entries `done` of it. -/
structure Stands (r : SSTableReader) (f : SstFile) (it : SSTableIterator) (pre : List AiDb.Block)
    (done todo : List Entry) : Prop where
  file : it.file = r.file
  index : it.indexIterEntries = f.index
  block : it.currentBlockIndex = pre.length
  iter : ∃ iter, it.currentBlockIter = some iter ∧ iter.Stands 16 done todo ∧ iter.valid = true

theorem loadCurrentBlock_some (it : SSTableIterator) (h : r.Reads snap f) (hfile : it.file = r.file)
    (hindex : it.indexIterEntries = f.index) (hblocks : f.blocks = pre ++ blk :: post)
    (hi : it.currentBlockIndex = pre.length) :
    it.loadCurrentBlock snap =
      .ok { it with currentBlockIter := some (blockOf 16 blk.entries).iter.seekToFirst } := by
  have hmem : blk ∈ f.blocks := by simp [hblocks]
  have hblock := h.block hmem
  have hget : it.indexIterEntries[it.currentBlockIndex]? = some (lastKeyOf blk.entries, blk.handle) := by
    rw [hindex, h.wellFormed.index_eq, hblocks, hi]
    simp [indexOf]
  unfold loadCurrentBlock
  simp only [hget, bind, Except.bind, pure, Except.pure, hfile] at hblock ⊢
  rw [(h.stored blk hmem).blockAt] at hblock ⊢
  simp only at hblock ⊢
  rw [hblock]

theorem loadCurrentBlock_none (it : SSTableIterator) (h : r.Reads snap f)
    (hindex : it.indexIterEntries = f.index) (hi : f.blocks.length ≤ it.currentBlockIndex) :
    it.loadCurrentBlock snap = .ok { it with currentBlockIter := none } := by
  have hget : it.indexIterEntries[it.currentBlockIndex]? = none := by
    rw [hindex, h.wellFormed.index_eq, indexOf]
    simpa using hi
  unfold loadCurrentBlock
  simp only [hget]

theorem Stands.advance_cons {it : SSTableIterator} (h : it.Stands r f pre done (e :: todo)) (hfit : Fits e) :
    ∃ it', it.advance snap = .ok (true, it') ∧ it'.entry = some (pairOf e) ∧
      it'.Stands r f pre (done ++ [e]) todo := by
  obtain ⟨iter, hiter, hs, hv⟩ := h.iter
  obtain ⟨hadv, hnext, hv', hk, hval⟩ := hs.advance_cons hv hfit
  refine ⟨{ it with currentBlockIter := some iter.advance.2 }, ?_, ?_, h.file, h.index, h.block, _, rfl, hnext, hv'⟩
  · unfold advance
    rw [hiter]
    simp only [hadv, if_true]
  · simp [entry, hk, hval, pairOf]

theorem Stands.advance_nil {it : SSTableIterator} (h : it.Stands r f pre done []) (snap : Snap) :
    ∃ iter, it.advance snap = { it with currentBlockIter := some iter }.nextBlock snap := by
  obtain ⟨iter, hiter, hs, -⟩ := h.iter
  refine ⟨iter.advance.2, ?_⟩
  unfold advance
  rw [hiter]
  simp only [hs.advance_nil.1, Bool.false_eq_true, if_false]

theorem nextBlock_none (it : SSTableIterator) (h : r.Reads snap f) (hindex : it.indexIterEntries = f.index)
    (hi : f.blocks.length ≤ it.currentBlockIndex + 1) : ∃ it', it.nextBlock snap = .ok (false, it') := by
  unfold nextBlock
  rw [loadCurrentBlock_none { it with currentBlockIndex := it.currentBlockIndex + 1 } h hindex hi]
  exact ⟨_, rfl⟩

theorem nextBlock_some (it : SSTableIterator) (h : r.Reads snap f) (hfile : it.file = r.file)
    (hindex : it.indexIterEntries = f.index) (hblocks : f.blocks = pre ++ blk :: post)
    (hi : it.currentBlockIndex + 1 = pre.length) (he : blk.entries = e :: todo) :
    ∃ it', it.nextBlock snap = .ok (true, it') ∧ it'.entry = some (pairOf e) ∧
      it'.Stands r f pre [e] todo := by
  have hmem : blk ∈ f.blocks := by simp [hblocks]
  obtain ⟨hs, hv⟩ := BlockIterator.seekToFirst_stands 16 blk.entries
  rw [he] at hs hv
  obtain ⟨hadv, hnext, hv', hk, hval⟩ := hs.advance_cons (by simpa using hv) (h.fits hmem e (by simp [he]))
  unfold nextBlock
  rw [loadCurrentBlock_some { it with currentBlockIndex := it.currentBlockIndex + 1 } h hfile hindex hblocks hi, he]
  simp only [bind, Except.bind, pure, Except.pure, hadv]
  exact ⟨_, rfl, by simp [entry, hk, hval, pairOf], hfile, hindex, hi, _, rfl, hnext, hv'⟩

theorem Stands.yields {it : SSTableIterator} (h : it.Stands r f pre done todo) (hr : r.Reads snap f)
    (hblocks : f.blocks = pre ++ blk :: post) (htodo : ∀ e ∈ todo, Fits e) :
    it.Yields snap ((todo ++ post.flatMap AiDb.Block.entries).map pairOf) := by
  induction post generalizing it pre blk done todo with
  | nil =>
    induction todo generalizing it done with
    | nil =>
      obtain ⟨iter, hadv⟩ := h.advance_nil snap
      have hlen : f.blocks.length ≤ it.currentBlockIndex + 1 := by simp [hblocks, h.block]
      obtain ⟨it', hnone⟩ := nextBlock_none { it with currentBlockIter := some iter } hr h.index hlen
      exact .stop (hadv.trans hnone)
    | cons e todo ih =>
      obtain ⟨it', hadv, hentry, hs⟩ := h.advance_cons (htodo e List.mem_cons_self)
      exact .next hadv hentry (ih hs fun x hx => htodo x (List.mem_cons_of_mem e hx))
  | cons next post ihPost =>
    induction todo generalizing it done with
    | nil =>
      obtain ⟨iter, hadv⟩ := h.advance_nil snap
      have hblocks' : f.blocks = (pre ++ [blk]) ++ next :: post := by simp [hblocks]
      have hmem : next ∈ f.blocks := by simp [hblocks]
      cases he : next.entries with
      | nil => exact absurd he (hr.wellFormed.nonempty next hmem)
      | cons e es =>
        obtain ⟨it', hnext, hentry, hs⟩ := nextBlock_some { it with currentBlockIter := some iter } hr
          h.file h.index hblocks' (by simp [h.block]) he
        have hfits : ∀ x ∈ es, Fits x := fun x hx => hr.fits hmem x (by simp [he, hx])
        have hrest := ihPost hs hblocks' hfits
        simp only [List.nil_append, List.flatMap_cons, he, List.cons_append, List.map_cons]
        exact .next (hadv.trans hnext) hentry hrest
    | cons e todo ih =>
      obtain ⟨it', hadv, hentry, hs⟩ := h.advance_cons (htodo e List.mem_cons_self)
      exact .next hadv hentry (ih hs fun x hx => htodo x (List.mem_cons_of_mem e hx))

/-- From the first entry on, an iterator comes by every entry of the table. -/
theorem seekToFirst_yields (h : r.Reads snap f) :
    ∃ it, (new r).seekToFirst snap = .ok it ∧ it.Yields snap (f.entries.map pairOf) := by
  have hindex : (new r).indexIterEntries = f.index := by
    simp [new, h.iterEntries, List.filterMap_map, Function.comp_def, Except.toOption]
  cases hb : f.blocks with
  | nil =>
    have hload := loadCurrentBlock_none { new r with currentBlockIndex := 0 } h hindex (by simp [hb])
    refine ⟨_, hload, ?_⟩
    obtain ⟨it', hnone⟩ := nextBlock_none
      { new r with currentBlockIndex := 0, currentBlockIter := none } h hindex (by simp [hb])
    have hentries : f.entries = [] := by simp [SstFile.entries, hb]
    rw [hentries]
    exact .stop hnone
  | cons blk post =>
    have hblocks : f.blocks = [] ++ blk :: post := hb
    have hmem : blk ∈ f.blocks := by simp [hb]
    have hload := loadCurrentBlock_some { new r with currentBlockIndex := 0 } h rfl hindex hblocks rfl
    refine ⟨_, hload, ?_⟩
    obtain ⟨hs, hv⟩ := BlockIterator.seekToFirst_stands 16 blk.entries
    have hvalid : (blockOf 16 blk.entries).iter.seekToFirst.valid = true := by
      simpa [hv] using h.wellFormed.nonempty blk hmem
    have hstands : Stands r f
        { new r with
          currentBlockIndex := 0
          currentBlockIter := some (blockOf 16 blk.entries).iter.seekToFirst } [] [] blk.entries :=
      ⟨rfl, hindex, rfl, _, rfl, hs, hvalid⟩
    have hyields := hstands.yields h hblocks (h.fits hmem)
    rw [← List.flatMap_cons, ← hb] at hyields
    exact hyields

end SSTableIterator

end AiDb.Sstable
