import AiDb.Sstable.Table

/-!
# The keys of a table

`keys` takes the current key before each step, where the merge takes it behind one.
A block iterator is valid in front of the first entry too, with an empty key.
-/

namespace AiDb.Sstable

namespace SSTableIterator

def valid (it : SSTableIterator) : Bool := it.currentBlockIter.any BlockIterator.valid

def key (it : SSTableIterator) : Bytes := (it.currentBlockIter.map BlockIterator.key).getD []

/-- What the loop of `keys` decreases: the blocks that are left, and then the bytes of
the current one. -/
def blocksLeft (it : SSTableIterator) : Nat := it.indexIterEntries.length - it.currentBlockIndex

def bytesLeft (it : SSTableIterator) : Nat :=
  match it.currentBlockIter with
  | some iter => if iter.valid then iter.block.data.length - iter.current + 1 else 0
  | none => 0

variable {snap : Snap} {it it' : SSTableIterator}

theorem loadCurrentBlock_ok (h : it.loadCurrentBlock snap = .ok it') :
    it.indexIterEntries.length ≤ it.currentBlockIndex ∧ it' = { it with currentBlockIter := none } ∨
      it.currentBlockIndex < it.indexIterEntries.length ∧
        ∃ block : Block, it' = { it with currentBlockIter := some block.iter.seekToFirst } := by
  unfold loadCurrentBlock at h
  cases hi : it.indexIterEntries[it.currentBlockIndex]? with
  | none =>
    simp only [hi] at h
    cases h
    exact .inl ⟨List.getElem?_eq_none_iff.mp hi, rfl⟩
  | some e =>
    simp only [hi, bind, Except.bind, pure, Except.pure] at h
    cases hdata : blockAt snap.decompress it.file e.2 with
    | error err => simp only [hdata] at h; cases h
    | ok data =>
      simp only [hdata] at h
      cases hblock : Block.new data with
      | error err => simp only [hblock] at h; cases h
      | ok block =>
        simp only [hblock, Except.ok.injEq] at h
        exact .inr ⟨(List.getElem?_eq_some_iff.mp hi).1, block, h.symm⟩

theorem nextBlock_ok (h : it.nextBlock snap = .ok (more, it')) :
    it'.valid = more ∧ (it'.blocksLeft < it.blocksLeft ∨ it'.currentBlockIter = none ∧ it'.blocksLeft ≤ it.blocksLeft) := by
  unfold nextBlock at h
  cases hload : loadCurrentBlock snap { it with currentBlockIndex := it.currentBlockIndex + 1 } with
  | error err => rw [hload] at h; cases h
  | ok jt =>
    rw [hload] at h
    obtain ⟨-, rfl⟩ | ⟨hlt, block, rfl⟩ := loadCurrentBlock_ok hload
    · cases h
      exact ⟨rfl, .inr ⟨rfl, by simp only [blocksLeft]; omega⟩⟩
    · simp only [bind, Except.bind, pure, Except.pure, Except.ok.injEq, Prod.mk.injEq] at h
      obtain ⟨rfl, rfl⟩ := h
      refine ⟨by simp [valid, BlockIterator.advance_valid], .inl ?_⟩
      simp only [blocksLeft] at hlt ⊢
      omega

theorem advance_ok (hv : it.valid = true) (h : it.advance snap = .ok (more, it')) : it'.valid = more ∧
    Prod.Lex (· < ·) (· < ·) (it'.blocksLeft, it'.bytesLeft) (it.blocksLeft, it.bytesLeft) := by
  unfold advance at h
  cases hiter : it.currentBlockIter with
  | none => simp [valid, hiter] at hv
  | some iter =>
    have hvalid : iter.valid = true := by simpa [valid, hiter] using hv
    rw [hiter] at h
    dsimp only at h
    split at h
    · rename_i hadv
      obtain ⟨hlt, hle, hblock⟩ := BlockIterator.advance_current hadv
      cases h
      refine ⟨by simp [valid, BlockIterator.advance_valid, hadv], Prod.Lex.right _ ?_⟩
      simp only [bytesLeft, hiter, BlockIterator.advance_valid, hadv, hvalid, hblock, ↓reduceIte]
      omega
    · obtain ⟨hmore, hlt | ⟨hnone, hle⟩⟩ := nextBlock_ok h
      · exact ⟨hmore, Prod.Lex.left _ _ hlt⟩
      · refine ⟨hmore, Prod.Lex.right' _ hle ?_⟩
        simp [bytesLeft, hnone, hiter, hvalid]

variable (snap) in
def collectKeys (it : SSTableIterator) : Except Error (List Bytes) :=
  if _hv : it.valid = true then
    match _h : it.advance snap with
    | .error e => .error e
    | .ok (_, next) => do return it.key :: (← collectKeys next)
  else .ok []
termination_by (it.blocksLeft, it.bytesLeft)
decreasing_by exact (advance_ok _hv _h).2

theorem collectKeys_invalid (h : it.valid = false) : it.collectKeys snap = .ok [] := by
  unfold collectKeys
  rw [dif_neg (by simp [h])]

theorem collectKeys_step (hv : it.valid = true) (h : it.advance snap = .ok (more, it')) :
    it.collectKeys snap = (it'.collectKeys snap).map (it.key :: ·) := by
  rw [collectKeys, dif_pos hv]
  split
  · rename_i e he
    rw [h] at he
    cases he
  · rename_i more' next hnext
    rw [h] at hnext
    cases hnext
    cases it'.collectKeys snap <;> rfl

theorem Yields.collectKeys (h : it.Yields snap es) (hv : it.valid = true) :
    it.collectKeys snap = .ok (it.key :: es.map Prod.fst) := by
  induction h with
  | stop hadv =>
    rw [collectKeys_step hv hadv, collectKeys_invalid (advance_ok hv hadv).1]
    rfl
  | next hadv hentry _ ih =>
    rw [collectKeys_step hv hadv, ih (advance_ok hv hadv).1]
    have hkey : ∀ {jt : SSTableIterator} {e}, jt.entry = some e → jt.key = e.1 := by
      intro jt e he
      obtain ⟨iter, hiter, rfl⟩ := Option.map_eq_some_iff.mp he
      simp [key, hiter]
    rw [hkey hentry]
    rfl

end SSTableIterator

def SSTableReader.keys (r : SSTableReader) (snap : Snap) : Except Error (List Bytes) := do
  let it ← (SSTableIterator.new r).seekToFirst snap
  it.collectKeys snap

theorem SSTableIterator.seekToFirst_key (h : (new r).seekToFirst snap = .ok it) : it.key = [] := by
  unfold seekToFirst at h
  obtain ⟨-, rfl⟩ | ⟨-, block, rfl⟩ := loadCurrentBlock_ok h <;> rfl

theorem SSTableReader.Reads.seekToFirst_valid {r : SSTableReader} (h : r.Reads snap f)
    (hseek : (SSTableIterator.new r).seekToFirst snap = .ok it) : it.valid = !f.blocks.isEmpty := by
  have hindex : (SSTableIterator.new r).indexIterEntries = f.index := by
    simp [SSTableIterator.new, h.iterEntries, List.filterMap_map, Function.comp_def, Except.toOption]
  unfold SSTableIterator.seekToFirst at hseek
  cases hb : f.blocks with
  | nil =>
    rw [SSTableIterator.loadCurrentBlock_none { SSTableIterator.new r with currentBlockIndex := 0 } h hindex (by simp [hb])] at hseek
    cases hseek
    rfl
  | cons blk post =>
    have hblocks : f.blocks = [] ++ blk :: post := hb
    rw [SSTableIterator.loadCurrentBlock_some { SSTableIterator.new r with currentBlockIndex := 0 } h rfl hindex hblocks
      rfl] at hseek
    cases hseek
    have hne := h.wellFormed.nonempty blk (by simp [hb])
    simpa [SSTableIterator.valid, (BlockIterator.seekToFirst_stands 16 blk.entries).2] using hne

theorem SSTableReader.Reads.keys_eq {r : SSTableReader} (h : r.Reads snap f) :
    r.keys snap = .ok (if f.entries = [] then [] else [] :: f.entries.map Entry.key) := by
  obtain ⟨it, hseek, hyields⟩ := SSTableIterator.seekToFirst_yields h
  have hvalid := h.seekToFirst_valid hseek
  have hempty : f.entries = [] ↔ f.blocks = [] := by
    refine ⟨fun he => ?_, fun hb => by simp [SstFile.entries, hb]⟩
    by_contra hb
    obtain ⟨blk, hmem⟩ := List.exists_mem_of_ne_nil _ hb
    exact h.wellFormed.nonempty blk hmem (List.flatMap_eq_nil_iff.mp he blk hmem)
  unfold SSTableReader.keys
  rw [hseek]
  show it.collectKeys snap = _
  split_ifs with he
  · rw [hempty.mp he] at hvalid
    exact SSTableIterator.collectKeys_invalid hvalid
  · have hne : it.valid = true := by simpa [hvalid] using mt hempty.mpr he
    rw [hyields.collectKeys hne, SSTableIterator.seekToFirst_key hseek]
    simp [pairOf, Function.comp_def]

/-- What is written to a table is listed without any other key exactly where nothing
was taken. -/
theorem keys_exact_iff (snap : Snap) (limit blockSize number : Nat) (c : CompressionType) (enabled : Bool)
    (attempts : List (Bytes × Bytes)) (hlimit : limit ≤ 2 ^ 32) (hc : Usable snap limit c)
    (hfit : ∀ e ∈ attempts, e.1.length < 2 ^ 32 ∧ e.2.length < 2 ^ 32)
    (hblocks : (SSTableBuilder.start blockSize c enabled).BlocksFit snap limit attempts)
    (hindex : ((((SSTableBuilder.start blockSize c enabled).addAll snap attempts).2).sealed
      snap).indexBlockBuilder.currentSize < 2 ^ 32) :
    ∃ size file r, ((SSTableBuilder.start blockSize c enabled).addAll snap attempts).2.finish snap = .ok (size, file) ∧
      SSTableReader.openFile snap number file = .ok r ∧
      (r.keys snap = .ok ((accepted attempts).map Prod.fst) ↔ accepted attempts = []) := by
  have hbuilt := SSTableBuilder.addAll_built hc hlimit hfit hblocks
  obtain ⟨size, file, r, f, hfinish, hopen, hreads, hentries, -⟩ := hbuilt.opens hlimit hindex number
  refine ⟨size, file, r, hfinish, hopen, ?_⟩
  rw [hreads.keys_eq, hentries]
  cases accepted attempts with
  | nil => simp
  | cons e es =>
    refine iff_of_false (fun heq => ?_) (List.cons_ne_nil e es)
    have hlen := congrArg List.length (Except.ok.inj heq)
    simp at hlen

theorem keys_exact_iff_refused :
    ∃ size file r, ((SSTableBuilder.start 1 .none true).addAll ⟨.ok, .ok⟩ [([], [49])]).2.finish ⟨.ok, .ok⟩ =
        .ok (size, file) ∧
      SSTableReader.openFile ⟨.ok, .ok⟩ 2 file = .ok r ∧ r.keys ⟨.ok, .ok⟩ = .ok [] := by
  have hblocks : (SSTableBuilder.start 1 .none true).BlocksFit ⟨.ok, .ok⟩ (2 ^ 32) [([], [49])] := by
    rintro (_ | ⟨a, pre⟩) e post h hacc
    · obtain ⟨rfl, -⟩ := List.cons.inj h
      exact absurd hacc (by decide)
    · simp at h
  obtain ⟨size, file, r, hfinish, hopen, hkeys⟩ := keys_exact_iff ⟨.ok, .ok⟩ (2 ^ 32) 1 2 .none true [([], [49])] le_rfl
    (.inl rfl) (by decide) hblocks (by decide +kernel)
  exact ⟨size, file, r, hfinish, hopen, hkeys.mpr (by decide)⟩

theorem not_keys_exact_one :
    ∃ size file r, ((SSTableBuilder.start 4096 .none true).addAll ⟨.ok, .ok⟩ [([97], [49])]).2.finish ⟨.ok, .ok⟩ =
        .ok (size, file) ∧
      SSTableReader.openFile ⟨.ok, .ok⟩ 2 file = .ok r ∧ accepted [([97], [49])] = [([97], [49])] ∧
      r.keys ⟨.ok, .ok⟩ = .ok [[], [97]] := by
  have hblocks : (SSTableBuilder.start 4096 .none true).BlocksFit ⟨.ok, .ok⟩ (2 ^ 32) [([97], [49])] := by
    rintro (_ | ⟨a, pre⟩) e post h -
    · obtain ⟨rfl, -⟩ := List.cons.inj h
      decide
    · simp at h
  have hbuilt := SSTableBuilder.addAll_built (.inl rfl) le_rfl (by decide) hblocks
  obtain ⟨size, file, r, f, hfinish, hopen, hreads, hentries, -⟩ := hbuilt.opens le_rfl (by decide +kernel) 2
  refine ⟨size, file, r, hfinish, hopen, by decide, ?_⟩
  rw [hreads.keys_eq, hentries]
  decide

end AiDb.Sstable
