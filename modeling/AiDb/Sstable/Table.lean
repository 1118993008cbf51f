import AiDb.Sstable.Reading

/-!
# A table from its attempts

The adds that a builder takes are those with a key that is not empty and greater than
the last key it took; the others leave no trace. The table it finishes opens, and
gives back what was taken.
-/

namespace AiDb.Sstable

-- ---------------------------------------------------------------------------
-- Opening what was finished
-- ---------------------------------------------------------------------------

theorem lastDataBlockEnd_map_ok (index : Index) :
    lastDataBlockEnd (index.map .ok) = (index.getLast?.map fun e => e.2.offset + e.2.size).getD 0 := by
  unfold lastDataBlockEnd
  induction index using List.reverseRecOn with
  | nil => rfl
  | append_singleton index e _ => simp

namespace SSTableBuilder

def FilterOf (b : SSTableBuilder) (fed : Option BloomFilter.Fed) : Prop := Option.Rel BloomFilter.Of b.bloomFilter fed

variable {snap : Snap} {limit : Nat} {b : SSTableBuilder} {d : AiDb.SSTableBuilder}

theorem FilterOf.length_metaBlockData (h : b.FilterOf fed) : b.metaBlockData.length < 2 ^ 62 := by
  unfold FilterOf at h
  unfold metaBlockData
  cases hf : b.bloomFilter with
  | none => simp
  | some filter =>
    rw [hf] at h
    cases h with
    | some hof =>
      have hbits := hof.numBits_lt
      simp only [hof.length_encode, numBytes]
      omega

theorem Encodes.length_index (h : b.Encodes snap limit d) :
    12 * d.index.length ≤ b.indexBlockBuilder.currentSize := by
  have hlen := (BlockBuilder.new 1).length_addAll_buffer (d.index.map indexEntry)
  rw [← h.index, List.length_map] at hlen
  show _ ≤ b.indexBlockBuilder.builder.buffer.length + _ + 4
  omega

def file (b : SSTableBuilder) : Bytes := b.writeTail.2

theorem blockAt_indexHandle (hw : b.dataBlockOffset = b.written.length) (snap : Snap) :
    blockAt snap.decompress b.file b.footer.indexHandle = .ok b.indexBlockBuilder.finish := by
  have hhandle : b.footer.indexHandle =
      ⟨(b.written ++ withTrailer .none b.metaBlockData ++ withTrailer .none metaIndexData).length,
        b.indexBlockBuilder.finish.length + 5⟩ := by
    simp [footer, hw, Nat.add_assoc]
  rw [hhandle]
  exact blockAt_append _ _ (show Unpacks snap .none _ b.indexBlockBuilder.finish from rfl)

theorem blockAt_metaBlock (b : SSTableBuilder) (snap : Snap) :
    blockAt snap.decompress b.file ⟨b.written.length, b.metaBlockData.length + 5⟩ = .ok b.metaBlockData := by
  have hfile : b.file = b.written ++ withTrailer .none b.metaBlockData ++
      (withTrailer .none metaIndexData ++ withTrailer .none b.indexBlockBuilder.finish ++ b.footer.encode) := by
    simp [file, writeTail]
  rw [hfile]
  exact blockAt_append _ _ (show Unpacks snap .none _ b.metaBlockData from rfl)

theorem drop_file (b : SSTableBuilder) : b.file.drop (b.file.length - 48) = b.footer.encode :=
  List.drop_left' (by simp [file, writeTail]; omega)

theorem length_file (b : SSTableBuilder) : 48 ≤ b.file.length := by
  simp [file, writeTail]
  omega

theorem Encodes.footer_fits (h : b.Encodes snap limit d) (hlen : d.index.length = d.blocks.length)
    (hindex : b.indexBlockBuilder.currentSize < 2 ^ 32) (hmeta : b.metaBlockData.length < 2 ^ 62) :
    b.written.length < 2 ^ 63 ∧ b.footer.metaIndexHandle.Fits ∧ b.footer.indexHandle.Fits := by
  have htotal := h.total
  have hblocks := h.length_index
  have hwritten := h.written
  have hindexLen : b.indexBlockBuilder.finish.length = b.indexBlockBuilder.currentSize :=
    BlockBuilder.length_finish _
  rw [hlen] at hblocks
  have hw : b.written.length < 2 ^ 62 := by omega
  have hmi : metaIndexData.length = 8 := rfl
  simp only [footer, BlockHandle.Fits, hindexLen, hmi, hwritten]
  omega

theorem Encodes.handles_fit (h : b.Encodes snap limit d) (hw : b.written.length < 2 ^ 63) :
    ∀ e ∈ indexOf d.blocks, e.2.Fits := by
  intro e he
  obtain ⟨blk, hblk, rfl⟩ := List.mem_map.mp he
  have hend := (h.stored blk hblk).end_le
  show blk.handle.offset < _ ∧ blk.handle.size < _
  omega

/-- What `finish` seals: a builder without a block in the making and without a pending
handle, whose index names its blocks. -/
structure Sealed (snap : Snap) (limit : Nat) (b : SSTableBuilder) (d : AiDb.SSTableBuilder) (f : SstFile)
    (fed : Option BloomFilter.Fed) : Prop where
  encodes : b.Encodes snap limit d
  wellFormed : f.WellFormed
  blocks : f.blocks = d.blocks
  index : f.index = d.index
  entries : ∀ e ∈ f.entries, Fits e
  filter : b.FilterOf fed
  indexLen : b.indexBlockBuilder.currentSize < 2 ^ 32

variable {f : SstFile}

theorem Sealed.index_eq (h : b.Sealed snap limit d f fed) : d.index = indexOf d.blocks := by
  rw [← h.index, h.wellFormed.index_eq, h.blocks]

theorem Sealed.fits (h : b.Sealed snap limit d f fed) :
    b.written.length < 2 ^ 63 ∧ b.footer.metaIndexHandle.Fits ∧ b.footer.indexHandle.Fits :=
  h.encodes.footer_fits (by rw [h.index_eq, indexOf, List.length_map]) h.indexLen h.filter.length_metaBlockData

theorem Sealed.indexBlock (h : b.Sealed snap limit d f fed) :
    IndexBlock.new b.indexBlockBuilder.finish = .ok ⟨blockOf 1 (f.index.map indexEntry)⟩ := by
  have hfinish : b.indexBlockBuilder.finish = blockData 1 (f.index.map indexEntry) := by
    rw [IndexBlockBuilder.finish, h.encodes.index, h.index, blockData]
  have hlen : (blockData 1 (f.index.map indexEntry)).length < 2 ^ 32 := by
    rw [← hfinish, IndexBlockBuilder.finish, BlockBuilder.length_finish]
    exact h.indexLen
  rw [hfinish, IndexBlock.new, new_blockData hlen]
  rfl

theorem Sealed.length_index (h : b.Sealed snap limit d f fed) : f.index.length ≤ 2 ^ 31 := by
  have hlen := h.encodes.length_index
  rw [← h.index] at hlen
  have hbytes := h.indexLen
  omega

theorem Sealed.iterEntries (h : b.Sealed snap limit d f fed) :
    (⟨blockOf 1 (f.index.map indexEntry)⟩ : IndexBlock).iterEntries = f.index.map .ok := by
  refine IndexBlock.iterEntries_eq ?_ ?_
  · intro e he
    rw [h.wellFormed.index_eq] at he
    obtain ⟨x, hx, hk⟩ := indexOf_key h.wellFormed.nonempty he
    rw [hk]
    exact (h.entries x hx).1
  · rw [h.wellFormed.index_eq, h.blocks]
    exact h.encodes.handles_fit h.fits.1

theorem Sealed.lastDataBlockEnd_eq (h : b.Sealed snap limit d f fed) :
    lastDataBlockEnd (f.index.map .ok) = if f.blocks = [] then 0 else b.written.length := by
  rw [lastDataBlockEnd_map_ok, h.wellFormed.index_eq]
  cases hb : f.blocks using List.reverseRecOn with
  | nil => rfl
  | append_singleton rest blk =>
    have htiles := h.encodes.tiles
    rw [← h.blocks, hb, List.map_append] at htiles
    simp [indexOf, htiles.getLast]

/-- The filter that the reader comes by: a table without blocks has none, and one whose
meta block is too large is passed over. -/
def readFilter (b : SSTableBuilder) (f : SstFile) : Option BloomFilter :=
  if f.blocks = [] then none
  else if b.metaBlockData.length + 5 ≤ 100000000 then b.bloomFilter
  else none

theorem FilterOf.of_mem (h : b.FilterOf fed) (hmem : filter ∈ b.bloomFilter) : ∃ x, fed = some x ∧ filter.Of x := by
  unfold FilterOf at h
  rw [show b.bloomFilter = some filter from hmem] at h
  cases h with
  | some hof => exact ⟨_, rfl, hof⟩

theorem Sealed.tryReadBloomFilter (h : b.Sealed snap limit d f fed) :
    SSTableReader.tryReadBloomFilter snap b.file b.footer = .ok (b.readFilter f) := by
  unfold SSTableReader.tryReadBloomFilter readFilter
  rw [blockAt_indexHandle h.encodes.written]
  simp only [bind, Except.bind, pure, Except.pure, h.indexBlock, h.iterEntries, h.lastDataBlockEnd_eq]
  by_cases hb : f.blocks = []
  · simp [hb]
  · have hpos : b.written.length ≠ 0 := by
      obtain ⟨blk, hblk⟩ := List.exists_mem_of_ne_nil _ hb
      obtain ⟨-, c, pre, data, post, hw, -, -⟩ := h.encodes.stored blk (by rwa [← h.blocks])
      rw [hw]
      simp
    have hsize : b.footer.metaIndexHandle.offset - b.written.length = b.metaBlockData.length + 5 := by
      simp only [footer, h.encodes.written]
      omega
    simp only [if_neg hb, if_neg hpos, hsize]
    by_cases hlarge : b.metaBlockData.length + 5 ≤ 100000000
    · have hrange : 5 ≤ b.metaBlockData.length + 5 ∧ b.metaBlockData.length + 5 ≤ 100000000 :=
        ⟨Nat.le_add_left _ _, hlarge⟩
      simp only [not_true, hrange, and_self, if_false, blockAt_metaBlock]
      have hfilter := h.filter
      unfold FilterOf at hfilter
      cases hf : b.bloomFilter with
      | none => simp [metaBlockData, hf]
      | some filter =>
        rw [hf] at hfilter
        cases hfilter with
        | some hof =>
          have hdata : b.metaBlockData = filter.encode := by simp [metaBlockData, hf]
          have hlen : filter.encode.length > 12 := by
            have hbits := hof.pos
            rw [hof.length_encode, numBytes]
            omega
          simp [hdata, hlen, hof.decode_encode]
    · simp [hlarge]

theorem Sealed.openFile (h : b.Sealed snap limit d f fed) (number : Nat) :
    ∃ r, SSTableReader.openFile snap number b.file = .ok r ∧ r.Reads snap f ∧ r.file = b.file ∧
      r.bloomFilter = b.readFilter f ∧ r.footer = b.footer := by
  have hdecode : Footer.decode b.footer.encode = .ok b.footer := Footer.decode_encode h.fits.2.1 h.fits.2.2
  have hopen : ∃ r, SSTableReader.openFile snap number b.file = .ok r ∧ r.file = b.file ∧
      r.indexBlock = ⟨blockOf 1 (f.index.map indexEntry)⟩ ∧ r.bloomFilter = b.readFilter f ∧ r.footer = b.footer := by
    unfold SSTableReader.openFile
    rw [if_neg (not_lt.mpr b.length_file), drop_file, hdecode]
    simp only [bind, Except.bind, pure, Except.pure, blockAt_indexHandle h.encodes.written, h.indexBlock,
      h.tryReadBloomFilter]
    have hsize : b.footer.metaIndexHandle.size > 5 := by simp [footer, metaIndexData]
    refine ⟨_, rfl, rfl, rfl, ?_, rfl⟩
    simp only [if_pos hsize]
  obtain ⟨r, hr, hfile, hindex, hfilter, hfooter⟩ := hopen
  refine ⟨r, hr, ⟨h.wellFormed, h.entries, ?_, hindex, ?_, h.length_index⟩, hfile, hfilter, hfooter⟩
  · intro blk hblk
    rw [hfile, file, writeTail]
    simp only [List.append_assoc]
    exact (h.encodes.stored blk (by rwa [← h.blocks])).append _
  · rw [h.wellFormed.index_eq, h.blocks]
    exact h.encodes.handles_fit h.fits.1

-- ---------------------------------------------------------------------------
-- Adding
-- ---------------------------------------------------------------------------

@[simp] theorem takePending_dataBlockBuilder (b : SSTableBuilder) :
    b.takePending.dataBlockBuilder = b.dataBlockBuilder := by
  unfold takePending
  split <;> rfl

@[simp] theorem takePending_compression (b : SSTableBuilder) : b.takePending.compression = b.compression := by
  unfold takePending
  split <;> rfl

@[simp] theorem addToFilter_compression (b : SSTableBuilder) (key : Bytes) :
    (b.addToFilter key).compression = b.compression := by
  unfold addToFilter
  split <;> rfl

@[simp] theorem flushDataBlock_compression (b : SSTableBuilder) (snap : Snap) :
    (b.flushDataBlock snap).2.compression = b.compression := by
  unfold flushDataBlock
  split
  · rfl
  · simp only
    split <;> rfl

theorem takePending_bloomFilter (b : SSTableBuilder) : b.takePending.bloomFilter = b.bloomFilter := by
  unfold takePending
  split <;> rfl

theorem flushDataBlock_bloomFilter (b : SSTableBuilder) (snap : Snap) :
    (b.flushDataBlock snap).2.bloomFilter = b.bloomFilter := by
  unfold flushDataBlock
  split
  · rfl
  · simp only
    split <;> rfl

theorem takePending_enableBloomFilter (b : SSTableBuilder) : b.takePending.enableBloomFilter = b.enableBloomFilter := by
  unfold takePending
  split <;> rfl

theorem addToFilter_enableBloomFilter (b : SSTableBuilder) (key : Bytes) :
    (b.addToFilter key).enableBloomFilter = b.enableBloomFilter := by
  unfold addToFilter
  split <;> rfl

theorem flushDataBlock_enableBloomFilter (b : SSTableBuilder) (snap : Snap) :
    (b.flushDataBlock snap).2.enableBloomFilter = b.enableBloomFilter := by
  unfold flushDataBlock
  split
  · rfl
  · simp only
    split <;> rfl

theorem FilterOf.of_eq {b' : SSTableBuilder} (h : b.FilterOf fed) (heq : b'.bloomFilter = b.bloomFilter) : b'.FilterOf fed := by
  unfold FilterOf
  rw [heq]
  exact h

/-- What an add feeds the filter; the first key brings the filter into being. -/
def feed (enabled : Bool) (fed : Option BloomFilter.Fed) (key : Bytes) : Option BloomFilter.Fed :=
  if enabled then some ((fed.getD .default).add key) else fed

theorem FilterOf.addToFilter (h : b.FilterOf fed) (key : Bytes) :
    (b.addToFilter key).FilterOf (feed b.enableBloomFilter fed key) := by
  unfold SSTableBuilder.addToFilter feed
  by_cases hon : b.enableBloomFilter = true
  · rw [if_pos hon, if_pos hon]
    unfold FilterOf at h
    refine .some ?_
    cases hf : b.bloomFilter with
    | none =>
      rw [hf] at h
      cases h
      exact BloomFilter.default_of.add key
    | some filter =>
      rw [hf] at h
      cases h with
      | some hof => exact hof.add key
  · rw [if_neg hon, if_neg hon]
    exact h

theorem Encodes.assertsPending (h : b.Encodes snap limit d) (hholds : d.Holds es) : b.AssertsPending := by
  intro hp
  obtain ⟨handle, hhandle⟩ := Option.ne_none_iff_exists'.mp hp
  rw [h.pendingHandle] at hhandle
  have hindex := hholds.index_eq
  rw [AiDb.SSTableBuilder.takePending_index_of_some hhandle] at hindex
  have hasc : Ascending ((d.index ++ [(d.lastKey, handle)]).map indexEntry) := by
    rw [hindex]
    refine indexOf_ascending hholds.nonempty ⟨?_, ?_⟩
    · exact hholds.ascending.sorted.sublist (by rw [hholds.entries]; exact List.sublist_append_left _ _)
    · intro e he
      exact hholds.ascending.key_ne e (by rw [hholds.entries]; exact List.mem_append_left _ he)
  rw [List.map_append] at hasc
  have hcross := (List.pairwise_append.mp hasc.sorted).2.2
  rw [BlockBuilder.Takes, h.index, BlockBuilder.lastKey_addAll, h.lastKey]
  refine ⟨hasc.key_ne (indexEntry (d.lastKey, handle)) (by simp), fun hne => ?_⟩
  have hlast : d.index.map indexEntry ≠ [] := by
    intro hnil
    rw [hnil] at hne
    exact hne rfl
  obtain ⟨e, he, hkey⟩ := lastKeyOf_mem hlast
  rw [hkey]
  exact hcross e he _ (List.mem_singleton_self _)

theorem Encodes.assertsAdd (h : b.Encodes snap limit d) (hholds : d.Holds es) (hne : key ≠ [])
    (hlt : ∀ x ∈ es, x.key < key) : b.AssertsAdd key := by
  refine ⟨h.assertsPending hholds, hne, fun hl => ?_⟩
  rw [takePending_dataBlockBuilder, h.block.built, BlockBuilder.lastKey_addAll] at hl ⊢
  have hentries : d.dataBlockBuilder.entries ≠ [] := by
    intro hnil
    rw [hnil] at hl
    exact hl rfl
  obtain ⟨e, he, hkey⟩ := lastKeyOf_mem hentries
  rw [hkey]
  exact hlt e (by rw [hholds.entries]; exact List.mem_append_right _ he)

/-- The builder took these entries, and fed its filter, if it has one, with these keys. -/
structure Built (snap : Snap) (limit : Nat) (b : SSTableBuilder) (es : List Entry) (fed : Option BloomFilter.Fed) : Prop where
  decoded : ∃ d, AiDb.SSTableBuilder.Holds d es ∧ b.Encodes snap limit d
  usable : Usable snap limit b.compression
  filter : b.FilterOf fed
  fits : ∀ e ∈ es, Fits e

variable {es : List Entry}

theorem Built.add_ok (h : b.Built snap limit es fed) (hlimit : limit ≤ 2 ^ 32)
    (e : Entry) (hne : e.key ≠ []) (hlt : ∀ x ∈ es, x.key < e.key) (hfit : Fits e)
    (hroom : (b.dataBlockBuilder.add e.key e.value.bytes).currentSize < limit) :
    (b.add snap e.key e.value.bytes).1 = .ok () ∧
      (b.add snap e.key e.value.bytes).2.Built snap limit (es ++ [e]) (feed b.enableBloomFilter fed e.key) := by
  obtain ⟨d, hholds, henc⟩ := h.decoded
  obtain ⟨d', hadd⟩ := hholds.add_ok (packedLen snap) hne hlt
  have hholds' := hholds.add hadd
  have hordD := hholds.not_le_lastKey hlt
  have hord : ¬(b.lastKey ≠ [] ∧ e.key ≤ b.lastKey) := by rwa [henc.lastKey]
  have hfits : ∀ x ∈ es ++ [e], Fits x := by
    intro x hx
    rcases List.mem_append.mp hx with hx | hx
    · exact h.fits x hx
    · rw [List.mem_singleton.mp hx]
      exact hfit
  have hpush := henc.takePending.push e (by rwa [takePending_dataBlockBuilder])
  have hfilter : ((b.takePending.push e.key e.value.bytes).addToFilter e.key).FilterOf
      (feed b.enableBloomFilter fed e.key) := by
    rw [← b.takePending_enableBloomFilter]
    refine FilterOf.addToFilter (b := b.takePending.push e.key e.value.bytes) ?_ e.key
    exact h.filter.of_eq b.takePending_bloomFilter
  have hcomp : ((b.takePending.push e.key e.value.bytes).addToFilter e.key).compression = b.compression := by
    rw [addToFilter_compression]
    exact b.takePending_compression
  unfold AiDb.SSTableBuilder.add at hadd
  rw [if_neg hne, if_neg hordD] at hadd
  unfold SSTableBuilder.add
  rw [if_neg hne, if_neg hord]
  simp only at hadd ⊢
  rw [hpush.block.currentSize, hpush.blockSize]
  split at hadd <;> rename_i hsize
  · obtain ⟨hok, hflushed⟩ := hpush.flushDataBlock (by rw [hcomp]; exact h.usable) hlimit
    cases hadd
    rw [if_pos hsize]
    refine ⟨hok, ⟨_, hholds', hflushed⟩, ?_, hfilter.of_eq (flushDataBlock_bloomFilter _ snap), hfits⟩
    rw [flushDataBlock_compression, hcomp]
    exact h.usable
  · cases hadd
    rw [if_neg hsize]
    exact ⟨rfl, ⟨_, hholds', hpush⟩, by rw [hcomp]; exact h.usable, hfilter, hfits⟩

theorem Built.add_error (h : b.Built snap limit es fed)
    (hno : ¬(key ≠ [] ∧ ∀ x ∈ es, x.key < key)) (value : Bytes) :
    ∃ err, b.add snap key value = (.error err, b) := by
  obtain ⟨d, hholds, henc⟩ := h.decoded
  unfold SSTableBuilder.add
  by_cases hne : key = []
  · rw [if_pos hne]
    exact ⟨_, rfl⟩
  · have hord : b.lastKey ≠ [] ∧ key ≤ b.lastKey := by
      by_contra hord
      rw [henc.lastKey] at hord
      exact hno ⟨hne, hholds.lt_of_lastKey (e := ⟨key, ⟨value, 0⟩⟩) hord⟩
    rw [if_neg hne, if_pos hord]
    exact ⟨_, rfl⟩

theorem add_enableBloomFilter (b : SSTableBuilder) (snap : Snap) (key value : Bytes) :
    (b.add snap key value).2.enableBloomFilter = b.enableBloomFilter := by
  unfold add
  split_ifs
  · rfl
  · rfl
  · dsimp only
    split_ifs
    · rw [flushDataBlock_enableBloomFilter, addToFilter_enableBloomFilter]
      exact b.takePending_enableBloomFilter
    · rw [addToFilter_enableBloomFilter]
      exact b.takePending_enableBloomFilter

end SSTableBuilder

-- ---------------------------------------------------------------------------
-- Attempts
-- ---------------------------------------------------------------------------

/-- After the adds `taken`, this one is to be taken: its key is not empty and greater
than the last key. -/
def Accepts (taken : List (Bytes × Bytes)) (e : Bytes × Bytes) : Prop :=
  e.1 ≠ [] ∧ ∀ last ∈ taken.getLast?, last.1 < e.1

instance decidableAccepts (taken : List (Bytes × Bytes)) (e : Bytes × Bytes) : Decidable (Accepts taken e) :=
  inferInstanceAs (Decidable (_ ∧ _))

def accepted (attempts : List (Bytes × Bytes)) : List (Bytes × Bytes) :=
  attempts.foldl (fun taken e => if Accepts taken e then taken ++ [e] else taken) []

theorem accepted_append_singleton (attempts : List (Bytes × Bytes)) (e : Bytes × Bytes) :
    accepted (attempts ++ [e]) =
      if Accepts (accepted attempts) e then accepted attempts ++ [e] else accepted attempts := by
  unfold accepted
  rw [List.foldl_append]
  rfl

def entryOf (e : Bytes × Bytes) : Entry := ⟨e.1, ⟨e.2, 0⟩⟩

theorem map_pairOf_entryOf (es : List (Bytes × Bytes)) : (es.map entryOf).map pairOf = es := by
  simp [Function.comp_def, pairOf, entryOf]

theorem accepts_iff (h : Ascending (taken.map entryOf)) (e : Bytes × Bytes) :
    Accepts taken e ↔ e.1 ≠ [] ∧ ∀ x ∈ taken.map entryOf, x.key < e.1 := by
  refine and_congr_right fun _ => ⟨fun hlast x hx => ?_, fun hall last hmem => ?_⟩
  · cases hl : taken.getLast? with
    | none =>
      rw [List.getLast?_eq_none_iff] at hl
      simp [hl] at hx
    | some last =>
      have hle := h.le_lastKeyOf hx
      simp only [lastKeyOf, List.getLast?_map, hl, Option.map_some, Option.getD_some] at hle
      exact lt_of_le_of_lt hle (hlast last hl)
  · exact hall (entryOf last) (List.mem_map_of_mem (List.mem_of_getLast? hmem))

namespace SSTableBuilder

variable {snap : Snap} {limit : Nat} {c : CompressionType} {enabled : Bool} {b : SSTableBuilder}
  {attempts : List (Bytes × Bytes)} {e : Bytes × Bytes}

theorem Built.attempt (h : b.Built snap limit ((accepted attempts).map entryOf) fed) (hlimit : limit ≤ 2 ^ 32)
    (hfit : Fits (entryOf e))
    (hroom : Accepts (accepted attempts) e → (b.dataBlockBuilder.add e.1 e.2).currentSize < limit) :
    (b.add snap e.1 e.2).2.Built snap limit ((accepted (attempts ++ [e])).map entryOf)
      (if Accepts (accepted attempts) e then feed b.enableBloomFilter fed e.1 else fed) := by
  obtain ⟨d, hholds, -⟩ := h.decoded
  have hiff := accepts_iff hholds.ascending e
  rw [accepted_append_singleton]
  split_ifs with hacc
  · obtain ⟨hne, hlt⟩ := hiff.mp hacc
    rw [List.map_append]
    exact (h.add_ok hlimit (entryOf e) hne hlt hfit (hroom hacc)).2
  · obtain ⟨err, herr⟩ := h.add_error (fun h => hacc (hiff.mpr h)) e.2
    rw [herr]
    exact h

theorem addAll_append_singleton (b : SSTableBuilder) (snap : Snap) (attempts : List (Bytes × Bytes))
    (e : Bytes × Bytes) :
    (b.addAll snap (attempts ++ [e])).2 = ((b.addAll snap attempts).2.add snap e.1 e.2).2 := by
  induction attempts generalizing b with
  | nil => rfl
  | cons a attempts ih => exact ih (b.add snap a.1 a.2).2

def start (blockSize : Nat) (c : CompressionType) (enabled : Bool) : SSTableBuilder :=
  ((new.setBlockSize blockSize).setCompression c).setBloomFilterEnabled enabled

theorem start_built (hc : Usable snap limit c) (blockSize : Nat) (enabled : Bool) :
    (start blockSize c enabled).Built snap limit [] none where
  decoded := by
    refine ⟨AiDb.SSTableBuilder.new blockSize c, AiDb.SSTableBuilder.holds_new blockSize c, ?_⟩
    refine ⟨BlockBuilder.encodes_new 16, rfl, rfl, rfl, rfl, rfl, rfl, rfl, rfl, ?_, rfl, Nat.zero_le _, ?_⟩
    · simp [AiDb.SSTableBuilder.new]
    · exact fun he => absurd (show (BlockBuilder.new 16).isEmpty = false from he) (by decide)
  usable := hc
  filter := .none
  fits := by simp

/-- What the filter of a builder holds that took these entries. -/
def fedBy (enabled : Bool) (taken : List (Bytes × Bytes)) : Option BloomFilter.Fed :=
  taken.foldl (fun fed e => feed enabled fed e.1) none

theorem fedBy_append_singleton (enabled : Bool) (taken : List (Bytes × Bytes)) (e : Bytes × Bytes) :
    fedBy enabled (taken ++ [e]) = feed enabled (fedBy enabled taken) e.1 := by
  simp [fedBy]

theorem fedBy_eq (enabled : Bool) (taken : List (Bytes × Bytes)) :
    fedBy enabled taken =
      if enabled = false ∨ taken = [] then none else some { BloomFilter.Fed.default with keys := taken.map Prod.fst } := by
  induction taken using List.reverseRecOn with
  | nil => simp [fedBy]
  | append_singleton taken e ih =>
    rw [fedBy_append_singleton, ih, feed]
    cases enabled with
    | false => simp
    | true => cases taken <;> simp [BloomFilter.Fed.add, BloomFilter.Fed.default]

theorem mem_fedBy (h : fedBy enabled taken = some fed) : ∀ e ∈ taken, e.1 ∈ fed.keys := by
  rw [fedBy_eq] at h
  split_ifs at h
  obtain rfl := Option.some.inj h
  exact fun e he => List.mem_map_of_mem he

/-- Every block stays below the limit: the block that an add that is to be taken goes
into, with its entry. -/
def BlocksFit (snap : Snap) (limit : Nat) (b : SSTableBuilder) (attempts : List (Bytes × Bytes)) : Prop :=
  ∀ pre e post, attempts = pre ++ e :: post → Accepts (accepted pre) e →
    ((b.addAll snap pre).2.dataBlockBuilder.add e.1 e.2).currentSize < limit

theorem BlocksFit.append_left {b : SSTableBuilder} (h : b.BlocksFit snap limit (attempts ++ more)) :
    b.BlocksFit snap limit attempts := by
  rintro pre e post rfl
  exact h pre e (post ++ more) (by simp)

theorem addAll_enableBloomFilter (b : SSTableBuilder) (snap : Snap) (attempts : List (Bytes × Bytes)) :
    (b.addAll snap attempts).2.enableBloomFilter = b.enableBloomFilter := by
  induction attempts generalizing b with
  | nil => rfl
  | cons e attempts ih => exact (ih (b.add snap e.1 e.2).2).trans (b.add_enableBloomFilter snap e.1 e.2)

theorem addAll_built {blockSize : Nat} (hc : Usable snap limit c) (hlimit : limit ≤ 2 ^ 32)
    (hfit : ∀ e ∈ attempts, e.1.length < 2 ^ 32 ∧ e.2.length < 2 ^ 32)
    (hblocks : (start blockSize c enabled).BlocksFit snap limit attempts) :
    ((start blockSize c enabled).addAll snap attempts).2.Built snap limit ((accepted attempts).map entryOf)
      (fedBy enabled (accepted attempts)) := by
  induction attempts using List.reverseRecOn with
  | nil => exact start_built hc blockSize enabled
  | append_singleton attempts e ih =>
    have hbuilt := ih (fun x hx => hfit x (List.mem_append_left _ hx)) hblocks.append_left
    have hnext := hbuilt.attempt hlimit (hfit e (by simp)) (hblocks attempts e [] rfl)
    rw [addAll_enableBloomFilter] at hnext
    rw [addAll_append_singleton]
    convert hnext using 1
    rw [accepted_append_singleton]
    split_ifs
    · exact fedBy_append_singleton enabled _ e
    · rfl

theorem addAll_accepted {blockSize : Nat} (hc : Usable snap limit c) (hlimit : limit ≤ 2 ^ 32)
    (hfit : ∀ e ∈ attempts, e.1.length < 2 ^ 32 ∧ e.2.length < 2 ^ 32)
    (hblocks : (start blockSize c enabled).BlocksFit snap limit attempts) :
    ((start blockSize c enabled).addAll snap (accepted attempts)).2 =
      ((start blockSize c enabled).addAll snap attempts).2 := by
  induction attempts using List.reverseRecOn with
  | nil => rfl
  | append_singleton attempts e ih =>
    have hfit' := fun x hx => hfit x (List.mem_append_left _ hx)
    have hsame := ih hfit' hblocks.append_left
    have hbuilt := addAll_built hc hlimit hfit' hblocks.append_left
    obtain ⟨d, hholds, -⟩ := hbuilt.decoded
    rw [addAll_append_singleton, accepted_append_singleton]
    split_ifs with hacc
    · rw [addAll_append_singleton, hsame]
    · obtain ⟨err, herr⟩ := hbuilt.add_error (fun h => hacc ((accepts_iff hholds.ascending e).mpr h)) e.2
      rw [herr, hsame]

def sealed (snap : Snap) (b : SSTableBuilder) : SSTableBuilder := (b.flushDataBlock snap).2.takePending

theorem Built.finish {fed : Option BloomFilter.Fed} (h : b.Built snap limit es fed) (hlimit : limit ≤ 2 ^ 32)
    (hindex : (b.sealed snap).indexBlockBuilder.currentSize < 2 ^ 32) :
    (b.flushDataBlock snap).2.AssertsPending ∧ b.finish snap = .ok (b.sealed snap).writeTail ∧
    ∃ d f, f.entries = es ∧ (b.sealed snap).Sealed snap limit d f fed := by
  obtain ⟨d, hholds, henc⟩ := h.decoded
  obtain ⟨hok, hflushed⟩ := henc.flushDataBlock h.usable hlimit
  obtain ⟨hwf, hentries⟩ := hholds.finish_wellFormed (packedLen snap)
  have hfinish : b.finish snap = .ok (b.sealed snap).writeTail := by
    unfold SSTableBuilder.finish sealed
    rw [show b.flushDataBlock snap = (.ok (), (b.flushDataBlock snap).2) from Prod.ext hok rfl]
  refine ⟨hflushed.assertsPending hholds.flushDataBlock, hfinish, (d.flushDataBlock (packedLen snap)).takePending,
    d.finish (packedLen snap), hentries, hflushed.takePending, hwf, rfl, rfl, ?_, ?_, hindex⟩
  · rw [hentries]
    exact h.fits
  · refine h.filter.of_eq ?_
    exact (takePending_bloomFilter _).trans (flushDataBlock_bloomFilter b snap)

theorem sealed_bloomFilter (b : SSTableBuilder) (snap : Snap) : (b.sealed snap).bloomFilter = b.bloomFilter := by
  rw [sealed, takePending_bloomFilter, flushDataBlock_bloomFilter]

theorem mem_readFilter {f : SstFile} (h : filter ∈ (b.sealed snap).readFilter f) : filter ∈ b.bloomFilter := by
  unfold readFilter at h
  split_ifs at h
  · cases h
  · rwa [sealed_bloomFilter] at h
  · cases h

theorem Built.opens {fed : Option BloomFilter.Fed} (h : b.Built snap limit es fed) (hlimit : limit ≤ 2 ^ 32)
    (hindex : (b.sealed snap).indexBlockBuilder.currentSize < 2 ^ 32) (number : Nat) :
    ∃ size file r f, b.finish snap = .ok (size, file) ∧ SSTableReader.openFile snap number file = .ok r ∧
      r.Reads snap f ∧ f.entries = es ∧ r.bloomFilter = (b.sealed snap).readFilter f := by
  obtain ⟨-, hfinish, d, f, hentries, hsealed⟩ := h.finish hlimit hindex
  obtain ⟨r, hr, hreads, -, hfilter, -⟩ := hsealed.openFile number
  exact ⟨_, _, r, f, hfinish, hr, hreads, hentries, hfilter⟩

/-- An add after these attempts is taken when it is to be taken, and then no assertion
fails. -/
theorem add_ok_iff {blockSize : Nat} (hc : Usable snap limit c) (hlimit : limit ≤ 2 ^ 32)
    (hfit : ∀ x ∈ pre ++ e :: post, x.1.length < 2 ^ 32 ∧ x.2.length < 2 ^ 32)
    (hblocks : (start blockSize c enabled).BlocksFit snap limit (pre ++ e :: post)) :
    ((((start blockSize c enabled).addAll snap pre).2.add snap e.1 e.2).1 = .ok () ↔
        Accepts (accepted pre) e) ∧
      (Accepts (accepted pre) e → ((start blockSize c enabled).addAll snap pre).2.AssertsAdd e.1) := by
  have hbuilt := addAll_built hc hlimit (fun x hx => hfit x (List.mem_append_left _ hx)) hblocks.append_left
  obtain ⟨d, hholds, henc⟩ := hbuilt.decoded
  have hiff := accepts_iff hholds.ascending e
  refine ⟨⟨fun hok => ?_, fun hacc => ?_⟩, fun hacc => ?_⟩
  · by_contra hacc
    obtain ⟨err, herr⟩ := hbuilt.add_error (fun h => hacc (hiff.mpr h)) e.2
    rw [herr] at hok
    cases hok
  · obtain ⟨hne, hlt⟩ := hiff.mp hacc
    exact (hbuilt.add_ok hlimit (entryOf e) hne hlt (hfit e (by simp)) (hblocks pre e post rfl hacc)).1
  · obtain ⟨hne, hlt⟩ := hiff.mp hacc
    exact henc.assertsAdd hholds hne hlt

end SSTableBuilder

-- ---------------------------------------------------------------------------
-- The round trip
-- ---------------------------------------------------------------------------

theorem live_stored_of_mem {taken : List (Bytes × Bytes)} {e : Bytes × Bytes} (h : Ascending (taken.map entryOf)) (he : e ∈ taken) (hv : e.2 ≠ []) :
    (live (stored (taken.map entryOf) e.1)).map Value.bytes = some e.2 := by
  have hst : stored (taken.map entryOf) e.1 = some ⟨e.2, 0⟩ := h.stored_of_mem (List.mem_map_of_mem he)
  simp [hst, hv]

theorem live_stored_eq_none {taken : List (Bytes × Bytes)} (h : ∀ e ∈ taken, e.1 = key → e.2 = []) :
    (live (stored (taken.map entryOf) key)).map Value.bytes = none := by
  cases hst : stored (taken.map entryOf) key with
  | none => rfl
  | some v =>
    obtain ⟨e, he, heq⟩ := List.mem_map.mp (mem_of_stored hst)
    have hkey : e.1 = key := congrArg Entry.key heq
    have hbytes : e.2 = v.bytes := congrArg (fun x => x.value.bytes) heq
    simp [← hbytes, h e he hkey]

/-- What is written to a table is read back from it. The attempts may come in any order;
`limit` is a length below which the `snap` crate compresses. -/
theorem table_round_trip (snap : Snap) (limit blockSize number : Nat) (c : CompressionType) (enabled : Bool)
    (attempts : List (Bytes × Bytes)) (hlimit : limit ≤ 2 ^ 32) (hc : Usable snap limit c)
    (hfit : ∀ e ∈ attempts, e.1.length < 2 ^ 32 ∧ e.2.length < 2 ^ 32)
    (hblocks : (SSTableBuilder.start blockSize c enabled).BlocksFit snap limit attempts)
    (hindex : ((((SSTableBuilder.start blockSize c enabled).addAll snap attempts).2).sealed
      snap).indexBlockBuilder.currentSize < 2 ^ 32) :
    let b := SSTableBuilder.start blockSize c enabled
    (∀ pre e post, attempts = pre ++ e :: post →
      (((b.addAll snap pre).2.add snap e.1 e.2).1 = .ok () ↔ Accepts (accepted pre) e) ∧
        (Accepts (accepted pre) e → (b.addAll snap pre).2.AssertsAdd e.1)) ∧
    (b.addAll snap (accepted attempts)).2 = (b.addAll snap attempts).2 ∧
    ((b.addAll snap attempts).2.flushDataBlock snap).2.AssertsPending ∧
    ∃ size file r, (b.addAll snap attempts).2.finish snap = .ok (size, file) ∧
      SSTableReader.openFile snap number file = .ok r ∧
      (∀ e ∈ accepted attempts, e.2 ≠ [] → r.get snap e.1 = .ok (some e.2)) ∧
      (∀ key, (∀ e ∈ accepted attempts, e.1 = key → e.2 = []) → r.get snap key = .ok none) ∧
      (∃ it, (SSTableIterator.new r).seekToFirst snap = .ok it ∧ it.Yields snap (accepted attempts)) ∧
      r.smallestKey snap = .ok ((accepted attempts).head?.map Prod.fst) ∧
      r.largestKey = .ok ((accepted attempts).getLast?.map Prod.fst) := by
  intro b
  refine ⟨?_, SSTableBuilder.addAll_accepted hc hlimit hfit hblocks, ?_⟩
  · rintro pre e post rfl
    exact SSTableBuilder.add_ok_iff hc hlimit hfit hblocks
  · have hbuilt := SSTableBuilder.addAll_built hc hlimit hfit hblocks
    obtain ⟨size, file, r, f, hfinish, hr, hreads, hentries, hfilter⟩ := hbuilt.opens hlimit hindex number
    have hasserts := (hbuilt.finish hlimit hindex).1
    have hasc : Ascending ((accepted attempts).map entryOf) := by
      rw [← hentries]
      exact hreads.wellFormed.ascending
    have hget : ∀ key, r.get snap key = .ok ((live (stored ((accepted attempts).map entryOf) key)).map Value.bytes) := by
      intro key
      rw [hreads.get_eq ?_, hentries]
      rw [hentries]
      intro e he filter hmem
      obtain ⟨x, hx, rfl⟩ := List.mem_map.mp he
      rw [hfilter] at hmem
      obtain ⟨fed, hfed, hof⟩ := hbuilt.filter.of_mem (SSTableBuilder.mem_readFilter hmem)
      exact (hof.mayContain_iff _).mpr (BloomFilter.Fed.claims_of_mem (SSTableBuilder.mem_fedBy hfed x hx))
    refine ⟨hasserts, _, _, r, hfinish, hr, ?_, ?_, ?_, ?_, ?_⟩
    · intro e he hv
      rw [hget, live_stored_of_mem hasc he hv]
    · intro key hkey
      rw [hget, live_stored_eq_none hkey]
    · obtain ⟨it, hseek, hyields⟩ := SSTableIterator.seekToFirst_yields hreads
      rw [hentries, map_pairOf_entryOf] at hyields
      exact ⟨it, hseek, hyields⟩
    · rw [hreads.smallestKey, hentries]
      simp [entryOf, Function.comp_def]
    · rw [hreads.largestKey, hentries]
      simp [entryOf, Function.comp_def]

/-- Two blocks of one entry each, the second a tombstone, and between the two an add that
is refused for its key. -/
theorem table_round_trip_two :
    let b := (SSTableBuilder.start 1 .none true).addAll ⟨.ok, .ok⟩ [([97], [49]), ([97], [50]), ([98], [])]
    ∃ size file r, b.2.finish ⟨.ok, .ok⟩ = .ok (size, file) ∧ SSTableReader.openFile ⟨.ok, .ok⟩ 2 file = .ok r ∧
      r.get ⟨.ok, .ok⟩ [97] = .ok (some [49]) ∧ r.get ⟨.ok, .ok⟩ [98] = .ok none ∧ r.get ⟨.ok, .ok⟩ [99] = .ok none ∧
      (∃ it, (SSTableIterator.new r).seekToFirst ⟨.ok, .ok⟩ = .ok it ∧ it.Yields ⟨.ok, .ok⟩ [([97], [49]), ([98], [])]) ∧
      r.smallestKey ⟨.ok, .ok⟩ = .ok (some [97]) ∧ r.largestKey = .ok (some [98]) := by
  intro b
  have hfit : ∀ e ∈ ([([97], [49]), ([97], [50]), ([98], [])] : List (Bytes × Bytes)),
      e.1.length < 2 ^ 32 ∧ e.2.length < 2 ^ 32 := by decide
  have hblocks : (SSTableBuilder.start 1 .none true).BlocksFit ⟨.ok, .ok⟩ (2 ^ 32)
      [([97], [49]), ([97], [50]), ([98], [])] := by
    rintro (_ | ⟨a, _ | ⟨a', _ | ⟨a'', pre⟩⟩⟩) e post h hacc
    · obtain ⟨rfl, -⟩ := List.cons.inj h
      decide
    · simp only [List.cons_append, List.nil_append, List.cons.injEq] at h
      obtain ⟨rfl, rfl, -⟩ := h
      exact absurd hacc (by decide)
    · simp only [List.cons_append, List.nil_append, List.cons.injEq] at h
      obtain ⟨rfl, rfl, rfl, -⟩ := h
      decide +kernel
    · simp at h
  have hindex : (b.2.sealed ⟨.ok, .ok⟩).indexBlockBuilder.currentSize < 2 ^ 32 := by decide +kernel
  obtain ⟨-, -, -, size, file, r, hfinish, hopen, hget, hnone, hiter, hsmallest, hlargest⟩ :=
    table_round_trip ⟨.ok, .ok⟩ (2 ^ 32) 1 2 .none true _ le_rfl (.inl rfl) hfit hblocks hindex
  exact ⟨size, file, r, hfinish, hopen, hget ([97], [49]) (by decide) (by decide), hnone [98] (by decide),
    hnone [99] (by decide), hiter, hsmallest, hlargest⟩

end AiDb.Sstable
