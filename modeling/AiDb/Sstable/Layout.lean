import AiDb.Sstable.Settings

/-!
# The layout of a table file

The data blocks, the meta block, the meta index block, the index block and the footer
lie one behind the other. The footer has handles for the index blocks alone; the
reader takes the meta block to begin where the last data block ends.
-/

namespace AiDb.Sstable

namespace SSTableReader

/-- The meta block, where `try_read_bloom_filter` looks for it. -/
def metaBlockHandle (r : SSTableReader) : BlockHandle :=
  let metaBlockOffset := lastDataBlockEnd r.indexBlock.iterEntries
  ⟨metaBlockOffset, r.footer.metaIndexHandle.offset - metaBlockOffset⟩

def tail (r : SSTableReader) : List BlockHandle :=
  [r.metaBlockHandle, r.footer.metaIndexHandle, r.footer.indexHandle, ⟨r.file.length - 48, 48⟩]

def entriesAt (snap : Snap) (r : SSTableReader) (handle : BlockHandle) : Except Error (List (Bytes × Bytes)) := do
  let block ← Block.new (← blockAt snap.decompress r.file handle)
  return block.iter.seekToFirst.visited

/-- The parts tile the file without gap or overlap, and each is what it is taken for:
the data blocks hold these entries in order, and the meta block this data. -/
structure LaidOut (snap : Snap) (r : SSTableReader) (index : Index) (entries : List (Bytes × Bytes)) (metaData : Bytes) :
    Prop where
  named : r.indexBlock.iterEntries = index.map .ok
  tiles : Tiles 0 (index.map Prod.snd ++ r.tail) r.file.length
  dataBlocks : ∃ groups, List.Forall₂ (fun e es => r.entriesAt snap e.2 = .ok es) index groups ∧
    groups.flatten = entries
  metaBlock : blockAt snap.decompress r.file r.metaBlockHandle = .ok metaData
  metaIndexBlock : blockAt snap.decompress r.file r.footer.metaIndexHandle = .ok SSTableBuilder.metaIndexData
  indexBlock : (blockAt snap.decompress r.file r.footer.indexHandle).bind IndexBlock.new = .ok r.indexBlock
  footer : Footer.decode (r.file.drop (r.file.length - 48)) = .ok r.footer

variable {snap : Snap} {limit : Nat} {r : SSTableReader} {f : SstFile}

theorem Reads.entriesAt (h : r.Reads snap f) (hb : blk ∈ f.blocks) :
    r.entriesAt snap blk.handle = .ok (blk.entries.map pairOf) := by
  have hblock := h.block hb
  unfold SSTableReader.entriesAt
  rw [(h.stored blk hb).blockAt] at hblock ⊢
  simp only [bind, Except.bind, pure, Except.pure] at hblock ⊢
  rw [hblock]
  simp only [h.visited hb]

theorem Reads.dataBlocks (h : r.Reads snap f) : ∃ groups,
    List.Forall₂ (fun e es => r.entriesAt snap e.2 = .ok es) f.index groups ∧ groups.flatten = f.entries.map pairOf := by
  refine ⟨f.blocks.map fun blk => blk.entries.map pairOf, ?_, ?_⟩
  · rw [h.wellFormed.index_eq, indexOf, List.forall₂_map_left_iff, List.forall₂_map_right_iff, List.forall₂_same]
    exact fun blk hb => h.entriesAt hb
  · rw [SstFile.entries, List.map_flatMap, List.flatMap_def]

end SSTableReader

namespace SSTableBuilder

variable {snap : Snap} {limit : Nat} {b : SSTableBuilder} {d : AiDb.SSTableBuilder} {f : SstFile}
  {fed : Option BloomFilter.Fed} {r : SSTableReader}

theorem blockAt_metaIndexHandle (hw : b.dataBlockOffset = b.written.length) (snap : Snap) :
    blockAt snap.decompress b.file b.footer.metaIndexHandle = .ok metaIndexData := by
  have hhandle : b.footer.metaIndexHandle =
      ⟨(b.written ++ withTrailer .none b.metaBlockData).length, metaIndexData.length + 5⟩ := by
    simp [footer, hw]
  have hfile : b.file = b.written ++ withTrailer .none b.metaBlockData ++ withTrailer .none metaIndexData ++
      (withTrailer .none b.indexBlockBuilder.finish ++ b.footer.encode) := by
    simp [file, writeTail]
  rw [hhandle, hfile]
  exact blockAt_append _ _ (show Unpacks snap .none _ metaIndexData from rfl)

theorem Sealed.size_eq (h : b.Sealed snap limit d f fed) : b.writeTail.1 = b.file.length := by
  simp [writeTail, file, footer, h.encodes.written, Nat.add_assoc]

theorem Sealed.metaBlockHandle_eq (h : b.Sealed snap limit d f fed) (hne : f.blocks ≠ []) (hr : r.Reads snap f)
    (hfooter : r.footer = b.footer) : r.metaBlockHandle = ⟨b.written.length, b.metaBlockData.length + 5⟩ := by
  have hlast : lastDataBlockEnd r.indexBlock.iterEntries = b.written.length := by
    rw [hr.iterEntries, h.lastDataBlockEnd_eq, if_neg hne]
  unfold SSTableReader.metaBlockHandle
  rw [hlast, hfooter]
  simp [footer, h.encodes.written]

theorem Sealed.laidOut (h : b.Sealed snap limit d f fed) (hne : f.blocks ≠ []) (hr : r.Reads snap f) (hfile : r.file = b.file)
    (hfooter : r.footer = b.footer) : r.LaidOut snap f.index (f.entries.map pairOf) b.metaBlockData := by
  have hmeta := h.metaBlockHandle_eq hne hr hfooter
  refine ⟨hr.iterEntries, ?_, hr.dataBlocks, ?_, ?_, ?_, ?_⟩
  · have htiles := h.encodes.tiles
    rw [← h.blocks] at htiles
    have hhandles : f.index.map Prod.snd = f.blocks.map AiDb.Block.handle := by
      rw [h.wellFormed.index_eq, indexOf, List.map_map]
      rfl
    rw [hhandles]
    refine htiles.append ?_
    have hlen := h.size_eq
    unfold SSTableReader.tail
    rw [hmeta, hfooter, hfile, ← hlen]
    simp [Tiles, footer, writeTail, h.encodes.written, Nat.add_assoc]
    omega
  · rw [hmeta, hfile]
    exact b.blockAt_metaBlock snap
  · rw [hfile, hfooter]
    exact blockAt_metaIndexHandle h.encodes.written snap
  · rw [hfile, hfooter, blockAt_indexHandle h.encodes.written]
    rw [hr.indexBlock]
    exact h.indexBlock
  · rw [hfile, drop_file, hfooter]
    exact Footer.decode_encode h.fits.2.1 h.fits.2.2

theorem bloomFilter_ne_none {snap : Snap} {sizing : Sizing} {calls : List BuilderCall}
    (h : Follows snap limit (new.run snap sizing calls) calls (.run sizing calls))
    (hon : .setBloomFilterEnabled false ∉ calls) (hne : accepted (attempts calls) ≠ []) :
    (new.run snap sizing calls).bloomFilter ≠ none := by
  have hfeeding : (Feeding.run sizing calls).enabled = true ∧
      ((Feeding.run sizing calls).taken ≠ [] → (Feeding.run sizing calls).fed ≠ none) := by
    clear h hne
    induction calls using List.reverseRecOn with
    | nil => exact ⟨rfl, fun hne => absurd rfl hne⟩
    | append_singleton calls c ih =>
      obtain ⟨henabled, hfed⟩ := ih fun hmem => hon (List.mem_append_left _ hmem)
      have hcall : Feeding.run sizing (calls ++ [c]) = (Feeding.run sizing calls).call sizing c := by simp [Feeding.run]
      rw [hcall]
      unfold Feeding.call
      cases c with
      | add key value =>
        dsimp only
        split_ifs
        · exact ⟨henabled, fun _ => by simp [feed, henabled]⟩
        · exact ⟨henabled, hfed⟩
      | setExpectedKeys numKeys => simp [henabled]
      | setBloomFilterEnabled enabled =>
        cases enabled with
        | true => exact ⟨rfl, hfed⟩
        | false => exact absurd (List.mem_append_right calls (List.mem_singleton_self _)) hon
      | setBlockSize size => exact ⟨henabled, hfed⟩
      | setCompression c => exact ⟨henabled, hfed⟩
  have hfed := hfeeding.2 (by rwa [h.taken])
  have hrel := h.built.filter
  unfold FilterOf at hrel
  intro hnone
  rw [hnone] at hrel
  cases hf : (Feeding.run sizing calls).fed with
  | none => exact hfed hf
  | some fed => rw [hf] at hrel; cases hrel

end SSTableBuilder

/-- The layout of every table that is not empty, and its size. Where the filter is enabled
throughout and its meta block not too large, the reader has the filter of the builder. -/
theorem file_layout (snap : Snap) (sizing : Sizing) (limit number : Nat) (calls : List BuilderCall)
    (hlimit : limit ≤ 2 ^ 32) (h : SSTableBuilder.Feasible snap sizing limit calls)
    (hindex : ((SSTableBuilder.new.run snap sizing calls).sealed snap).indexBlockBuilder.currentSize < 2 ^ 32)
    (hne : accepted (attempts calls) ≠ []) :
    let b := SSTableBuilder.new.run snap sizing calls
    ∃ size file r index, b.finish snap = .ok (size, file) ∧ size = file.length ∧
      SSTableReader.openFile snap number file = .ok r ∧ r.file = file ∧
      r.LaidOut snap index (accepted (attempts calls)) b.metaBlockData ∧
      (.setBloomFilterEnabled false ∉ calls → r.metaBlockHandle.size ≤ 100000000 →
        ∃ filter, b.bloomFilter = some filter ∧ r.bloomFilter = some filter) := by
  intro b
  have hfollows := SSTableBuilder.run_follows hlimit h
  obtain ⟨-, hfinish, d, f, hentries, hsealed⟩ := hfollows.built.finish hlimit hindex
  obtain ⟨r, hopen, hreads, hfile, hfilter, hfooter⟩ := hsealed.openFile number
  have hblocks : f.blocks ≠ [] := fun hnil => by
    rw [SstFile.entries, hnil] at hentries
    exact hne (List.map_eq_nil_iff.mp hentries.symm)
  have hmetaData : (b.sealed snap).metaBlockData = b.metaBlockData := by
    rw [SSTableBuilder.metaBlockData, b.sealed_bloomFilter, SSTableBuilder.metaBlockData]
  have hlaid := hsealed.laidOut hblocks hreads hfile hfooter
  rw [hentries, map_pairOf_entryOf, hmetaData] at hlaid
  refine ⟨_, _, r, f.index, hfinish, hsealed.size_eq, hopen, hfile, hlaid, fun hon hsize => ?_⟩
  obtain ⟨filter, hsome⟩ := Option.ne_none_iff_exists'.mp (SSTableBuilder.bloomFilter_ne_none hfollows hon hne)
  refine ⟨filter, hsome, ?_⟩
  rw [hsealed.metaBlockHandle_eq hblocks hreads hfooter] at hsize
  rw [hfilter, SSTableBuilder.readFilter, if_neg hblocks, if_pos hsize, b.sealed_bloomFilter, hsome]

theorem file_layout_twoBlocks :
    let b := SSTableBuilder.new.run ⟨.ok, .ok⟩ .decimal
      [.setExpectedKeys 2, .setBlockSize 1, .add [97] [49], .add [98] [50]]
    ∃ size file r index, b.finish ⟨.ok, .ok⟩ = .ok (size, file) ∧ size = file.length ∧
      SSTableReader.openFile ⟨.ok, .ok⟩ 2 file = .ok r ∧
      r.LaidOut ⟨.ok, .ok⟩ index [([97], [49]), ([98], [50])] b.metaBlockData ∧
      (r.metaBlockHandle.size ≤ 100000000 → ∃ filter, b.bloomFilter = some filter ∧ r.bloomFilter = some filter) := by
  have hfeasible : SSTableBuilder.Feasible ⟨.ok, .ok⟩ .decimal (2 ^ 32)
      [.setExpectedKeys 2, .setBlockSize 1, .add [97] [49], .add [98] [50]] :=
    ⟨by simp, by decide, SSTableBuilder.runFits_of_forall (by decide +kernel)⟩
  obtain ⟨size, file, r, index, hfinish, hsize, hopen, -, hlaid, hfilter⟩ :=
    file_layout ⟨.ok, .ok⟩ .decimal (2 ^ 32) 2 _ le_rfl hfeasible (by decide +kernel) (by decide)
  exact ⟨size, file, r, index, hfinish, hsize, hopen, hlaid, hfilter (by simp)⟩

end AiDb.Sstable
