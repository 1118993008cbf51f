import AiDb.Sstable.File

/-!
# What is written is read back

The byte builder and the decoded builder of `Table.Builder` take the same steps:
they cut blocks at the same entries, and every block of the decoded builder lies in
the file at its handle. So a finished file opens, and the reader finds in it what
the decoded table holds.
-/

namespace AiDb.Sstable

-- ---------------------------------------------------------------------------
-- One block in a file
-- ---------------------------------------------------------------------------

def Unpacks (snap : Snap) : CompressionType → Bytes → Bytes → Prop
  | .none, data, x => data = x
  | .snappy, data, x => snap.decompress data = .ok x
  | .lz4, _, _ => False

@[simp] theorem length_withTrailer (c : CompressionType) (data : Bytes) :
    (withTrailer c data).length = data.length + 5 := by
  simp [withTrailer]

theorem withTrailer_parts (c : CompressionType) (data : Bytes) :
    (withTrailer c data).take data.length = data ∧ (withTrailer c data).getD data.length 0 = c.toU8 ∧
      UInt32.ofNat (fromLe ((withTrailer c data).drop (data.length + 1))) = Wal.crc32 data := by
  have hsum : (withTrailer c data).drop (data.length + 1) = leBytes 4 (Wal.crc32 data).toNat :=
    List.drop_left' (by simp)
  refine ⟨by simp [withTrailer], by simp [withTrailer], ?_⟩
  rw [hsum, fromLe_leBytes_of_lt (by simpa using (Wal.crc32 data).toNat_lt), UInt32.ofNat_toNat]

theorem decodeBlock_withTrailer (h : Unpacks snap c data x) :
    decodeBlock snap.decompress (withTrailer c data) = .ok x := by
  obtain ⟨hdata, htype, hcrc⟩ := withTrailer_parts c data
  unfold decodeBlock
  simp only [length_withTrailer, Nat.add_sub_cancel, hdata, htype, hcrc, ne_eq, not_true,
    if_false]
  cases c with
  | none =>
    cases h
    rfl
  | snappy =>
    have hs : CompressionType.fromU8 (CompressionType.toU8 .snappy) = some .snappy := by decide
    simp only [hs, show snap.decompress data = .ok x from h]
  | lz4 => exact h.elim

theorem readExact_append (pre block post : Bytes) :
    readExact (pre ++ block ++ post) pre.length block.length = (.ok block, pre.length + block.length) := by
  unfold readExact
  rw [if_pos (by simp), List.append_assoc, List.drop_left, List.take_left' rfl]

theorem blockAt_block (snappy : Decompress) (pre block post : Bytes) (h : 5 ≤ block.length) :
    blockAt snappy (pre ++ block ++ post) ⟨pre.length, block.length⟩ = decodeBlock snappy block := by
  unfold blockAt
  rw [if_neg (not_lt.mpr h)]
  simp only [readExact_append]
  rfl

theorem blockAt_append (pre post : Bytes) (h : Unpacks snap c data x) :
    blockAt snap.decompress (pre ++ withTrailer c data ++ post)
      ⟨pre.length, data.length + 5⟩ = .ok x := by
  rw [← length_withTrailer c, blockAt_block _ _ _ _ (by simp)]
  exact decodeBlock_withTrailer h

-- ---------------------------------------------------------------------------
-- The two builders
-- ---------------------------------------------------------------------------

/-- Blocks below the limit can be compressed, to less than 2^32 bytes, and
decompressed again. -/
def Snap.Undoes (snap : Snap) (limit : Nat) : Prop :=
  ∀ x, x.length < limit → ∃ y, snap.compress x = .ok y ∧ snap.decompress y = .ok x ∧ y.length < 2 ^ 32

def Usable (snap : Snap) (limit : Nat) (c : CompressionType) : Prop :=
  c = .none ∨ c = .snappy ∧ snap.Undoes limit

theorem Usable.compressBlock (h : Usable snap limit c) (hlimit : limit ≤ 2 ^ 32) (hx : x.length < limit) :
    ∃ y, compressBlock snap c x = .ok y ∧ Unpacks snap c y x ∧ y.length < 2 ^ 32 := by
  rcases h with rfl | ⟨rfl, h⟩
  · exact ⟨x, rfl, rfl, lt_of_lt_of_le hx hlimit⟩
  · obtain ⟨y, hc, hd, hy⟩ := h x hx
    refine ⟨y, ?_, hd, hy⟩
    simp only [Sstable.compressBlock, hc]

/-- What a block with these entries is compressed to; the decoded builder is told its
length. -/
def packed (snap : Snap) (c : CompressionType) (es : List Entry) : Bytes :=
  match compressBlock snap c (blockData 16 es) with
  | .ok data => data
  | .error _ => []

def packedLen (snap : Snap) : CompressedLen := fun c es => (packed snap c es).length

def Stored (snap : Snap) (file : Bytes) (blk : AiDb.Block) : Prop :=
  (blockData 16 blk.entries).length < 2 ^ 32 ∧
    ∃ c pre data post, file = pre ++ withTrailer c data ++ post ∧
      Unpacks snap c data (blockData 16 blk.entries) ∧ blk.handle = ⟨pre.length, data.length + 5⟩

theorem Stored.append (h : Stored snap file blk) (more : Bytes) : Stored snap (file ++ more) blk := by
  obtain ⟨hlen, c, pre, data, post, rfl, hu, hh⟩ := h
  exact ⟨hlen, c, pre, data, post ++ more, by simp, hu, hh⟩

theorem Stored.blockAt (h : Stored snap file blk) :
    AiDb.blockAt snap.decompress file blk.handle = .ok (blockData 16 blk.entries) := by
  obtain ⟨-, c, pre, data, post, rfl, hu, hh⟩ := h
  rw [hh]
  exact blockAt_append pre post hu

theorem Stored.end_le (h : Stored snap file blk) : blk.handle.offset + blk.handle.size ≤ file.length := by
  obtain ⟨-, c, pre, data, post, rfl, -, hh⟩ := h
  rw [hh]
  simp

/-- The handles lie one behind the other, from the first offset to the last. -/
def Tiles : Nat → List BlockHandle → Nat → Prop
  | first, [], last => first = last
  | first, h :: hs, last => h.offset = first ∧ Tiles (first + h.size) hs last

theorem Tiles.append (h : Tiles first hs mid) (h' : Tiles mid hs' last) : Tiles first (hs ++ hs') last := by
  induction hs generalizing first with
  | nil =>
    obtain rfl : first = mid := h
    exact h'
  | cons x hs ih => exact ⟨h.1, ih h.2⟩

theorem Tiles.getLast (h : Tiles first (hs ++ [x]) last) : x.offset + x.size = last := by
  induction hs generalizing first with
  | nil =>
    obtain ⟨rfl, hlast⟩ := h
    exact hlast
  | cons y hs ih => exact ih h.2

namespace SSTableBuilder

/-- The decoded builder `d` has taken the same steps as `b`. -/
structure Encodes (snap : Snap) (limit : Nat) (b : SSTableBuilder) (d : AiDb.SSTableBuilder) : Prop where
  block : b.dataBlockBuilder.Encodes d.dataBlockBuilder
  interval : d.dataBlockBuilder.blockRestartInterval = 16
  index : b.indexBlockBuilder.builder = (BlockBuilder.new 1).addAll (d.index.map indexEntry)
  lastKey : b.lastKey = d.lastKey
  blockSize : b.blockSize = d.blockSize
  compression : b.compression = d.compression
  pendingHandle : b.pendingHandle = d.pendingHandle
  dataBlockOffset : b.dataBlockOffset = d.dataBlockOffset
  written : b.dataBlockOffset = b.written.length
  stored : ∀ blk ∈ d.blocks, Stored snap b.written blk
  tiles : Tiles 0 (d.blocks.map AiDb.Block.handle) b.written.length
  total : b.written.length ≤ d.blocks.length * (2 ^ 32 + 4)
  room : b.dataBlockBuilder.isEmpty = false → b.dataBlockBuilder.currentSize < limit

variable {snap : Snap} {limit : Nat} {b : SSTableBuilder} {d : AiDb.SSTableBuilder}

theorem Encodes.takePending (h : b.Encodes snap limit d) : b.takePending.Encodes snap limit d.takePending := by
  unfold SSTableBuilder.takePending AiDb.SSTableBuilder.takePending
  cases hp : d.pendingHandle with
  | none =>
    rw [h.pendingHandle, hp]
    exact h
  | some handle =>
    rw [h.pendingHandle, hp]
    refine ⟨h.block, h.interval, ?_, h.lastKey, h.blockSize, h.compression, rfl, h.dataBlockOffset,
      h.written, h.stored, h.tiles, h.total, h.room⟩
    show b.indexBlockBuilder.builder.add b.lastKey handle.encode = _
    rw [List.map_append, BlockBuilder.addAll_append, h.index, h.lastKey]
    rfl

theorem Encodes.push (h : b.Encodes snap limit d) (e : Entry)
    (hroom : (b.dataBlockBuilder.add e.key e.value.bytes).currentSize < limit) :
    Encodes snap limit ((b.push e.key e.value.bytes).addToFilter e.key)
      { d with
        dataBlockBuilder := d.dataBlockBuilder.add e
        lastKey := e.key
        numEntries := d.numEntries + 1 } := by
  unfold addToFilter SSTableBuilder.push
  split <;>
  exact ⟨h.block.add e, h.interval, h.index, rfl, h.blockSize, h.compression, h.pendingHandle, h.dataBlockOffset,
    h.written, h.stored, h.tiles, h.total, fun _ => hroom⟩

theorem flushDataBlock_eq (hne : b.dataBlockBuilder.isEmpty = false)
    (hpack : compressBlock snap b.compression b.dataBlockBuilder.finish = .ok data) :
    b.flushDataBlock snap = (.ok (), { b with
      dataBlockBuilder := .new 16
      written := b.written ++ withTrailer b.compression data
      dataBlockOffset := b.dataBlockOffset + (data.length + 5)
      pendingHandle := some ⟨b.dataBlockOffset, data.length + 5⟩ }) := by
  simp [SSTableBuilder.flushDataBlock, hne, hpack]

theorem decoded_flushDataBlock_eq (hne : d.dataBlockBuilder.isEmpty = false)
    (hnone : d.compression = .none → d.dataBlockBuilder.currentSize = n)
    (hsome : d.compression ≠ .none → len d.compression d.dataBlockBuilder.entries = n) :
    d.flushDataBlock len = { d with
      dataBlockBuilder := .new 16
      blocks := d.blocks ++ [⟨⟨d.dataBlockOffset, n + 5⟩, d.dataBlockBuilder.entries⟩]
      dataBlockOffset := d.dataBlockOffset + (n + 5)
      pendingHandle := some ⟨d.dataBlockOffset, n + 5⟩ } := by
  unfold AiDb.SSTableBuilder.flushDataBlock
  rw [if_neg (by simp [hne])]
  cases hc : d.compression with
  | none => simp [hnone hc]
  | snappy =>
    have h := hsome (by simp [hc])
    rw [hc] at h
    simp [h]
  | lz4 =>
    have h := hsome (by simp [hc])
    rw [hc] at h
    simp [h]

theorem flushDataBlock_of_isEmpty (h : b.dataBlockBuilder.isEmpty = true) :
    b.flushDataBlock snap = (.ok (), b) := by
  simp [SSTableBuilder.flushDataBlock, h]

theorem Encodes.flushDataBlock (h : b.Encodes snap limit d) (hc : Usable snap limit b.compression)
    (hlimit : limit ≤ 2 ^ 32) :
    (b.flushDataBlock snap).1 = .ok () ∧
      (b.flushDataBlock snap).2.Encodes snap limit (d.flushDataBlock (packedLen snap)) := by
  cases hempty : b.dataBlockBuilder.isEmpty with
  | true =>
    have hd : d.dataBlockBuilder.isEmpty = true := by rw [← h.block.isEmpty, hempty]
    rw [flushDataBlock_of_isEmpty hempty, AiDb.SSTableBuilder.flushDataBlock, if_pos hd]
    exact ⟨rfl, h⟩
  | false =>
    have hdata : b.dataBlockBuilder.finish = blockData 16 d.dataBlockBuilder.entries := by
      rw [h.block.built, h.interval, blockData]
    have hlen : (blockData 16 d.dataBlockBuilder.entries).length < limit := by
      rw [← hdata, BlockBuilder.length_finish]
      exact h.room hempty
    obtain ⟨data, hpack, hunpack, hsize⟩ := hc.compressBlock hlimit hlen
    have hnone : d.compression = .none → d.dataBlockBuilder.currentSize = data.length := by
      intro hcomp
      rw [h.compression, hcomp] at hpack
      simp only [compressBlock, Except.ok.injEq] at hpack
      rw [← hpack, ← hdata, BlockBuilder.length_finish, h.block.currentSize]
    have hsome : packedLen snap d.compression d.dataBlockBuilder.entries = data.length := by
      rw [← h.compression, packedLen]
      simp only [packed, hpack]
    rw [flushDataBlock_eq hempty (by rw [hdata, hpack]),
      decoded_flushDataBlock_eq (by rw [← h.block.isEmpty, hempty]) hnone fun _ => hsome]
    refine ⟨rfl, BlockBuilder.encodes_new 16, rfl, h.index, h.lastKey, h.blockSize, h.compression, ?_, ?_, ?_,
      ?_, ?_, ?_, ?_⟩
    · simp only [h.dataBlockOffset]
    · simp only [h.dataBlockOffset]
    · simp only [h.written, List.length_append, length_withTrailer]
    · intro blk hblk
      rcases List.mem_append.mp hblk with hblk | hblk
      · exact (h.stored blk hblk).append _
      · rw [List.mem_singleton.mp hblk]
        refine ⟨lt_of_lt_of_le hlen hlimit, b.compression, b.written, data, [], by simp, hunpack, ?_⟩
        simp only [← h.written, h.dataBlockOffset]
    · rw [List.map_append]
      refine h.tiles.append ?_
      simp only [List.map_cons, List.map_nil, Tiles, List.length_append, length_withTrailer, ← h.written,
        h.dataBlockOffset, and_self]
    · have htotal := h.total
      simp only [List.length_append, length_withTrailer, List.length_cons, List.length_nil, Nat.add_mul]
      omega
    · intro he
      exact absurd (show (BlockBuilder.new 16).isEmpty = false from he) (by decide)

end SSTableBuilder

end AiDb.Sstable
