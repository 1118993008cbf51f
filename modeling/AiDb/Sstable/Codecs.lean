import AiDb.Sstable.Table

/-!
# Builds with other codecs

`flush_data_block` and `read_block_data` under any set of compression features. The
match of the reader has an arm for every type it does not name, and that comes before
the branch that the `lz4-compression` feature adds behind the match.
-/

namespace AiDb

structure Features where
  snappy : Bool
  lz4Compression : Bool

def Features.default : Features := ⟨true, false⟩

namespace CompressionType

def Available (features : Features) : CompressionType → Prop
  | .none => True
  | .snappy => features.snappy = true
  | .lz4 => features.lz4Compression = true

def fromU8With (features : Features) (value : UInt8) : Option CompressionType :=
  if value = 0 then some .none
  else if features.snappy ∧ value = 1 then some .snappy
  else if features.lz4Compression ∧ value = 2 then some .lz4
  else none

theorem fromU8With_toU8 {features : Features} {c : CompressionType} (h : c.Available features) :
    fromU8With features c.toU8 = some c := by
  cases c with
  | none => rfl
  | snappy =>
    unfold fromU8With toU8
    rw [if_neg (by decide), if_pos ⟨h, rfl⟩]
  | lz4 =>
    unfold fromU8With toU8
    rw [if_neg (by decide), if_neg (by simp), if_pos ⟨h, rfl⟩]

end CompressionType

namespace Sstable

/-- The calls into the crates of the codecs, an error by its message: the raw encoder
and decoder of `snap`, and `block::compress(_, None, false)` and
`block::decompress(_, None)` of `lz4`. -/
structure Codecs extends Snap where
  lz4Compress : Bytes → Except String Bytes
  lz4Decompress : Bytes → Except String Bytes

variable (features : Features) (codecs : Codecs)

def orInternal (message : String) : Except String Bytes → Except Error Bytes
  | .ok data => .ok data
  | .error e => .error (.internal (message ++ e))

/-- What `flush_data_block` makes of the data: one branch for each feature, the later
over the earlier. -/
def compressData (compression : CompressionType) (blockData : Bytes) : Except Error Bytes := do
  let mut compressedData := blockData
  if features.snappy ∧ compression = .snappy then
    compressedData ← orInternal "Compression failed: " (codecs.compress blockData)
  if features.lz4Compression ∧ compression = .lz4 then
    compressedData ← orInternal "LZ4 compression failed: " (codecs.lz4Compress blockData)
  return compressedData

/-- The match of `read_block_data`, and the branch behind it. -/
def decompressData (compression : CompressionType) (data : Bytes) : Except Error Bytes := do
  let mut decompressed ←
    match compression with
    | .none => .ok data
    | .snappy =>
      if features.snappy then orInternal "Decompression failed: " (codecs.decompress data)
      else .error (.internal "Snappy compression not enabled")
    | _ => .error (.internal ("Unsupported compression type: " ++ toString compression.toU8))
  if features.lz4Compression ∧ compression = .lz4 then
    decompressed ← orInternal "LZ4 decompression failed: " (codecs.lz4Decompress data)
  return decompressed

def decodeBlockWith (buffer : Bytes) : Except Error Bytes :=
  let dataSize := buffer.length - 5
  let data := buffer.take dataSize
  let compressionType := buffer.getD dataSize 0
  let storedChecksum := UInt32.ofNat (fromLe (buffer.drop (dataSize + 1)))
  let computedChecksum := Wal.crc32 data
  if computedChecksum ≠ storedChecksum then .error (.checksumMismatch storedChecksum computedChecksum)
  else
    match CompressionType.fromU8With features compressionType with
    | none => .error (.corruption "Invalid compression type")
    | some compression => decompressData features codecs compression data

def readBlockData (file : Bytes) (handle : BlockHandle) : Except Error Bytes :=
  if handle.size < 5 then .error (.corruption "Block size too small")
  else (readExact file handle.offset handle.size).1.bind (decodeBlockWith features codecs)

def SSTableBuilder.flushDataBlockWith (b : SSTableBuilder) : Except Error Unit × SSTableBuilder :=
  if b.dataBlockBuilder.isEmpty then (.ok (), b)
  else
    let blockData := b.dataBlockBuilder.finish
    let b := { b with dataBlockBuilder := .new 16 }
    match compressData features codecs b.compression blockData with
    | .error e => (.error e, b)
    | .ok compressed =>
      (.ok (), { b with
        written := b.written ++ withTrailer b.compression compressed
        dataBlockOffset := b.dataBlockOffset + (compressed.length + 5)
        pendingHandle := some ⟨b.dataBlockOffset, compressed.length + 5⟩ })

-- ---------------------------------------------------------------------------
-- The default build
-- ---------------------------------------------------------------------------

theorem compressData_default (c : CompressionType) (data : Bytes) :
    compressData .default codecs c data = compressBlock codecs.toSnap c data := by
  unfold compressData compressBlock
  cases c with
  | none => rfl
  | snappy =>
    simp only [orInternal]
    cases codecs.compress data <;> rfl
  | lz4 => rfl

theorem decompressData_snappy (h : features.snappy = true) (data : Bytes) :
    decompressData features codecs .snappy data = orInternal "Decompression failed: " (codecs.decompress data) := by
  unfold decompressData
  simp only [h, if_true, reduceCtorEq, and_false, if_false]
  cases codecs.decompress data <;> rfl

theorem decodeBlockWith_default (buffer : Bytes) :
    decodeBlockWith .default codecs buffer = decodeBlock codecs.decompress buffer := by
  have hfrom : ∀ value, CompressionType.fromU8With .default value = CompressionType.fromU8 value := by
    intro value
    simp [CompressionType.fromU8With, CompressionType.fromU8, Features.default]
  unfold decodeBlockWith decodeBlock
  dsimp only
  rw [hfrom]
  unfold CompressionType.fromU8
  split_ifs
  · rfl
  · rfl
  · dsimp only
    rw [decompressData_snappy Features.default codecs rfl]
    cases codecs.decompress (buffer.take (buffer.length - 5)) <;> rfl
  · rfl

theorem readBlockData_default (file : Bytes) (handle : BlockHandle) :
    readBlockData .default codecs file handle = blockAt codecs.decompress file handle := by
  unfold readBlockData blockAt
  rw [funext (decodeBlockWith_default codecs)]

theorem flushDataBlockWith_default (b : SSTableBuilder) :
    b.flushDataBlockWith .default codecs = b.flushDataBlock codecs.toSnap := by
  unfold SSTableBuilder.flushDataBlockWith SSTableBuilder.flushDataBlock
  split_ifs
  · rfl
  · have hcompress := compressData_default codecs b.compression b.dataBlockBuilder.finish
    cases h : compressBlock codecs.toSnap b.compression b.dataBlockBuilder.finish with
    | error e => simp [hcompress, h]
    | ok data => simp [hcompress, h]

-- ---------------------------------------------------------------------------
-- Reading back
-- ---------------------------------------------------------------------------

/-- The decompression of the codec undoes the compression that the builder makes of this
data. -/
def Codecs.Undoes : CompressionType → Bytes → Prop
  | .none, _ => True
  | .snappy, data => ∃ compressed, codecs.compress data = .ok compressed ∧ codecs.decompress compressed = .ok data
  | .lz4, data => ∃ compressed, codecs.lz4Compress data = .ok compressed ∧ codecs.lz4Decompress compressed = .ok data

variable {features codecs}

theorem Codecs.Undoes.compressData {c : CompressionType} (hc : c.Available features) (h : codecs.Undoes c data) :
    ∃ compressed, compressData features codecs c data = .ok compressed ∧
      (decompressData features codecs c compressed = .ok data ↔ c ≠ .lz4) := by
  cases c with
  | none => exact ⟨data, by simp [Sstable.compressData, pure, Except.pure], by simp [decompressData, bind, Except.bind, pure, Except.pure]⟩
  | snappy =>
    obtain ⟨compressed, hcomp, hdecomp⟩ := h
    have hon : features.snappy = true := hc
    refine ⟨compressed, ?_, ?_⟩
    · simp [Sstable.compressData, hon, hcomp, orInternal, bind, Except.bind, pure, Except.pure]
    · rw [decompressData_snappy features codecs hon, hdecomp]
      simp [orInternal]
  | lz4 =>
    obtain ⟨compressed, hcomp, -⟩ := h
    have hon : features.lz4Compression = true := hc
    refine ⟨compressed, ?_, ?_⟩
    · simp [Sstable.compressData, hon, hcomp, orInternal, bind, Except.bind, pure, Except.pure]
    · -- the match has returned before the branch for this type
      simp [decompressData, bind, Except.bind]

theorem decodeBlockWith_withTrailer {c : CompressionType} (hc : c.Available features) (data : Bytes) :
    decodeBlockWith features codecs (withTrailer c data) = decompressData features codecs c data := by
  obtain ⟨hdata, htype, hcrc⟩ := withTrailer_parts c data
  unfold decodeBlockWith
  simp only [length_withTrailer, Nat.add_sub_cancel, hdata, htype, hcrc, ne_eq, not_true, if_false,
    CompressionType.fromU8With_toU8 hc]

theorem readBlockData_append {c : CompressionType} (hc : c.Available features) (pre post data : Bytes) :
    readBlockData features codecs (pre ++ withTrailer c data ++ post) ⟨pre.length, data.length + 5⟩ =
      decompressData features codecs c data := by
  rw [← length_withTrailer c]
  unfold readBlockData
  rw [if_neg (by simp)]
  simp only [readExact_append]
  exact decodeBlockWith_withTrailer hc data

/-- Under any features and with any codec of the build, a flush writes a block behind
what was written, and that is read back, whatever follows it, exactly where the
codec is not LZ4. -/
theorem codec_reads_back_iff (features : Features) (codecs : Codecs) (b : SSTableBuilder)
    (hne : b.dataBlockBuilder.isEmpty = false) (hc : b.compression.Available features)
    (hundoes : codecs.Undoes b.compression b.dataBlockBuilder.finish) :
    ∃ block b', b.flushDataBlockWith features codecs = (.ok (), b') ∧ b'.written = b.written ++ block ∧
      b'.pendingHandle = some ⟨b.dataBlockOffset, block.length⟩ ∧
      ∀ post, readBlockData features codecs (b'.written ++ post) ⟨b.written.length, block.length⟩ =
        .ok b.dataBlockBuilder.finish ↔ b.compression ≠ .lz4 := by
  obtain ⟨compressed, hcomp, hiff⟩ := hundoes.compressData hc
  have hflush : b.flushDataBlockWith features codecs = (.ok (), { b with
      dataBlockBuilder := .new 16
      written := b.written ++ withTrailer b.compression compressed
      dataBlockOffset := b.dataBlockOffset + (compressed.length + 5)
      pendingHandle := some ⟨b.dataBlockOffset, compressed.length + 5⟩ }) := by
    unfold SSTableBuilder.flushDataBlockWith
    rw [if_neg (by simp [hne])]
    simp only [hcomp]
  refine ⟨withTrailer b.compression compressed, _, hflush, rfl, ?_, fun post => ?_⟩
  · rw [length_withTrailer]
  · rw [length_withTrailer, readBlockData_append hc]
    exact hiff

theorem codec_reads_back_iff_default :
    let b := (SSTableBuilder.new.setCompression .snappy).push [97] [49]
    ∃ block b', b.flushDataBlockWith .default ⟨⟨.ok, .ok⟩, .ok, .ok⟩ = (.ok (), b') ∧ b'.written = b.written ++ block ∧
      readBlockData .default ⟨⟨.ok, .ok⟩, .ok, .ok⟩ (b'.written ++ []) ⟨b.written.length, block.length⟩ =
        .ok b.dataBlockBuilder.finish := by
  obtain ⟨block, b', hflush, hwritten, -, hiff⟩ := codec_reads_back_iff .default ⟨⟨.ok, .ok⟩, .ok, .ok⟩
    ((SSTableBuilder.new.setCompression .snappy).push [97] [49]) (by decide) rfl ⟨_, rfl, rfl⟩
  exact ⟨block, b', hflush, hwritten, (hiff []).mpr (by decide)⟩

/-- A build with LZ4 whose codec gives back what it was given. -/
theorem not_codec_reads_back_lz4 :
    let b := (SSTableBuilder.new.setCompression .lz4).push [97] [49]
    b.compression.Available ⟨true, true⟩ ∧ Codecs.Undoes ⟨⟨.ok, .ok⟩, .ok, .ok⟩ b.compression b.dataBlockBuilder.finish ∧
      ∃ b', b.flushDataBlockWith ⟨true, true⟩ ⟨⟨.ok, .ok⟩, .ok, .ok⟩ = (.ok (), b') ∧
        b'.pendingHandle = some ⟨0, b'.written.length⟩ ∧
        readBlockData ⟨true, true⟩ ⟨⟨.ok, .ok⟩, .ok, .ok⟩ b'.written ⟨0, b'.written.length⟩ =
          .error (.internal "Unsupported compression type: 2") := by
  refine ⟨rfl, ⟨_, rfl, rfl⟩, _, rfl, by decide +kernel, by decide +kernel⟩

end Sstable

end AiDb
