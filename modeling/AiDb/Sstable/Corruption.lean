import AiDb.Library.Folds
import AiDb.Sstable.Layout

/-!
# One altered byte

The checksum of a block covers its payload. An altered byte there, or in the checksum
itself, is noticed; the byte for the compression is only checked to be a known type.
-/

namespace AiDb

open Library (Outcome)

-- ---------------------------------------------------------------------------
-- The checksum
-- ---------------------------------------------------------------------------

namespace Wal

theorem toNat_shift (c : UInt32) : (c >>> 1).toNat = c.toNat / 2 := by
  simp [UInt32.toNat_shiftRight, Nat.shiftRight_eq_div_pow]

theorem low_bit (c : UInt32) : c &&& 1 = 1 ↔ c.toNat % 2 = 1 := by
  rw [← UInt32.toNat_inj, UInt32.toNat_and]
  simp [Nat.and_one_is_mod]

theorem testBit_shift (c : UInt32) : (c >>> 1).toNat.testBit 31 = false := by
  rw [toNat_shift]
  refine Nat.testBit_lt_two_pow ?_
  have := c.toNat_lt
  omega

theorem testBit_shift_xor (c : UInt32) : ((c >>> 1) ^^^ 0xEDB88320).toNat.testBit 31 = true := by
  rw [UInt32.toNat_xor, Nat.testBit_xor, testBit_shift]
  decide

/-- The highest bit of the polynomial tells whether the lowest bit was set. -/
theorem crcShift_injective : Function.Injective crcShift := by
  intro a b h
  have hlow : a.toNat % 2 = b.toNat % 2 ∧ a >>> 1 = b >>> 1 := by
    unfold crcShift at h
    simp only [low_bit] at h
    have hbit := congrArg (fun c : UInt32 => c.toNat.testBit 31) h
    split_ifs at h hbit with ha hb hb
    · exact ⟨ha.trans hb.symm, by simpa using h⟩
    · rw [testBit_shift_xor, testBit_shift] at hbit
      cases hbit
    · rw [testBit_shift_xor, testBit_shift] at hbit
      cases hbit
    · exact ⟨by omega, h⟩
  have hhigh := congrArg UInt32.toNat hlow.2
  rw [toNat_shift, toNat_shift] at hhigh
  rw [← UInt32.toNat_inj]
  omega

theorem crcShift_repeat_injective (n : Nat) : Function.Injective (Nat.repeat crcShift n) := by
  induction n with
  | zero => exact Function.injective_id
  | succ n ih => exact crcShift_injective.comp ih

theorem crcByte_injective_state (b : UInt8) : Function.Injective (crcByte · b) := by
  intro c c' h
  simpa using crcShift_repeat_injective 8 h

theorem crcByte_injective_byte (c : UInt32) : Function.Injective (crcByte c) := by
  intro b b' h
  have hbytes : b.toUInt32 = b'.toUInt32 := by simpa using crcShift_repeat_injective 8 h
  simpa [← UInt8.toNat_inj] using congrArg UInt32.toNat hbytes

theorem crc32_set_ne {data : Bytes} {i : Nat} {v : UInt8} (hi : i < data.length) (hne : data[i]? ≠ some v) :
    crc32 (data.set i v) ≠ crc32 data := by
  intro h
  refine Library.foldl_set_ne crcByte_injective_state crcByte_injective_byte 0xFFFFFFFF hi hne ?_
  simpa [crc32] using h

end Wal

theorem fromLe_inj {as bs : Bytes} (hlen : as.length = bs.length) (h : fromLe as = fromLe bs) : as = bs := by
  induction as generalizing bs with
  | nil =>
    cases bs with
    | nil => rfl
    | cons b bs => simp at hlen
  | cons a as ih =>
    cases bs with
    | nil => simp at hlen
    | cons b bs =>
      have ha := a.toNat_lt
      have hb := b.toNat_lt
      simp only [fromLe] at h
      have hhead : a = b := UInt8.toNat_inj.mp (by omega)
      rw [hhead, ih (by simpa using hlen) (by omega)]

namespace Sstable

-- ---------------------------------------------------------------------------
-- One block
-- ---------------------------------------------------------------------------

/-- What `read_block_data` makes of data whose checksum holds, under this byte for the
compression. -/
def decodeAs (snappy : Decompress) (compressionType : UInt8) (data : Bytes) : Except Error Bytes :=
  match CompressionType.fromU8 compressionType with
  | none => .error (.corruption "Invalid compression type")
  | some .none => .ok data
  | some .snappy =>
    match snappy data with
    | .ok decompressed => .ok decompressed
    | .error e => .error (.internal ("Decompression failed: " ++ e))
  | some .lz4 => .error (.internal ("Unsupported compression type: " ++ toString compressionType))

theorem decodeBlock_parts (snappy : Decompress) (data sum : Bytes) (compressionType : UInt8) (hsum : sum.length = 4) :
    decodeBlock snappy (data ++ [compressionType] ++ sum) =
      if Wal.crc32 data ≠ UInt32.ofNat (fromLe sum) then
        .error (.checksumMismatch (UInt32.ofNat (fromLe sum)) (Wal.crc32 data))
      else decodeAs snappy compressionType data := by
  have hlen : (data ++ [compressionType] ++ sum).length - 5 = data.length := by simp [hsum]
  have hdata : (data ++ [compressionType] ++ sum).take data.length = data := by simp
  have htype : (data ++ [compressionType] ++ sum).getD data.length 0 = compressionType := by simp
  have hdrop : (data ++ [compressionType] ++ sum).drop (data.length + 1) = sum := List.drop_left' (by simp)
  unfold decodeBlock
  simp only [hlen, hdata, htype, hdrop]
  rfl

/-- The byte for the compression apart, every byte of a block is covered. -/
theorem decodeBlock_set {snap : Snap} {c : CompressionType} {data : Bytes} {i : Nat} {v : UInt8}
    (hi : i < data.length + 5) (hne : (withTrailer c data)[i]? ≠ some v) :
    if i = data.length then decodeBlock snap.decompress ((withTrailer c data).set i v) = decodeAs snap.decompress v data
    else ∃ e, decodeBlock snap.decompress ((withTrailer c data).set i v) = .error e := by
  have hcrc : UInt32.ofNat (fromLe (leBytes 4 (Wal.crc32 data).toNat)) = Wal.crc32 data := by
    rw [fromLe_leBytes_of_lt (by simpa using (Wal.crc32 data).toNat_lt), UInt32.ofNat_toNat]
  unfold withTrailer at hne ⊢
  rcases Nat.lt_trichotomy i data.length with hlt | rfl | hgt
  · -- the payload
    rw [if_neg (Nat.ne_of_lt hlt), List.append_assoc, List.set_append_left _ _ hlt, ← List.append_assoc,
      decodeBlock_parts snap.decompress _ _ _ (by simp), hcrc]
    have hne' : data[i]? ≠ some v := by
      rwa [List.append_assoc, List.getElem?_append_left hlt] at hne
    rw [if_pos (Wal.crc32_set_ne hlt hne')]
    exact ⟨_, rfl⟩
  · -- the byte for the compression
    have hset : (data ++ [c.toU8] ++ leBytes 4 (Wal.crc32 data).toNat).set data.length v =
        data ++ [v] ++ leBytes 4 (Wal.crc32 data).toNat := by simp
    rw [if_pos rfl, hset, decodeBlock_parts snap.decompress _ _ _ (by simp), hcrc, if_neg (not_not.mpr rfl)]
  · -- the checksum
    obtain ⟨j, rfl⟩ := Nat.exists_eq_add_of_lt hgt
    generalize hs : leBytes 4 (Wal.crc32 data).toNat = sum at hne hcrc ⊢
    have hsum : sum.length = 4 := by simp [← hs]
    have hhead : (data ++ [c.toU8]).length = data.length + 1 := by simp
    have hset : (data ++ [c.toU8] ++ sum).set (data.length + j + 1) v = data ++ [c.toU8] ++ sum.set j v := by
      rw [List.set_append_right _ _ (by simp), hhead, show data.length + j + 1 - (data.length + 1) = j by omega]
    have hne' : sum[j]? ≠ some v := by
      rwa [List.getElem?_append_right (by simp), hhead, show data.length + j + 1 - (data.length + 1) = j by omega]
        at hne
    have hj : j < sum.length := by omega
    rw [if_neg (by omega), hset, decodeBlock_parts snap.decompress _ _ _ (by simp [hsum]), if_pos]
    · exact ⟨_, rfl⟩
    · intro heq
      have hle : fromLe (sum.set j v) = fromLe sum := by
        have h₁ := fromLe_lt (sum.set j v)
        have h₂ := fromLe_lt sum
        rw [List.length_set, hsum] at h₁
        rw [hsum] at h₂
        have hnat := congrArg UInt32.toNat (hcrc.trans heq)
        rw [UInt32.toNat_ofNat_of_lt' (by simpa using h₂), UInt32.toNat_ofNat_of_lt' (by simpa using h₁)] at hnat
        exact hnat.symm
      have hsame := fromLe_inj (by simp) hle
      rw [← hsame, List.getElem?_set_self hj] at hne'
      exact hne' rfl

-- ---------------------------------------------------------------------------
-- The rest of the file
-- ---------------------------------------------------------------------------

def BlockHandle.Avoids (handle : BlockHandle) (pos : Nat) : Prop :=
  pos < handle.offset ∨ handle.offset + handle.size ≤ pos

theorem readExact_set {file : Bytes} {cursor size pos : Nat} {v : UInt8} (h : pos < cursor ∨ cursor + size ≤ pos) :
    readExact (file.set pos v) cursor size = readExact file cursor size := by
  unfold readExact
  rw [List.length_set]
  have hsame : ((file.set pos v).drop cursor).take size = (file.drop cursor).take size := by
    rcases h with hlt | hle
    · rw [List.drop_set_of_lt hlt]
    · rw [List.drop_set, if_neg (by omega), List.take_set, List.set_eq_of_length_le (by simp; omega)]
  rw [hsame]

theorem blockAt_set {snappy : Decompress} {file : Bytes} {handle : BlockHandle} {pos : Nat} {v : UInt8}
    (h : BlockHandle.Avoids handle pos) : blockAt snappy (file.set pos v) handle = blockAt snappy file handle := by
  unfold blockAt
  rw [readExact_set h]

theorem Tiles.first_le (h : Tiles first hs last) (hx : x ∈ hs) : first ≤ x.offset := by
  induction hs generalizing first with
  | nil => cases hx
  | cons y hs ih =>
    rcases List.mem_cons.mp hx with rfl | hx
    · exact h.1.ge
    · exact (Nat.le_add_right _ _).trans (ih h.2 hx)

theorem Tiles.eq_or_apart (h : Tiles first hs last) (hx : x ∈ hs) (hy : y ∈ hs) :
    y = x ∨ y.offset + y.size ≤ x.offset ∨ x.offset + x.size ≤ y.offset := by
  induction hs generalizing first with
  | nil => cases hx
  | cons w hs ih =>
    obtain ⟨hw, hrest⟩ := h
    rcases List.mem_cons.mp hx with rfl | hx' <;> rcases List.mem_cons.mp hy with rfl | hy'
    · exact .inl rfl
    · have := hrest.first_le hy'
      exact .inr (.inr (by omega))
    · have := hrest.first_le hx'
      exact .inr (.inl (by omega))
    · exact ih hrest hx' hy'

theorem Tiles.before_of_append (h : Tiles first (hs ++ ts) last) (hx : x ∈ hs) (hy : y ∈ ts) :
    x.offset + x.size ≤ y.offset := by
  induction hs generalizing first with
  | nil => cases hx
  | cons w hs ih =>
    rcases List.mem_cons.mp hx with rfl | hx
    · rw [h.1]
      exact h.2.first_le (List.mem_append_right _ hy)
    · exact ih h.2 hx

namespace SSTableReader

variable {snap : Snap} {file : Bytes} {number pos : Nat} {v : UInt8} {r : SSTableReader}

theorem tryReadBloomFilter_set {index : IndexBlock} {footer : Footer}
    (hindex : (blockAt snap.decompress file footer.indexHandle).bind IndexBlock.new = .ok index)
    (havoid : BlockHandle.Avoids footer.indexHandle pos)
    (hmeta : BlockHandle.Avoids ⟨lastDataBlockEnd index.iterEntries,
      footer.metaIndexHandle.offset - lastDataBlockEnd index.iterEntries⟩ pos) :
    tryReadBloomFilter snap (file.set pos v) footer = tryReadBloomFilter snap file footer := by
  unfold tryReadBloomFilter
  rw [blockAt_set havoid]
  cases hdata : blockAt snap.decompress file footer.indexHandle with
  | error e => rfl
  | ok data =>
    rw [hdata] at hindex
    replace hindex : IndexBlock.new data = .ok index := hindex
    simp only [bind, Except.bind, hindex, blockAt_set hmeta]

theorem openFile_set (hopen : openFile snap number file = .ok r)
    (hindex : BlockHandle.Avoids r.footer.indexHandle pos) (hmeta : BlockHandle.Avoids r.metaBlockHandle pos)
    (hfooter : pos < file.length - 48) :
    openFile snap number (file.set pos v) = .ok { r with file := file.set pos v } := by
  unfold openFile at hopen ⊢
  rw [List.length_set, List.drop_set_of_lt hfooter]
  simp only [bind, Except.bind, pure, Except.pure] at hopen ⊢
  split_ifs at hopen ⊢ with hshort
  cases hf : Footer.decode (file.drop (file.length - 48)) with
  | error e => simp only [hf] at hopen; cases hopen
  | ok footer =>
    simp only [hf] at hopen ⊢
    cases hdata : blockAt snap.decompress file footer.indexHandle with
    | error e => simp only [hdata] at hopen; cases hopen
    | ok data =>
      simp only [hdata] at hopen
      cases hblock : IndexBlock.new data with
      | error e => simp only [hblock] at hopen; cases hopen
      | ok index =>
        simp only [hblock, Except.ok.injEq] at hopen
        subst hopen
        have hbind : (blockAt snap.decompress file footer.indexHandle).bind IndexBlock.new = .ok index := by
          rw [hdata]
          exact hblock
        simp only [blockAt_set hindex, hdata, hblock, tryReadBloomFilter_set hbind hindex hmeta]

def searchData (key : Bytes) (data : Except Error Bytes) : Except Error (Option Bytes) := do
  let block ← Block.new (← data)
  return scan key block.iter.seekToFirst.visited

theorem get_of_find (hadmits : r.Admits key) (hfind : r.indexBlock.findBlock key = .ok (some handle)) :
    r.get snap key = .lift (searchData key (blockAt snap.decompress r.file handle)) := by
  rw [get_of_admits hadmits, hfind]
  rfl

def NoWorse (snap : Snap) (r' r : SSTableReader) : Prop :=
  ∀ key, (∃ e, r'.get snap key = .err e) ∨ r'.get snap key = r.get snap key

def payload (r : SSTableReader) (handle : BlockHandle) : Bytes := (r.file.drop handle.offset).take (handle.size - 5)

/-- The stored data, taken under this byte for the compression, is refused or answers
every key that is looked up in the block as before. -/
def HarmlessAs (snap : Snap) (r : SSTableReader) (handle : BlockHandle) (compressionType : UInt8) : Prop :=
  ∀ key, r.Admits key → r.indexBlock.findBlock key = .ok (some handle) →
    (∃ e, searchData key (decodeAs snap.decompress compressionType (r.payload handle)) = .error e) ∨
      .lift (searchData key (decodeAs snap.decompress compressionType (r.payload handle))) = r.get snap key

/-- The reader of the altered file gives what it gave, except for the keys that are
looked up in the altered block. -/
theorem noWorse_iff {handle : BlockHandle}
    (hother : ∀ key handle', r.indexBlock.findBlock key = .ok (some handle') → handle' ≠ handle →
      BlockHandle.Avoids handle' pos) :
    NoWorse snap { r with file := r.file.set pos v } r ↔
      ∀ key, r.Admits key → r.indexBlock.findBlock key = .ok (some handle) →
        (∃ e, searchData key (blockAt snap.decompress (r.file.set pos v) handle) = .error e) ∨
          .lift (searchData key (blockAt snap.decompress (r.file.set pos v) handle)) = r.get snap key := by
  have hadmits : ∀ key, Admits { r with file := r.file.set pos v } key ↔ r.Admits key := fun _ => Iff.rfl
  constructor
  · intro h key hadm hfind
    have hkey := h key
    rwa [@get_of_find snap { r with file := r.file.set pos v } key handle ((hadmits key).mpr hadm) hfind,
      exists_congr fun e => Outcome.lift_eq_err] at hkey
  · intro h key
    by_cases hadm : r.Admits key
    · cases hfind : r.indexBlock.findBlock key with
      | err e =>
        left
        refine ⟨e, ?_⟩
        rw [get_of_admits ((hadmits key).mpr hadm), hfind]
        rfl
      | stopped =>
        right
        rw [get_of_admits ((hadmits key).mpr hadm), get_of_admits hadm, hfind]
        rfl
      | ok found =>
        cases found with
        | none =>
          right
          rw [get_of_admits ((hadmits key).mpr hadm), get_of_admits hadm, hfind]
          rfl
        | some handle' =>
          have hget := @get_of_find snap { r with file := r.file.set pos v } key handle' ((hadmits key).mpr hadm) hfind
          by_cases hsame : handle' = handle
          · subst hsame
            rw [hget, exists_congr fun e => Outcome.lift_eq_err]
            exact h key hadm hfind
          · right
            rw [hget, blockAt_set (hother key handle' hfind hsame), get_of_find hadm hfind]
    · right
      rw [get_of_not_admits hadm, get_of_not_admits (mt (hadmits key).mp hadm)]

end SSTableReader

theorem Stored.blockAt_set {snap : Snap} {file : Bytes} {pos : Nat} {v : UInt8} (h : Stored snap file blk)
    (hle : blk.handle.offset ≤ pos) (hlt : pos < blk.handle.offset + blk.handle.size) (hne : file[pos]? ≠ some v) :
    if pos = blk.handle.offset + (blk.handle.size - 5) then
      AiDb.blockAt snap.decompress (file.set pos v) blk.handle =
        decodeAs snap.decompress v ((file.drop blk.handle.offset).take (blk.handle.size - 5))
    else ∃ e, AiDb.blockAt snap.decompress (file.set pos v) blk.handle = .error e := by
  obtain ⟨-, c, pre, data, post, rfl, -, hhandle⟩ := h
  rw [hhandle] at hle hlt ⊢
  dsimp only at hle hlt ⊢
  obtain ⟨i, rfl⟩ := Nat.exists_eq_add_of_le hle
  have hi : i < data.length + 5 := by omega
  have hblock : i < (withTrailer c data).length := by simpa using hi
  have hset : (pre ++ withTrailer c data ++ post).set (pre.length + i) v =
      pre ++ (withTrailer c data).set i v ++ post := by
    rw [List.append_assoc, List.set_append_right _ _ (by omega), Nat.add_sub_cancel_left,
      List.set_append_left _ _ hblock, List.append_assoc]
  have hne' : (withTrailer c data)[i]? ≠ some v := by
    rwa [List.append_assoc, List.getElem?_append_right (by omega), Nat.add_sub_cancel_left,
      List.getElem?_append_left hblock] at hne
  have hpayload : ((pre ++ withTrailer c data ++ post).drop pre.length).take data.length = data := by
    rw [List.append_assoc, List.drop_left, withTrailer, List.append_assoc, List.append_assoc, List.take_left]
  have hread := blockAt_block snap.decompress pre ((withTrailer c data).set i v) post (by simp)
  rw [List.length_set, length_withTrailer] at hread
  have hdecode := @decodeBlock_set snap c data i v hi hne'
  rw [hset, hread, Nat.add_sub_cancel, hpayload]
  simpa using hdecode

/-- Of every table, with one byte of a data block altered: the file opens, and no lookup
gives another answer, exactly where the byte is not the one for the compression or the
payload is harmless under it. -/
theorem corruption_noticed_iff (snap : Snap) (sizing : Sizing) (limit number : Nat) (calls : List BuilderCall)
    (hlimit : limit ≤ 2 ^ 32) (h : SSTableBuilder.Feasible snap sizing limit calls)
    (hindex : ((SSTableBuilder.new.run snap sizing calls).sealed snap).indexBlockBuilder.currentSize < 2 ^ 32) :
    ∃ size file r, ∃ index : Index, (SSTableBuilder.new.run snap sizing calls).finish snap = .ok (size, file) ∧
      SSTableReader.openFile snap number file = .ok r ∧ r.indexBlock.iterEntries = index.map .ok ∧
      ∀ e ∈ index, ∀ pos v, e.2.offset ≤ pos → pos < e.2.offset + e.2.size → file[pos]? ≠ some v →
        ∃ r', SSTableReader.openFile snap number (file.set pos v) = .ok r' ∧
          (r'.NoWorse snap r ↔ (pos = e.2.offset + (e.2.size - 5) → r.HarmlessAs snap e.2 v)) := by
  obtain ⟨-, hfinish, d, f, -, hsealed⟩ := (SSTableBuilder.run_follows hlimit h).built.finish hlimit hindex
  obtain ⟨r, hopen, hreads, hfile, -, hfooter⟩ := hsealed.openFile number
  refine ⟨_, _, r, f.index, hfinish, hopen, hreads.iterEntries, ?_⟩
  intro e he pos v hle hlt hne
  have hindexOf := hreads.wellFormed.index_eq
  rw [hindexOf] at he
  obtain ⟨blk, hblk, rfl⟩ := List.mem_map.mp he
  dsimp only at hle hlt ⊢
  have hlaid := hsealed.laidOut (List.ne_nil_of_mem hblk) hreads hfile hfooter
  have hhandle : blk.handle ∈ f.index.map Prod.snd := by
    rw [hindexOf]
    exact List.mem_map_of_mem he
  have htail : ∀ y ∈ r.tail, pos < y.offset := fun y hy =>
    lt_of_lt_of_le hlt (hlaid.tiles.before_of_append hhandle hy)
  change (SSTableBuilder.file _)[pos]? ≠ some v at hne
  change ∃ r', SSTableReader.openFile snap number (List.set (SSTableBuilder.file _) pos v) = .ok r' ∧ _
  rw [← hfile] at hne hopen ⊢
  refine ⟨_, SSTableReader.openFile_set hopen (.inl (htail _ ?_)) (.inl (htail _ ?_)) (htail ⟨_, 48⟩ ?_), ?_⟩
  · simp [SSTableReader.tail]
  · simp [SSTableReader.tail]
  · simp [SSTableReader.tail]
  rw [@SSTableReader.noWorse_iff snap pos v r blk.handle]
  · have hblock := (hreads.stored blk hblk).blockAt_set hle hlt hne
    by_cases hpos : pos = blk.handle.offset + (blk.handle.size - 5)
    · rw [if_pos hpos] at hblock
      rw [hblock]
      exact ⟨fun hall _ => hall, fun hall => hall hpos⟩
    · rw [if_neg hpos] at hblock
      obtain ⟨err, herr⟩ := hblock
      rw [herr]
      exact iff_of_true (fun _ _ _ => .inl ⟨err, rfl⟩) fun h => absurd h hpos
  · intro key handle' hfind hother
    rw [hreads.findBlock, hindexOf] at hfind
    obtain ⟨blk', hblk', hfound, -⟩ := findBlock_spec key hreads.wellFormed.nonempty hreads.wellFormed.ascending
      (List.ne_nil_of_mem hblk)
    rw [hfound] at hfind
    cases hfind
    have hhandle' : blk'.handle ∈ f.index.map Prod.snd := by
      rw [hindexOf]
      exact List.mem_map_of_mem (List.mem_map_of_mem hblk')
    rcases hlaid.tiles.eq_or_apart (List.mem_append_left _ hhandle) (List.mem_append_left _ hhandle') with heq | hb | ha
    · exact absurd heq hother
    · exact .inr (hb.trans hle)
    · exact .inl (lt_of_lt_of_le hlt ha)

theorem corruption_noticed_iff_payload : ∃ size file r, ∃ index : Index,
    (SSTableBuilder.new.run ⟨.ok, .ok⟩ .decimal [.add [97] [49]]).finish ⟨.ok, .ok⟩ = .ok (size, file) ∧
      SSTableReader.openFile ⟨.ok, .ok⟩ 2 file = .ok r ∧ r.indexBlock.iterEntries = index.map .ok ∧
      ∀ e ∈ index, ∀ pos v, e.2.offset ≤ pos → pos < e.2.offset + (e.2.size - 5) → file[pos]? ≠ some v →
        ∃ r', SSTableReader.openFile ⟨.ok, .ok⟩ 2 (file.set pos v) = .ok r' ∧ r'.NoWorse ⟨.ok, .ok⟩ r := by
  have hfeasible : SSTableBuilder.Feasible ⟨.ok, .ok⟩ .decimal (2 ^ 32) [.add [97] [49]] :=
    ⟨by simp, by decide, SSTableBuilder.runFits_of_forall (by decide +kernel)⟩
  obtain ⟨size, file, r, index, hfinish, hopen, hnamed, hall⟩ :=
    corruption_noticed_iff ⟨.ok, .ok⟩ .decimal (2 ^ 32) 2 _ le_rfl hfeasible (by decide +kernel)
  refine ⟨size, file, r, index, hfinish, hopen, hnamed, fun e he pos v hle hlt hne => ?_⟩
  obtain ⟨r', hopen', hiff⟩ := hall e he pos v hle (by omega) hne
  exact ⟨r', hopen', hiff.mpr fun heq => absurd heq (Nat.ne_of_lt hlt)⟩

/-- The block with the entry `a` under `1`, and what the `snap` crate compresses it to. -/
def oneEntry : Bytes := [0, 0, 0, 0, 1, 0, 0, 0, 1, 0, 0, 0, 97, 49, 0, 0, 0, 0, 1, 0, 0, 0]

def oneEntryPacked : Bytes := [22, 16, 0, 0, 0, 0, 1, 13, 4, 36, 97, 49, 0, 0, 0, 0, 1, 0, 0, 0]

def packOneEntry : Snap where
  compress data := .ok (if data = oneEntry then oneEntryPacked else data)
  decompress data := .ok (if data = oneEntryPacked then oneEntry else data)

/-- The type of a compressed block altered to none: the key is silently gone. -/
theorem not_corruption_noticed_type : ∃ size file r r',
    ((SSTableBuilder.start 4096 .snappy false).add packOneEntry [97] [49]).2.finish packOneEntry = .ok (size, file) ∧
      SSTableReader.openFile packOneEntry 2 file = .ok r ∧ r.get packOneEntry [97] = .ok (some [49]) ∧
      SSTableReader.openFile packOneEntry 2 (file.set 20 0) = .ok r' ∧ r'.get packOneEntry [97] = .ok none := by
  have hrun : (((SSTableBuilder.start 4096 .snappy false).add packOneEntry [97] [49]).2.finish packOneEntry).map
      (fun p => decide ((SSTableReader.openFile packOneEntry 2 p.2).map (·.get packOneEntry [97]) = .ok (.ok (some [49])) ∧
        (SSTableReader.openFile packOneEntry 2 (p.2.set 20 0)).map (·.get packOneEntry [97]) = .ok (.ok none))) = .ok true := by
    decide +kernel
  generalize ((SSTableBuilder.start 4096 .snappy false).add packOneEntry [97] [49]).2.finish packOneEntry = finished at hrun ⊢
  cases finished with
  | error err => simp [Except.map] at hrun
  | ok p =>
    obtain ⟨hget, hget'⟩ := of_decide_eq_true (Except.ok.inj hrun)
    cases hopen : SSTableReader.openFile packOneEntry 2 p.2 with
    | error err => simp [hopen, Except.map] at hget
    | ok r =>
      cases hopen' : SSTableReader.openFile packOneEntry 2 (p.2.set 20 0) with
      | error err => simp [hopen', Except.map] at hget'
      | ok r' =>
        rw [hopen] at hget
        rw [hopen'] at hget'
        exact ⟨p.1, p.2, r, r', rfl, hopen, Except.ok.inj hget, hopen', Except.ok.inj hget'⟩

end Sstable

end AiDb
