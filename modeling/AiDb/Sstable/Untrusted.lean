import AiDb.Library.Checked
import AiDb.Sstable.Settings

/-!
# Opening arbitrary bytes

`SSTableReader::open_with_cache` in a build with overflow checks. The numbers it takes
from the file go into sums and differences before anything compares them with the size of
the file; where one leaves its range the open stops, and does not return an error.
-/

namespace AiDb

open Library

-- ---------------------------------------------------------------------------
-- The functions with their checks
-- ---------------------------------------------------------------------------

def BlockHandle.decodeChecked (data : Bytes) : Outcome Error BlockHandle :=
  if data.length < 16 then .err (.corruption "BlockHandle too short")
  else do
    let offset ← .slice data 0 8
    let size ← .slice data 8 16
    return ⟨fromLe offset, fromLe size⟩

theorem BlockHandle.decodeChecked_eq (data : Bytes) :
    BlockHandle.decodeChecked data = .lift (BlockHandle.decode data) := by
  unfold BlockHandle.decodeChecked BlockHandle.decode
  split
  · rfl
  · rw [Outcome.slice_eq (by omega) (by omega), Outcome.ok_bind, Outcome.slice_eq (by omega) (by omega), Outcome.ok_bind]
    rfl

namespace Sstable

def Footer.decodeChecked (data : Bytes) : Outcome Error Footer :=
  if data.length ≠ 48 then .err (.corruption ("Footer size mismatch: expected 48, got " ++ toString data.length))
  else do
    let found ← .slice data 40 48
    if fromLe found ≠ magicNumber then
      .err (.corruption ("Invalid SSTable magic number: expected " ++ hex magicNumber ++ ", got " ++ hex (fromLe found)))
    else do
      let metaIndexHandle ← BlockHandle.decodeChecked (← .slice data 0 16)
      let indexHandle ← BlockHandle.decodeChecked (← .slice data 16 32)
      return ⟨metaIndexHandle, indexHandle⟩

def BloomFilter.decodeChecked (data : Bytes) : Outcome Error BloomFilter :=
  if data.length < 12 then .err (.corruption "Bloom filter data too short")
  else do
    let numHashes ← .slice data 0 4
    let numBits ← .slice data 4 12
    let expected ← .add 64 12 (numBytes (fromLe numBits))
    if data.length ≠ expected then .err (.corruption "Bloom filter size mismatch")
    else do
      let bits ← .slice data 12 data.length
      return ⟨bits, fromLe numHashes, fromLe numBits⟩

def Block.newChecked (data : Bytes) : Outcome Error Block :=
  if data.length < 4 then .err (.corruption "Block too small")
  else do
    let numRestarts ← .slice data (data.length - 4) data.length
    let restarts ← .mul 64 (fromLe numRestarts) 4
    let restartOffset ← .sub (data.length - 4) restarts
    if restartOffset > data.length then .err (.corruption "Invalid restart offset")
    else return ⟨data, restartOffset, fromLe numRestarts⟩

def Block.getRestartPointChecked (b : Block) (index : Nat) : Outcome Error Nat := do
  let offset ← .add 64 b.restartOffset (index * 4)
  let bytes ← .slice b.data offset (offset + 4)
  return fromLe bytes

namespace BlockIterator

def seekToFirstChecked (it : BlockIterator) : Outcome Error BlockIterator := do
  let current ← it.block.getRestartPointChecked 0
  return { it with
    key := []
    restartIndex := 0
    current := current
    valid := current < it.block.restartOffset }

def parseNextEntryChecked (it : BlockIterator) : Outcome Error BlockIterator :=
  if it.current ≥ it.block.restartOffset then .ok { it with valid := false }
  else do
    let data ← .slice it.block.data it.current it.block.data.length
    if data.length < 12 then .ok { it with valid := false }
    else do
      let shared ← .slice data 0 4
      let unshared ← .slice data 4 8
      let valueLen ← .slice data 8 12
      let keyEnd ← .add 64 12 (fromLe unshared)
      let valueEnd ← .add 64 keyEnd (fromLe valueLen)
      if data.length < valueEnd then .ok { it with valid := false }
      else do
        let suffix ← .slice data 12 keyEnd
        let value ← .slice data keyEnd valueEnd
        let current ← .add 64 it.current valueEnd
        return { it with
          key := it.key.take (fromLe shared) ++ suffix
          value := value
          current := current
          valid := true }

def advanceChecked (it : BlockIterator) : Outcome Error (Bool × BlockIterator) :=
  if it.valid then do
    let it ← it.parseNextEntryChecked
    return (it.valid, it)
  else .ok (false, it)

theorem parseNextEntryChecked_ok {it it' : BlockIterator} (h : it.parseNextEntryChecked = .ok it') :
    it' = it.parseNextEntry := by
  unfold parseNextEntryChecked at h
  unfold parseNextEntry
  by_cases hcur : it.current ≥ it.block.restartOffset
  · rw [if_pos hcur] at h ⊢
    exact (Outcome.ok.inj h).symm
  rw [if_neg hcur] at h ⊢
  obtain ⟨data, hdata, h⟩ := Outcome.bind_eq_ok.mp h
  obtain ⟨-, rfl⟩ := Outcome.slice_eq_ok.mp hdata
  rw [← List.length_drop, List.take_length] at h
  dsimp only
  by_cases hshort : (it.block.data.drop it.current).length < 12
  · rw [if_pos hshort] at h ⊢
    exact (Outcome.ok.inj h).symm
  rw [if_neg hshort] at h ⊢
  simp only [Outcome.bind_eq_ok, Outcome.slice_eq_ok, Outcome.add_eq_ok] at h
  obtain ⟨shared, ⟨-, rfl⟩, unshared, ⟨-, rfl⟩, valueLen, ⟨-, rfl⟩, keyEnd, ⟨-, rfl⟩, valueEnd, ⟨-, rfl⟩, h⟩ := h
  simp only [List.drop_zero, Nat.sub_zero, Nat.reduceSub] at h
  split_ifs at h ⊢ with hlong
  · exact (Outcome.ok.inj h).symm
  simp only [Outcome.bind_eq_ok, Outcome.slice_eq_ok, Outcome.add_eq_ok] at h
  obtain ⟨suffix, ⟨-, rfl⟩, value, ⟨-, rfl⟩, current, ⟨-, rfl⟩, h⟩ := h
  simpa using (Outcome.ok.inj h).symm

theorem advanceChecked_ok {it : BlockIterator} {r : Bool × BlockIterator} (h : it.advanceChecked = .ok r) :
    it.advance = r := by
  unfold advanceChecked at h
  unfold advance
  split_ifs at h ⊢
  · obtain ⟨it', hparse, h⟩ := Outcome.bind_eq_ok.mp h
    rw [← parseNextEntryChecked_ok hparse]
    exact Outcome.ok.inj h
  · exact Outcome.ok.inj h

end BlockIterator

section File

variable (snap : Snap) (allocatable : Nat) (file : Bytes)

/-- `read_block_data`. A seek takes offsets below 2^63; a buffer longer than `allocatable`
cannot be had. -/
def readBlockDataChecked (handle : BlockHandle) : Outcome Error Bytes :=
  if 2 ^ 63 ≤ handle.offset then .err (.io .other)
  else if handle.size < 5 then .err (.corruption "Block size too small")
  else if allocatable < handle.size then .stopped
  else do
    let buffer ← .lift (readExact file handle.offset handle.size).1
    let dataSize ← .sub handle.size 5
    let data ← .slice buffer 0 dataSize
    let compressionType ← .index buffer dataSize
    let checksum ← .slice buffer (dataSize + 1) (dataSize + 5)
    .lift (decodeBlock snap.decompress (data ++ [compressionType] ++ checksum))

def IndexBlock.newChecked (data : Bytes) : Outcome Error IndexBlock := do return ⟨← Block.newChecked data⟩

def BlockIterator.blocksEndChecked (it : BlockIterator) (last : Nat) : Outcome Error Nat :=
  match _h : it.advanceChecked with
  | .ok (true, it') =>
    match BlockHandle.decodeChecked it'.value with
    | .ok handle => Outcome.add 64 handle.offset handle.size >>= fun last => blocksEndChecked it' last
    | .err _ => blocksEndChecked it' last
    | .stopped => .stopped
  | .ok (false, _) => .ok last
  | .err e => .err e
  | .stopped => .stopped
termination_by it.block.data.length - it.current
decreasing_by
  all_goals
    have hadvance := advanceChecked_ok _h
    obtain ⟨h₁, h₂, h₃⟩ := @advance_current it (by rw [hadvance])
    rw [hadvance] at h₂ h₃
    dsimp only at h₂ h₃
    rw [h₃]
    omega

def tryReadBloomFilterChecked (footer : Footer) : Outcome Error (Option BloomFilter) := do
  let index ← IndexBlock.newChecked (← readBlockDataChecked snap allocatable file footer.indexHandle)
  let iter ← index.block.iter.seekToFirstChecked
  let metaBlockOffset ← iter.blocksEndChecked 0
  if metaBlockOffset = 0 then return none
  else do
    let metaBlockSize ← .sub footer.metaIndexHandle.offset metaBlockOffset
    if ¬(5 ≤ metaBlockSize ∧ metaBlockSize ≤ 100000000) then return none
    else do
      let metaData ← readBlockDataChecked snap allocatable file ⟨metaBlockOffset, metaBlockSize⟩
      if metaData.length > 12 then
        match BloomFilter.decodeChecked metaData with
        | .ok filter => return some filter
        | .err _ => return none
        | .stopped => .stopped
      else return none

def SSTableReader.openWithCache (fileNumber : Nat) : Outcome Error SSTableReader :=
  if file.length < 48 then .err (.corruption "File too small to be a valid SSTable")
  else do
    let footer ← Footer.decodeChecked (file.drop (file.length - 48))
    let indexBlock ← IndexBlock.newChecked (← readBlockDataChecked snap allocatable file footer.indexHandle)
    if footer.metaIndexHandle.size > 5 then
      match tryReadBloomFilterChecked snap allocatable file footer with
      | .ok filter => return ⟨file, fileNumber, indexBlock, filter, footer, file.length⟩
      | .err _ => return ⟨file, fileNumber, indexBlock, none, footer, file.length⟩
      | .stopped => .stopped
    else return ⟨file, fileNumber, indexBlock, none, footer, file.length⟩

end File

-- ---------------------------------------------------------------------------
-- What cannot stop
-- ---------------------------------------------------------------------------

open Outcome

theorem fromLe_take_lt (n : Nat) (bs : Bytes) : fromLe (bs.take n) < 256 ^ n :=
  lt_of_lt_of_le (fromLe_lt _) (Nat.pow_le_pow_right (by decide) (List.length_take_le _ _))

theorem Footer.decodeChecked_eq (data : Bytes) : decodeChecked data = .lift (decode data) := by
  unfold decodeChecked decode
  by_cases hlen : data.length = 48
  · rw [if_neg (not_not.mpr hlen), if_neg (not_not.mpr hlen), slice_eq (by omega) (by omega), ok_bind,
      slice_eq (by omega) (by omega), ok_bind, slice_eq (by omega) (by omega)]
    by_cases hmagic : fromLe ((data.drop 40).take 8) = magicNumber
    · simp [hmagic, BlockHandle.decodeChecked_eq]
    · simp [hmagic]
  · simp [hlen]

theorem BloomFilter.decodeChecked_eq (data : Bytes) : decodeChecked data = .lift (decode data) := by
  unfold decodeChecked decode
  by_cases hlen : data.length < 12
  · simp [hlen]
  · have hbits : fromLe ((data.drop 4).take (12 - 4)) < 2 ^ 64 := fromLe_take_lt 8 _
    rw [if_neg hlen, if_neg hlen, slice_eq (by omega) (by omega), ok_bind, slice_eq (by omega) (by omega), ok_bind,
      add_eq (by unfold numBytes; omega), ok_bind, slice_eq (by omega) le_rfl]
    by_cases hsize : data.length = 12 + numBytes (fromLe ((data.drop 4).take 8))
    · simp [← hsize]
    · simp [hsize]

/-- The restart points that the last four bytes announce find room in front of them. -/
def RestartsFit (data : Bytes) : Prop := 4 ≤ data.length → fromLe (data.drop (data.length - 4)) * 4 ≤ data.length - 4

instance decidableRestartsFit (data : Bytes) : Decidable (RestartsFit data) := inferInstanceAs (Decidable (_ → _))

theorem Block.newChecked_eq (data : Bytes) :
    newChecked data = if RestartsFit data then .lift (new data) else .stopped := by
  unfold newChecked new
  by_cases hlen : data.length < 4
  · have hfits : RestartsFit data := fun h => absurd hlen (not_lt.mpr h)
    rw [if_pos hlen, if_pos hlen, if_pos hfits, lift_error]
  · have htake : (data.drop (data.length - 4)).take (data.length - (data.length - 4)) = data.drop (data.length - 4) :=
      List.take_of_length_le (by simp)
    have hnum : fromLe (data.drop (data.length - 4)) < 2 ^ 32 := by
      have := fromLe_lt (data.drop (data.length - 4))
      rwa [show (data.drop (data.length - 4)).length = 4 by rw [List.length_drop]; omega] at this
    rw [if_neg hlen, if_neg hlen, slice_eq (by omega) le_rfl, ok_bind, htake, mul_eq (by omega), ok_bind]
    by_cases hfit : fromLe (data.drop (data.length - 4)) * 4 ≤ data.length - 4
    · have hfits : RestartsFit data := fun _ => hfit
      rw [sub_eq hfit, ok_bind, if_neg (by omega), if_pos hfits]
      dsimp only
      rw [if_neg (by omega)]
      rfl
    · have hunfit : ¬RestartsFit data := fun h => hfit (h (by omega))
      rw [if_neg hunfit, sub, check_neg hfit, stopped_bind]

theorem Block.new_eq_ok {data : Bytes} {b : Block} (h : new data = .ok b) :
    b.data = data ∧ b.restartOffset + 4 * b.numRestarts + 4 = data.length := by
  unfold new at h
  dsimp only at h
  split_ifs at h with hlen hfit
  obtain rfl := Except.ok.inj h
  exact ⟨rfl, by dsimp only; omega⟩

namespace BlockIterator

/-- The restart points of the block lie in it, and it lies in the memory. -/
def InRoom (it : BlockIterator) : Prop :=
  it.block.restartOffset + 4 ≤ it.block.data.length ∧ it.block.data.length < 2 ^ 63

theorem seekToFirstChecked_eq {it : BlockIterator} (h : it.InRoom) : it.seekToFirstChecked = .ok it.seekToFirst := by
  obtain ⟨hroom, hlen⟩ := h
  unfold seekToFirstChecked Block.getRestartPointChecked
  rw [add_eq (by omega), ok_bind, slice_eq (by omega) (by omega), Nat.add_sub_cancel_left]
  rfl

theorem parseNextEntryChecked_eq {it : BlockIterator} (h : it.InRoom) : it.parseNextEntryChecked = .ok it.parseNextEntry := by
  suffices hok : ∃ it', it.parseNextEntryChecked = .ok it' by
    obtain ⟨it', hok⟩ := hok
    rw [hok, parseNextEntryChecked_ok hok]
  obtain ⟨hroom, hlen⟩ := h
  unfold parseNextEntryChecked
  split
  · exact ⟨_, rfl⟩
  rename_i hcur
  rw [slice_eq (by omega) le_rfl, ok_bind, ← List.length_drop, List.take_length]
  split
  · exact ⟨_, rfl⟩
  rename_i hshort
  have hunshared : fromLe (((it.block.data.drop it.current).drop 4).take (8 - 4)) < 2 ^ 32 := fromLe_take_lt 4 _
  have hvalueLen : fromLe (((it.block.data.drop it.current).drop 8).take (12 - 8)) < 2 ^ 32 := fromLe_take_lt 4 _
  rw [slice_eq (by omega) (by omega), ok_bind, slice_eq (by omega) (by omega), ok_bind,
    slice_eq (by omega) (by omega), ok_bind, add_eq (by omega), ok_bind, add_eq (by omega), ok_bind]
  split
  · exact ⟨_, rfl⟩
  rename_i hlong
  have hdrop := List.length_drop (i := it.current) (l := it.block.data)
  rw [slice_eq (by omega) (by omega), ok_bind, slice_eq (by omega) (by omega), ok_bind, add_eq (by omega), ok_bind]
  exact ⟨_, rfl⟩

theorem advanceChecked_eq {it : BlockIterator} (h : it.InRoom) : it.advanceChecked = .ok it.advance := by
  unfold advanceChecked advance
  rw [parseNextEntryChecked_eq h]
  split <;> rfl

theorem InRoom.advance {it : BlockIterator} (h : it.InRoom) (hmoved : it.advance.1 = true) : it.advance.2.InRoom := by
  unfold InRoom
  rw [(advance_current hmoved).2.2]
  exact h

def indexEntries (it : BlockIterator) : List (Except Error (Bytes × BlockHandle)) :=
  it.visited.map fun e => do return (e.1, ← BlockHandle.decode e.2)

theorem indexEntries_stop {it : BlockIterator} (h : it.advance.1 = false) : it.indexEntries = [] := by
  rw [indexEntries, visited, dif_neg (by simp [h])]
  rfl

theorem indexEntries_next {it : BlockIterator} (h : it.advance.1 = true) :
    it.indexEntries = (do return (it.advance.2.key, ← BlockHandle.decode it.advance.2.value)) ::
      it.advance.2.indexEntries := by
  rw [indexEntries, visited, dif_pos h]
  rfl

end BlockIterator

def endAfter (last : Nat) : Except Error (Bytes × BlockHandle) → Nat
  | .ok (_, handle) => handle.offset + handle.size
  | .error _ => last

def EndsFit (entries : List (Except Error (Bytes × BlockHandle))) : Prop :=
  ∀ e ∈ entries.filterMap Except.toOption, e.2.offset + e.2.size < 2 ^ 64

instance decidableEndsFit (entries : List (Except Error (Bytes × BlockHandle))) : Decidable (EndsFit entries) :=
  inferInstanceAs (Decidable (∀ e ∈ _, _))

theorem lastDataBlockEnd_eq (entries : List (Except Error (Bytes × BlockHandle))) :
    lastDataBlockEnd entries = entries.foldl endAfter 0 := rfl

theorem endsFit_cons_ok {e : Bytes × BlockHandle} {entries : List (Except Error (Bytes × BlockHandle))} :
    EndsFit (.ok e :: entries) ↔ e.2.offset + e.2.size < 2 ^ 64 ∧ EndsFit entries := by
  simp [EndsFit, Except.toOption]

theorem endsFit_cons_error {err : Error} {entries : List (Except Error (Bytes × BlockHandle))} :
    EndsFit (.error err :: entries) ↔ EndsFit entries := by
  simp [EndsFit, Except.toOption]

theorem BlockIterator.blocksEndChecked_eq {it : BlockIterator} (h : it.InRoom) (last : Nat) :
    it.blocksEndChecked last =
      if EndsFit it.indexEntries then .ok (it.indexEntries.foldl endAfter last) else .stopped := by
  fun_induction BlockIterator.blocksEndChecked it last with
  | case1 it last it' hadvance handle hhandle ih =>
    have hnext := advanceChecked_ok hadvance
    have hroom := h.advance (by rw [hnext])
    have hentries := @indexEntries_next it (by rw [hnext])
    rw [BlockHandle.decodeChecked_eq, lift_eq_ok] at hhandle
    simp only [hnext] at hroom hentries
    rw [hentries, hhandle]
    simp only [bind_pure_comp, Except.map_ok, endsFit_cons_ok, List.foldl_cons]
    by_cases hfit : handle.offset + handle.size < 2 ^ 64
    · rw [add_eq hfit, ok_bind, ih _ hroom]
      simp only [hfit, true_and]
      rfl
    · rw [add, check_neg hfit, stopped_bind, if_neg fun hends => hfit hends.1]
  | case2 it last it' hadvance err herr ih =>
    have hnext := advanceChecked_ok hadvance
    have hroom := h.advance (by rw [hnext])
    have hentries := @indexEntries_next it (by rw [hnext])
    rw [BlockHandle.decodeChecked_eq, lift_eq_err] at herr
    simp only [hnext] at hroom hentries
    rw [ih hroom, hentries, herr]
    simp [endsFit_cons_error, endAfter]
  | case3 it last it' hadvance hstopped =>
    rw [BlockHandle.decodeChecked_eq] at hstopped
    exact absurd hstopped (lift_ne_stopped _)
  | case4 it last it' hadvance =>
    have hnext := advanceChecked_ok hadvance
    rw [indexEntries_stop (by rw [hnext])]
    rfl
  | case5 it last err herr =>
    rw [advanceChecked_eq h] at herr
    cases herr
  | case6 it last hstopped =>
    rw [advanceChecked_eq h] at hstopped
    cases hstopped

-- ---------------------------------------------------------------------------
-- The reader
-- ---------------------------------------------------------------------------

def Allocates (allocatable : Nat) (handle : BlockHandle) : Prop :=
  handle.offset < 2 ^ 63 → 5 ≤ handle.size → handle.size ≤ allocatable

section Reader

variable (snap : Snap) (allocatable : Nat) (file : Bytes)

def FilterInRange (footer : Footer) (index : IndexBlock) : Prop :=
  let last := lastDataBlockEnd index.iterEntries
  EndsFit index.iterEntries ∧
    (last ≠ 0 → last ≤ footer.metaIndexHandle.offset ∧
      (footer.metaIndexHandle.offset - last ≤ 100000000 →
        Allocates allocatable ⟨last, footer.metaIndexHandle.offset - last⟩))

/-- What the file says of itself stays in range, as far as the open comes to it. -/
def InRange : Prop :=
  48 ≤ file.length → ∀ footer, Footer.decode (file.drop (file.length - 48)) = .ok footer →
    Allocates allocatable footer.indexHandle ∧
      ∀ data, blockAt snap.decompress file footer.indexHandle = .ok data →
        RestartsFit data ∧ ∀ index, IndexBlock.new data = .ok index →
          5 < footer.metaIndexHandle.size → FilterInRange allocatable footer index

end Reader

section Reader

variable {snap : Snap} {allocatable : Nat} {file : Bytes}

theorem decodeBlock_slices (snappy : Decompress) {buffer : Bytes} (h : 5 ≤ buffer.length) :
    (do
      let dataSize ← Outcome.sub buffer.length 5
      let data ← .slice buffer 0 dataSize
      let compressionType ← .index buffer dataSize
      let checksum ← .slice buffer (dataSize + 1) (dataSize + 5)
      .lift (decodeBlock snappy (data ++ [compressionType] ++ checksum))) = .lift (decodeBlock snappy buffer) := by
  have hbuffer : (buffer.drop 0).take (buffer.length - 5 - 0) ++ [buffer[buffer.length - 5]] ++
      (buffer.drop (buffer.length - 5 + 1)).take (buffer.length - 5 + 5 - (buffer.length - 5 + 1)) = buffer := by
    have htail : (buffer.drop (buffer.length - 5 + 1)).take (buffer.length - 5 + 5 - (buffer.length - 5 + 1)) =
        buffer.drop (buffer.length - 5 + 1) := List.take_of_length_le (by rw [List.length_drop]; omega)
    rw [htail, List.drop_zero, Nat.sub_zero, List.take_append_getElem, List.take_append_drop]
  rw [sub_eq h, ok_bind, slice_eq (by omega) (by omega), ok_bind, index_eq (by omega), ok_bind,
    slice_eq (by omega) (by omega), ok_bind, hbuffer]

theorem readBlockDataChecked_returns {handle : BlockHandle} (h : (readBlockDataChecked snap allocatable file handle).Returns) :
    Allocates allocatable handle := by
  intro hoffset hsize
  unfold readBlockDataChecked at h
  rw [if_neg (by omega), if_neg (by omega)] at h
  by_contra hlarge
  rw [if_pos (by omega)] at h
  exact not_returns_stopped h

theorem readBlockDataChecked_agrees {handle : BlockHandle} (hfile : file.length < 2 ^ 63) (h : Allocates allocatable handle) :
    (readBlockDataChecked snap allocatable file handle).Agrees (blockAt snap.decompress file handle) := by
  unfold readBlockDataChecked blockAt
  by_cases hsize : handle.size < 5
  · rw [if_pos hsize, if_pos hsize]
    split <;> trivial
  rw [if_neg hsize, if_neg hsize]
  unfold readExact
  split
  · rw [if_neg (by omega)]
    trivial
  · rename_i hoffset
    rw [if_neg (not_lt.mpr (h (by omega) (by omega)))]
    split
    · rename_i hend
      have hlen : ((file.drop handle.offset).take handle.size).length = handle.size := by simp; omega
      have hslices := @decodeBlock_slices snap.decompress ((file.drop handle.offset).take handle.size) (by omega)
      rw [hlen] at hslices
      simp only [lift_ok, ok_bind]
      rw [hslices]
      exact agrees_lift _
    · trivial

theorem newChecked_agrees {data : Bytes} (h : RestartsFit data) :
    (IndexBlock.newChecked data).Agrees (IndexBlock.new data) := by
  unfold IndexBlock.newChecked IndexBlock.new
  rw [Block.newChecked_eq, if_pos h]
  exact (agrees_lift _).bind fun _ _ _ => rfl

theorem newChecked_returns {data : Bytes} (h : (IndexBlock.newChecked data).Returns) : RestartsFit data := by
  unfold IndexBlock.newChecked at h
  rw [returns_bind, Block.newChecked_eq] at h
  by_contra hunfit
  rw [if_neg hunfit] at h
  exact not_returns_stopped h.1

theorem blockAt_length {handle : BlockHandle} {data : Bytes} (hfile : file.length < 2 ^ 63)
    (hsnap : ∀ x y, snap.decompress x = .ok y → y.length < 2 ^ 63)
    (h : blockAt snap.decompress file handle = .ok data) : data.length < 2 ^ 63 := by
  unfold blockAt at h
  split_ifs at h with hsize
  unfold readExact at h
  split_ifs at h with hend
  · unfold decodeBlock at h
    simp only [Except.bind] at h
    split_ifs at h with hsum
    split at h
    · cases h
    · cases h
      simp only [List.length_take, List.length_drop]
      omega
    · split at h
      · rename_i hdecompress
        cases h
        exact hsnap _ _ hdecompress
      · cases h
    · cases h
  · cases h

theorem inRoom_of_new {data : Bytes} {index : IndexBlock} (hdata : data.length < 2 ^ 63)
    (h : IndexBlock.new data = .ok index) : index.block.iter.InRoom := by
  unfold IndexBlock.new at h
  cases hblock : Block.new data with
  | error e =>
    rw [hblock] at h
    cases h
  | ok b =>
    rw [hblock] at h
    obtain rfl := Except.ok.inj h
    obtain ⟨hb, hoffset⟩ := Block.new_eq_ok hblock
    change b.restartOffset + 4 ≤ b.data.length ∧ b.data.length < 2 ^ 63
    rw [hb]
    omega

theorem tryReadBloomFilterChecked_agrees {footer : Footer} {data : Bytes} {index : IndexBlock} (hfile : file.length < 2 ^ 63)
    (hindex : Allocates allocatable footer.indexHandle) (hdata : blockAt snap.decompress file footer.indexHandle = .ok data)
    (hlen : data.length < 2 ^ 63) (hfit : RestartsFit data) (hnew : IndexBlock.new data = .ok index)
    (h : FilterInRange allocatable footer index) :
    (tryReadBloomFilterChecked snap allocatable file footer).Agrees
      (SSTableReader.tryReadBloomFilter snap file footer) := by
  have hroom := inRoom_of_new hlen hnew
  obtain ⟨hends, hfilter⟩ := h
  refine (readBlockDataChecked_agrees hfile hindex).bind fun data' _ hdata' => ?_
  obtain rfl : data = data' := Except.ok.inj (hdata.symm.trans hdata')
  refine (newChecked_agrees hfit).bind fun index' _ hnew' => ?_
  obtain rfl : index = index' := Except.ok.inj (hnew.symm.trans hnew')
  have hfirst : index.block.iter.seekToFirst.InRoom := hroom
  have hentries : index.block.iter.seekToFirst.indexEntries = index.iterEntries := rfl
  rw [BlockIterator.seekToFirstChecked_eq hroom, ok_bind, BlockIterator.blocksEndChecked_eq hfirst, hentries,
    if_pos hends, ok_bind, ← lastDataBlockEnd_eq]
  by_cases hlast : lastDataBlockEnd index.iterEntries = 0
  · simp only [hlast, if_true]
    rfl
  obtain ⟨hle, halloc⟩ := hfilter hlast
  rw [if_neg hlast, sub_eq hle, ok_bind]
  dsimp only
  rw [if_neg hlast]
  by_cases hsize : 5 ≤ footer.metaIndexHandle.offset - lastDataBlockEnd index.iterEntries ∧
      footer.metaIndexHandle.offset - lastDataBlockEnd index.iterEntries ≤ 100000000
  · rw [if_neg (not_not.mpr hsize), if_neg (not_not.mpr hsize)]
    refine (readBlockDataChecked_agrees hfile (halloc hsize.2)).bind fun metaData _ _ => ?_
    split
    · rw [BloomFilter.decodeChecked_eq]
      cases BloomFilter.decode metaData <;> rfl
    · rfl
  · rw [if_pos hsize, if_pos hsize]
    rfl

theorem tryReadBloomFilterChecked_returns {footer : Footer} {data : Bytes} {index : IndexBlock}
    (hfile : file.length < 2 ^ 63) (hindex : Allocates allocatable footer.indexHandle)
    (hdata : blockAt snap.decompress file footer.indexHandle = .ok data)
    (hlen : data.length < 2 ^ 63) (hfit : RestartsFit data) (hnew : IndexBlock.new data = .ok index)
    (h : (tryReadBloomFilterChecked snap allocatable file footer).Returns) :
    FilterInRange allocatable footer index := by
  have hroom := inRoom_of_new hlen hnew
  have hread := (readBlockDataChecked_agrees hfile hindex).eq_ok hdata
  have hindexOk := (newChecked_agrees hfit).eq_ok hnew
  have hfirst : index.block.iter.seekToFirst.InRoom := hroom
  have hentries : index.block.iter.seekToFirst.indexEntries = index.iterEntries := rfl
  unfold tryReadBloomFilterChecked at h
  rw [hread, ok_bind, hindexOk, ok_bind, BlockIterator.seekToFirstChecked_eq hroom, ok_bind,
    BlockIterator.blocksEndChecked_eq hfirst, hentries] at h
  by_cases hends : EndsFit index.iterEntries
  · rw [if_pos hends, ok_bind, ← lastDataBlockEnd_eq] at h
    refine ⟨hends, fun hlast => ?_⟩
    rw [if_neg hlast] at h
    by_cases hle : lastDataBlockEnd index.iterEntries ≤ footer.metaIndexHandle.offset
    · refine ⟨hle, fun hsize hoffset hfive => ?_⟩
      rw [sub_eq hle, ok_bind, if_neg (not_not.mpr ⟨hfive, hsize⟩), returns_bind] at h
      exact readBlockDataChecked_returns h.1 hoffset hfive
    · rw [sub, check_neg hle] at h
      exact absurd h not_returns_stopped
  · rw [if_neg hends] at h
    exact absurd h not_returns_stopped

theorem openWithCache_agrees {number : Nat} (hfile : file.length < 2 ^ 63)
    (hsnap : ∀ x y, snap.decompress x = .ok y → y.length < 2 ^ 63) (h : InRange snap allocatable file) :
    (SSTableReader.openWithCache snap allocatable file number).Agrees (SSTableReader.openFile snap number file) := by
  unfold SSTableReader.openWithCache SSTableReader.openFile
  by_cases hshort : file.length < 48
  · rw [if_pos hshort, if_pos hshort]
    trivial
  rw [if_neg hshort, if_neg hshort, Footer.decodeChecked_eq]
  refine (agrees_lift _).bind fun footer _ hfooter => ?_
  obtain ⟨hindex, hblock⟩ := h (not_lt.mp hshort) footer hfooter
  refine (readBlockDataChecked_agrees hfile hindex).bind fun data _ hdata => ?_
  obtain ⟨hfit, hfilter⟩ := hblock data hdata
  refine (newChecked_agrees hfit).bind fun index _ hnew => ?_
  split
  · rename_i hmeta
    have hagrees := tryReadBloomFilterChecked_agrees hfile hindex hdata (blockAt_length hfile hsnap hdata) hfit hnew
      (hfilter index hnew hmeta)
    cases hplain : SSTableReader.tryReadBloomFilter snap file footer with
    | ok filter =>
      rw [hagrees.eq_ok hplain]
      rfl
    | error e =>
      obtain ⟨e', herr⟩ := hagrees.eq_err hplain
      rw [herr]
      rfl
  · rfl

/-- Opening a file returns exactly when what the file says of itself stays in range, and
`Block::new` returns exactly when the restart points find room. -/
theorem open_returns_iff (snap : Snap) (allocatable number : Nat) (file : Bytes) (hfile : file.length < 2 ^ 63)
    (hsnap : ∀ x y, snap.decompress x = .ok y → y.length < 2 ^ 63) :
    ((SSTableReader.openWithCache snap allocatable file number).Returns ↔ InRange snap allocatable file) ∧
      ∀ data, ((Block.newChecked data).Returns ↔ RestartsFit data) ∧
        ∀ b, Block.newChecked data = .ok b → b.restartOffset + 4 * b.numRestarts + 4 = data.length := by
  refine ⟨⟨fun h hlong footer hfooter => ?_, fun h => (openWithCache_agrees hfile hsnap h).returns⟩, fun data => ⟨?_, ?_⟩⟩
  · unfold SSTableReader.openWithCache at h
    rw [if_neg (not_lt.mpr hlong), Footer.decodeChecked_eq, hfooter, lift_ok, ok_bind, returns_bind] at h
    have hindex := readBlockDataChecked_returns h.1
    refine ⟨hindex, fun data hdata => ?_⟩
    have h := h.2 data ((readBlockDataChecked_agrees hfile hindex).eq_ok hdata)
    rw [returns_bind] at h
    have hfit := newChecked_returns h.1
    refine ⟨hfit, fun index hnew hmeta => ?_⟩
    have h := h.2 index ((newChecked_agrees hfit).eq_ok hnew)
    rw [if_pos hmeta] at h
    refine tryReadBloomFilterChecked_returns hfile hindex hdata (blockAt_length hfile hsnap hdata) hfit hnew fun hstop => ?_
    rw [hstop] at h
    exact not_returns_stopped h
  · rw [Block.newChecked_eq]
    split <;> simp [*]
  · intro b hb
    rw [Block.newChecked_eq] at hb
    split_ifs at hb
    exact (Block.new_eq_ok (lift_eq_ok.mp hb)).2

def noSnap : Snap := ⟨.ok, fun _ => .error "corrupt input"⟩

def twoBlockTable : SSTableBuilder :=
  .run ⟨.ok, .ok⟩ .decimal .new [.setExpectedKeys 2, .setBlockSize 1, .add [97] [49], .add [98] [50]]

set_option maxRecDepth 4000 in
theorem open_returns_iff_twoBlocks : ∃ size file, twoBlockTable.finish ⟨.ok, .ok⟩ = .ok (size, file) ∧
    (SSTableReader.openFile noSnap 7 file).map (fun r => (r.indexBlock.iterEntries.length, r.bloomFilter.isSome)) =
      .ok (2, true) ∧
    (SSTableReader.openWithCache noSnap 4096 file 7).Returns := by
  -- the parts of the file that the open comes by
  let index := ((IndexBlockBuilder.new.addEntry [97] ⟨0, 27⟩).addEntry [98] ⟨27, 27⟩).finish
  have hparts : (twoBlockTable.finish ⟨.ok, .ok⟩).map (fun p => decide (p.2.length < 2 ^ 63 ∧
      Footer.decode (p.2.drop (p.2.length - 48)) = .ok ⟨⟨79, 13⟩, ⟨92, 75⟩⟩ ∧
      blockAt noSnap.decompress p.2 ⟨92, 75⟩ = .ok index ∧
      (SSTableReader.openFile noSnap 7 p.2).map (fun r => (r.indexBlock.iterEntries.length, r.bloomFilter.isSome)) =
        .ok (2, true))) = .ok true := by decide +kernel
  cases hfinish : twoBlockTable.finish ⟨.ok, .ok⟩ with
  | error err =>
    rw [hfinish] at hparts
    cases hparts
  | ok p =>
    obtain ⟨size, file⟩ := p
    rw [hfinish] at hparts
    obtain ⟨hlen, hfooter, hdata, hopen⟩ := of_decide_eq_true (Except.ok.inj hparts)
    refine ⟨size, file, rfl, hopen, (open_returns_iff noSnap 4096 7 file hlen (by simp [noSnap])).1.mpr ?_⟩
    intro _ footer hfooter'
    obtain rfl : _ = footer := Except.ok.inj (hfooter.symm.trans hfooter')
    refine ⟨fun _ _ => by decide, fun data hdata' => ?_⟩
    obtain rfl : _ = data := Except.ok.inj (hdata.symm.trans hdata')
    refine ⟨by decide +kernel, fun block hblock _ => ?_⟩
    have hblock' : IndexBlock.new index = .ok ⟨⟨index, 58, 2⟩⟩ := by decide +kernel
    obtain rfl : _ = block := Except.ok.inj (hblock'.symm.trans hblock)
    have hentries : (⟨⟨index, 58, 2⟩⟩ : IndexBlock).iterEntries = [.ok ([97], ⟨0, 27⟩), .ok ([98], ⟨27, 27⟩)] := by
      decide +kernel
    unfold FilterInRange
    rw [hentries]
    exact ⟨by decide, fun _ => ⟨by decide, fun _ _ _ => by decide⟩⟩

/-- One restart point announced in a block that has none. -/
def restartless : Bytes := withTrailer .none [1, 0, 0, 0] ++ (Footer.mk ⟨0, 0⟩ ⟨0, 9⟩).encode

theorem not_open_returns_restartless :
    ¬(SSTableReader.openWithCache noSnap 4096 restartless 7).Returns := by
  have hfooter : Footer.decode (restartless.drop (restartless.length - 48)) = .ok ⟨⟨0, 0⟩, ⟨0, 9⟩⟩ := by decide +kernel
  have hdata : blockAt noSnap.decompress restartless ⟨0, 9⟩ = .ok [1, 0, 0, 0] := by decide +kernel
  have halloc : Allocates 4096 ⟨0, 9⟩ := fun _ _ => by decide
  have hread : readBlockDataChecked noSnap 4096 restartless ⟨0, 9⟩ = .ok [1, 0, 0, 0] :=
    (readBlockDataChecked_agrees (by decide +kernel) halloc).eq_ok hdata
  intro h
  unfold SSTableReader.openWithCache at h
  rw [if_neg (by decide +kernel), Footer.decodeChecked_eq, hfooter, lift_ok, ok_bind, hread, ok_bind] at h
  have hfits := newChecked_returns (returns_bind _ _ |>.mp h).1
  exact absurd (hfits (by decide)) (by decide)

end Reader

end Sstable

end AiDb
