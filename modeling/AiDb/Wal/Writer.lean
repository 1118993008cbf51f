import AiDb.Wal.Record

/-!
# Appending to the WAL

`WALWriter::append` cuts an entry into chunks of at most `maxRecordSize`
bytes and writes one record for each: a single `Full` record, or `First`,
any number of `Middle` and `Last`.
-/

namespace AiDb.Wal

def chunkType (dataLen offset chunkSize : Nat) : RecordType :=
  if dataLen ≤ maxRecordSize then .full
  else if offset = 0 then .first
  else if offset + chunkSize ≥ dataLen then .last
  else .middle

/-- The loop of `WALWriter::append`: the records it writes from `offset` on.
Every round moves `offset` forward, so the length of the data is enough fuel. -/
def appendLoop (data : Bytes) : (fuel : Nat) → (offset : Nat) → List Record
  | 0, _ => []
  | fuel + 1, offset =>
    if offset < data.length then
      let remaining := data.length - offset
      let chunkSize := min remaining maxRecordSize
      let chunk := (data.drop offset).take chunkSize
      ⟨chunkType data.length offset chunkSize, chunk⟩ :: appendLoop data fuel (offset + chunkSize)
    else []

def appendRecords (data : Bytes) : List Record := appendLoop data data.length 0

variable (crc : Checksum)

def encodeRecords (rs : List Record) : Bytes := rs.flatMap (Record.encode crc)

def append (data : Bytes) : Bytes := encodeRecords crc (appendRecords data)

def appendAll (entries : List Bytes) : Bytes := entries.flatMap (append crc)

@[simp] theorem encodeRecords_nil : encodeRecords crc [] = [] := rfl

@[simp] theorem encodeRecords_cons (r : Record) (rs : List Record) :
    encodeRecords crc (r :: rs) = r.encode crc ++ encodeRecords crc rs := rfl

@[simp] theorem appendAll_nil : appendAll crc [] = [] := rfl

@[simp] theorem appendAll_cons (e : Bytes) (es : List Bytes) :
    appendAll crc (e :: es) = append crc e ++ appendAll crc es := rfl

theorem appendAll_append (es fs : List Bytes) :
    appendAll crc (es ++ fs) = appendAll crc es ++ appendAll crc fs :=
  List.flatMap_append

-- ---------------------------------------------------------------------------
-- The records of one entry
-- ---------------------------------------------------------------------------

/-- The records that continue an entry: `Middle` ones and a final `Last`,
whose data together is `data`. -/
inductive Continues : List Record → Bytes → Prop
  | last (d : Bytes) : d.length < 65536 → Continues [⟨.last, d⟩] d
  | middle (d : Bytes) (rs : List Record) (data : Bytes) : d.length < 65536 →
      Continues rs data → Continues (⟨.middle, d⟩ :: rs) (d ++ data)

/-- One entry as the reader expects it: a `Full` record, or a `First` one and
its continuation. -/
inductive Group : List Record → Bytes → Prop
  | full (d : Bytes) : d.length < 65536 → Group [⟨.full, d⟩] d
  | first (d : Bytes) (rs : List Record) (data : Bytes) : d.length < 65536 →
      Continues rs data → Group (⟨.first, d⟩ :: rs) (d ++ data)

theorem appendLoop_continues (data : Bytes) (hbig : maxRecordSize < data.length) :
    ∀ fuel offset, 0 < offset → offset < data.length → data.length - offset ≤ fuel →
      Continues (appendLoop data fuel offset) (data.drop offset) := by
  intro fuel
  induction fuel with
  | zero => intro offset _ hlt hfuel; omega
  | succ fuel ih =>
    intro offset hpos hlt hfuel
    have hmax : maxRecordSize = 32768 := rfl
    rw [appendLoop, if_pos hlt]
    by_cases hend : data.length - offset ≤ maxRecordSize
    · -- the last chunk takes everything that is left
      have hmin : min (data.length - offset) maxRecordSize = data.length - offset :=
        Nat.min_eq_left hend
      have htype : chunkType data.length offset (data.length - offset) = .last := by
        unfold chunkType
        rw [if_neg (by omega), if_neg (by omega), if_pos (by omega)]
      have hstop : appendLoop data fuel (offset + (data.length - offset)) = [] := by
        cases fuel with
        | zero => rfl
        | succ fuel => rw [appendLoop, if_neg (by omega)]
      have hchunk : (data.drop offset).take (data.length - offset) = data.drop offset :=
        List.take_of_length_le (by simp)
      simp only [hmin, htype, hstop, hchunk]
      exact .last _ (by simp; omega)
    · have hmin : min (data.length - offset) maxRecordSize = maxRecordSize :=
        Nat.min_eq_right (by omega)
      have htype : chunkType data.length offset maxRecordSize = .middle := by
        unfold chunkType
        rw [if_neg (by omega), if_neg (by omega), if_neg (by omega)]
      simp only [hmin, htype]
      have hrest := ih (offset + maxRecordSize) (by omega) (by omega) (by omega)
      have hsplit : data.drop offset =
          (data.drop offset).take maxRecordSize ++ data.drop (offset + maxRecordSize) := by
        rw [← List.drop_drop, List.take_append_drop]
      rw [hsplit]
      have hshort : ((data.drop offset).take maxRecordSize).length < 65536 := by
        simp only [List.length_take, List.length_drop]; omega
      have hidem : (data.drop offset).take maxRecordSize =
          ((data.drop offset).take maxRecordSize ++ data.drop (offset + maxRecordSize)).take
            maxRecordSize := by rw [← hsplit]
      rw [← hidem]
      exact .middle _ _ _ hshort hrest

theorem appendRecords_group (data : Bytes) (hne : data ≠ []) : Group (appendRecords data) data := by
  have hmax : maxRecordSize = 32768 := rfl
  have hpos : 0 < data.length := List.length_pos_iff.mpr hne
  obtain ⟨fuel, hfuel⟩ : ∃ fuel, data.length = fuel + 1 := ⟨data.length - 1, by omega⟩
  rw [appendRecords, hfuel, appendLoop, if_pos (by omega)]
  by_cases hsmall : data.length ≤ maxRecordSize
  · have hmin : min (data.length - 0) maxRecordSize = data.length := by omega
    have htype : chunkType data.length 0 data.length = .full := by simp [chunkType, hsmall]
    have hstop : appendLoop data fuel (0 + data.length) = [] := by
      cases fuel with
      | zero => rfl
      | succ fuel => rw [appendLoop, if_neg (by omega)]
    simp only [hmin, htype, hstop, List.drop_zero, List.take_length]
    exact .full _ (by omega)
  · have hmin : min (data.length - 0) maxRecordSize = maxRecordSize := by omega
    have htype : chunkType data.length 0 maxRecordSize = .first := by simp [chunkType, hsmall]
    simp only [hmin, htype, List.drop_zero, Nat.zero_add]
    have hrest := appendLoop_continues data (by omega) fuel maxRecordSize (by omega) (by omega)
      (by omega)
    have hg := Group.first (data.take maxRecordSize) _ _ (by simp; omega) hrest
    rwa [List.take_append_drop] at hg

end AiDb.Wal
