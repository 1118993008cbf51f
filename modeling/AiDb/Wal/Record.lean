import AiDb.Bytes

/-!
# WAL records

A record is a checksum (4 bytes), the length of its data (2 bytes), its type
(1 byte) and its data. The codec takes the checksum function as a parameter:
what is proved about the log holds for any function of the record's type and
data. The engine passes `calculateChecksum`.
-/

namespace AiDb.Wal

def maxRecordSize : Nat := 32 * 1024

def headerSize : Nat := 7

inductive RecordType
  | full
  | first
  | middle
  | last
  deriving DecidableEq, Repr

def RecordType.toU8 : RecordType → UInt8
  | .full => 1
  | .first => 2
  | .middle => 3
  | .last => 4

def RecordType.fromU8 (value : UInt8) : Except Error RecordType :=
  if value = 1 then .ok .full
  else if value = 2 then .ok .first
  else if value = 3 then .ok .middle
  else if value = 4 then .ok .last
  else .error (.corruption s!"Invalid record type: {value.toNat}")

@[simp] theorem RecordType.fromU8_toU8 (t : RecordType) : fromU8 t.toU8 = .ok t := by
  cases t <;> rfl

structure Record where
  recordType : RecordType
  data : Bytes
  deriving DecidableEq, Repr

abbrev Checksum := RecordType → Bytes → UInt32

def crcShift (c : UInt32) : UInt32 :=
  if c &&& 1 = 1 then (c >>> 1) ^^^ 0xEDB88320 else c >>> 1

def crcByte (c : UInt32) (b : UInt8) : UInt32 := Nat.repeat crcShift 8 (c ^^^ b.toUInt32)

def crc32 (data : Bytes) : UInt32 := data.foldl crcByte 0xFFFFFFFF ^^^ 0xFFFFFFFF

example : crc32 [49, 50, 51, 52, 53, 54, 55, 56, 57] = 0xCBF43926 := by decide +kernel

def calculateChecksum : Checksum := fun recordType data => crc32 (recordType.toU8 :: data)

def hex (n : Nat) : String := "0x" ++ String.ofList (Nat.toDigits 16 n)

variable (crc : Checksum)

def Record.encode (r : Record) : Bytes :=
  leBytes 4 (crc r.recordType r.data).toNat ++ leBytes 2 r.data.length ++
    [r.recordType.toU8] ++ r.data

def Record.decode (data : Bytes) : Except Error Record :=
  if data.length < headerSize then
    .error (.corruption s!"Record too short: {data.length} bytes")
  else do
    let checksum := fromLe (data.take 4)
    let length := fromLe ((data.drop 4).take 2)
    let recordType ← RecordType.fromU8 ((data.drop 6).headD 0)
    let rest := data.drop headerSize
    if rest.length < length then
      .error (.corruption s!"Incomplete record: expected {length} bytes, got {rest.length}")
    else
      let recordData := rest.take length
      let expected := (crc recordType recordData).toNat
      if checksum ≠ expected then
        .error (.corruption
          ("Checksum mismatch: expected " ++ hex expected ++ ", got " ++ hex checksum))
      else .ok ⟨recordType, recordData⟩

def Record.encodedSize (r : Record) : Nat := headerSize + r.data.length

@[simp] theorem Record.length_encode (r : Record) : (r.encode crc).length = r.encodedSize := by
  simp [Record.encode, Record.encodedSize, headerSize]
  omega

/-- The length field of an encoded record, where the data fits its two bytes. -/
theorem Record.encode_length_field (r : Record) (h : r.data.length < 65536) (rest : Bytes) :
    fromLe (((r.encode crc ++ rest).drop 4).take 2) = r.data.length := by
  have : ((r.encode crc ++ rest).drop 4).take 2 = leBytes 2 r.data.length := by
    simp [Record.encode, List.append_assoc, List.drop_left', List.take_left']
  rw [this, fromLe_leBytes_of_lt (by simpa using h)]

theorem Record.decode_encode (r : Record) (h : r.data.length < 65536) :
    Record.decode crc (r.encode crc) = .ok r := by
  have hlen : fromLe (((r.encode crc).drop 4).take 2) = r.data.length := by
    simpa using r.encode_length_field crc h []
  have hsum : fromLe ((r.encode crc).take 4) = (crc r.recordType r.data).toNat := by
    have : (r.encode crc).take 4 = leBytes 4 (crc r.recordType r.data).toNat := by
      simp [Record.encode, List.append_assoc, List.take_left']
    rw [this, fromLe_leBytes_of_lt (UInt32.toNat_lt _)]
  have hdata : (r.encode crc).drop headerSize = r.data := by
    simp [Record.encode, headerSize, leBytes]
  have htype : ((r.encode crc).drop 6).headD 0 = r.recordType.toU8 := by
    simp [Record.encode, leBytes]
  have hlong : ¬(r.encode crc).length < headerSize := by
    simp [Record.encodedSize]
  rw [Record.decode, if_neg hlong, htype, hlen, hsum, hdata]
  simp [bind, Except.bind]

end AiDb.Wal
