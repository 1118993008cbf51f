import AiDb.Wal.Writer

/-!
# Reading the WAL back

The reader is modelled by the bytes it has not read yet. `readRecord` reads
one record, `readNext` reassembles one entry, `recoverAll` collects entries up
to the end of the file or the first corruption. Both loops of the source end
because every record takes at least a header off the file, so the number of
bytes left is enough fuel; `readNextFrom_eq` and `recoverAll_eq` give the loops
back without it.
-/

namespace AiDb.Wal

variable (crc : Checksum)

/-- `WALReader::read_record`. A header cut short is the end of the file; a
payload cut short is the error of `read_exact`. -/
def readRecord (rest : Bytes) : Except Error (Option (Record × Bytes)) :=
  if rest.length < headerSize then .ok none
  else
    let header := rest.take headerSize
    let length := fromLe ((header.drop 4).take 2)
    let body := rest.drop headerSize
    if 0 < length ∧ body.length < length then .error (.io .unexpectedEof)
    else do
      let record ← Record.decode crc (header ++ body.take length)
      return some (record, body.drop length)

def readNextLoop : (fuel : Nat) → (assembled : Bytes) → (expecting : Bool) → (rest : Bytes) →
    Except Error (Option (Bytes × Bytes))
  | 0, _, _, _ => .ok none
  | fuel + 1, assembled, expecting, rest => do
    match ← readRecord crc rest with
    | none =>
      if expecting then .error (.corruption "EOF while expecting continuation record")
      else .ok none
    | some (record, rest) =>
      match record.recordType with
      | .full =>
        if expecting then
          .error (.corruption "Unexpected Full record while expecting continuation")
        else .ok (some (record.data, rest))
      | .first =>
        if expecting then
          .error (.corruption "Unexpected First record while expecting continuation")
        else readNextLoop fuel record.data true rest
      | .middle =>
        if expecting then readNextLoop fuel (assembled ++ record.data) expecting rest
        else .error (.corruption "Unexpected Middle record without First")
      | .last =>
        if expecting then .ok (some (assembled ++ record.data, rest))
        else .error (.corruption "Unexpected Last record without First")

def readNextFrom (assembled : Bytes) (expecting : Bool) (rest : Bytes) :
    Except Error (Option (Bytes × Bytes)) :=
  readNextLoop crc (rest.length + 1) assembled expecting rest

def readNext (rest : Bytes) : Except Error (Option (Bytes × Bytes)) := readNextFrom crc [] false rest

/-- The loop of `WALReader::recover_all`. Corruption ends the log; any other
error is the caller's. -/
def recoverAllLoop : (fuel : Nat) → (rest : Bytes) → Except Error (List Bytes)
  | 0, _ => .ok []
  | fuel + 1, rest =>
    match readNext crc rest with
    | .ok (some (data, rest)) => (recoverAllLoop fuel rest).map (data :: ·)
    | .ok none => .ok []
    | .error (.corruption _) => .ok []
    | .error e => .error e

/-- `WALReader::recover_all` on a file with the given bytes. -/
def recoverAll (file : Bytes) : Except Error (List Bytes) := recoverAllLoop crc (file.length + 1) file

-- ---------------------------------------------------------------------------
-- Fuel
-- ---------------------------------------------------------------------------

variable {crc}

theorem readRecord_length (h : readRecord crc rest = .ok (some (r, rest'))) :
    rest'.length + headerSize ≤ rest.length := by
  unfold readRecord at h
  split at h
  · cases h
  · rename_i hlong
    simp only at h
    split at h
    · cases h
    · cases hd : Record.decode crc (rest.take headerSize ++
          (rest.drop headerSize).take (fromLe (((rest.take headerSize).drop 4).take 2))) with
      | error e => simp [hd, bind, Except.bind] at h
      | ok r' =>
        simp only [hd, bind, Except.bind, pure, Except.pure, Except.ok.injEq, Option.some.injEq,
          Prod.mk.injEq] at h
        rw [← h.2]
        simp only [List.length_drop]
        omega

theorem readNextLoop_fuel : ∀ f g assembled expecting rest, rest.length < f → rest.length < g →
    readNextLoop crc f assembled expecting rest = readNextLoop crc g assembled expecting rest := by
  intro f
  induction f with
  | zero => intro g _ _ rest hf; omega
  | succ f ih =>
    intro g assembled expecting rest hf hg
    obtain ⟨g, rfl⟩ : ∃ g', g = g' + 1 := ⟨g - 1, by omega⟩
    simp only [readNextLoop]
    cases hr : readRecord crc rest with
    | error e => rfl
    | ok o =>
      cases o with
      | none => rfl
      | some p =>
        obtain ⟨r, rest'⟩ := p
        have hlen := readRecord_length hr
        simp only [headerSize] at hlen
        have hrec := fun a b => ih g a b rest' (by omega) (by omega)
        simp only [bind, Except.bind, hrec]

theorem readNextFrom_eq (assembled : Bytes) (expecting : Bool) (rest : Bytes) :
    readNextFrom crc assembled expecting rest =
      match readRecord crc rest with
      | .error e => .error e
      | .ok none =>
        if expecting then .error (.corruption "EOF while expecting continuation record")
        else .ok none
      | .ok (some (record, rest)) =>
        match record.recordType with
        | .full =>
          if expecting then
            .error (.corruption "Unexpected Full record while expecting continuation")
          else .ok (some (record.data, rest))
        | .first =>
          if expecting then
            .error (.corruption "Unexpected First record while expecting continuation")
          else readNextFrom crc record.data true rest
        | .middle =>
          if expecting then readNextFrom crc (assembled ++ record.data) expecting rest
          else .error (.corruption "Unexpected Middle record without First")
        | .last =>
          if expecting then .ok (some (assembled ++ record.data, rest))
          else .error (.corruption "Unexpected Last record without First") := by
  rw [readNextFrom, readNextLoop]
  cases hr : readRecord crc rest with
  | error e => rfl
  | ok o =>
    cases o with
    | none => rfl
    | some p =>
      obtain ⟨r, rest'⟩ := p
      have hlen := readRecord_length hr
      simp only [headerSize] at hlen
      have hrec : ∀ a b, readNextLoop crc rest.length a b rest' =
          readNextLoop crc (rest'.length + 1) a b rest' := fun a b =>
        readNextLoop_fuel rest.length (rest'.length + 1) a b rest' (by omega) (by omega)
      simp only [bind, Except.bind, readNextFrom, hrec]

theorem readNextFrom_length (h : readNextFrom crc assembled expecting rest = .ok (some (d, rest'))) :
    rest'.length + headerSize ≤ rest.length := by
  induction hn : rest.length using Nat.strongRecOn generalizing rest assembled expecting with
  | ind n ih =>
    rw [readNextFrom_eq] at h
    cases hr : readRecord crc rest with
    | error e => simp [hr] at h
    | ok o =>
      cases o with
      | none =>
        simp only [hr] at h
        split at h <;> simp at h
      | some p =>
        obtain ⟨r, mid⟩ := p
        have hlen := readRecord_length hr
        have hpos : 0 < headerSize := by decide
        simp only [hr] at h
        cases ht : r.recordType <;> simp only [ht] at h <;> split at h
        case full.isFalse | last.isTrue =>
          simp only [Except.ok.injEq, Option.some.injEq, Prod.mk.injEq] at h
          rw [← h.2]; omega
        case first.isFalse | middle.isTrue =>
          have := ih mid.length (by omega) h rfl; omega
        all_goals cases h

theorem recoverAllLoop_fuel : ∀ f g rest, rest.length < f → rest.length < g →
    recoverAllLoop crc f rest = recoverAllLoop crc g rest := by
  intro f
  induction f with
  | zero => intro g rest hf; omega
  | succ f ih =>
    intro g rest hf hg
    obtain ⟨g, rfl⟩ : ∃ g', g = g' + 1 := ⟨g - 1, by omega⟩
    simp only [recoverAllLoop]
    cases hr : readNext crc rest with
    | error e => cases e <;> rfl
    | ok o =>
      cases o with
      | none => rfl
      | some p =>
        obtain ⟨d, rest'⟩ := p
        have hlen := readNextFrom_length hr
        simp only [headerSize] at hlen
        simp only [ih g rest' (by omega) (by omega)]

theorem recoverAll_eq (rest : Bytes) :
    recoverAll crc rest =
      match readNext crc rest with
      | .ok (some (data, rest)) => (recoverAll crc rest).map (data :: ·)
      | .ok none => .ok []
      | .error (.corruption _) => .ok []
      | .error e => .error e := by
  rw [recoverAll, recoverAllLoop]
  cases hr : readNext crc rest with
  | error e => cases e <;> rfl
  | ok o =>
    cases o with
    | none => rfl
    | some p =>
      obtain ⟨d, rest'⟩ := p
      have hlen := readNextFrom_length hr
      simp only [headerSize] at hlen
      simp only [recoverAll, recoverAllLoop_fuel rest.length (rest'.length + 1) rest' (by omega) (by omega)]

-- ---------------------------------------------------------------------------
-- What was appended is read back
-- ---------------------------------------------------------------------------

theorem readRecord_encode (r : Record) (h : r.data.length < 65536) (rest : Bytes) :
    readRecord crc (r.encode crc ++ rest) = .ok (some (r, rest)) := by
  have hsize : (r.encode crc).length = headerSize + r.data.length := r.length_encode crc
  have hhead : ¬(r.encode crc ++ rest).length < headerSize := by
    simp only [List.length_append, hsize]; omega
  have hfield : fromLe ((((r.encode crc ++ rest).take headerSize).drop 4).take 2) = r.data.length := by
    rw [List.drop_take, List.take_take]
    exact r.encode_length_field crc h rest
  have hbody : (r.encode crc ++ rest).drop headerSize = r.data ++ rest := by
    simp [Record.encode, headerSize, leBytes]
  have hwhole : (r.encode crc ++ rest).take headerSize ++ r.data = r.encode crc := by
    simp [Record.encode, headerSize, leBytes]
  rw [readRecord, if_neg hhead]
  simp only [hfield, hbody]
  rw [if_neg (by simp), List.take_left, List.drop_left, hwhole, Record.decode_encode crc r h]
  rfl

theorem readNextFrom_continues (hc : Continues rs data) (assembled rest : Bytes) :
    readNextFrom crc assembled true (encodeRecords crc rs ++ rest) =
      .ok (some (assembled ++ data, rest)) := by
  induction hc generalizing assembled with
  | last d hd =>
    rw [encodeRecords_cons, encodeRecords_nil, List.append_nil, readNextFrom_eq,
      readRecord_encode _ hd]
    rfl
  | middle d rs data hd _ ih =>
    rw [encodeRecords_cons, List.append_assoc, readNextFrom_eq, readRecord_encode _ hd]
    simp only [↓reduceIte]
    rw [ih, List.append_assoc]

theorem readNext_group (hg : Group rs data) (rest : Bytes) :
    readNext crc (encodeRecords crc rs ++ rest) = .ok (some (data, rest)) := by
  cases hg with
  | full d hd =>
    rw [encodeRecords_cons, encodeRecords_nil, List.append_nil, readNext, readNextFrom_eq,
      readRecord_encode _ hd]
    rfl
  | first d rs data hd hc =>
    rw [encodeRecords_cons, List.append_assoc, readNext, readNextFrom_eq, readRecord_encode _ hd]
    exact readNextFrom_continues hc d rest

theorem readNext_append (hne : e ≠ []) (rest : Bytes) :
    readNext crc (append crc e ++ rest) = .ok (some (e, rest)) :=
  readNext_group (appendRecords_group e hne) rest

theorem recoverAll_appendAll (es : List Bytes) (hes : ∀ e ∈ es, e ≠ []) (t : Bytes) :
    recoverAll crc (appendAll crc es ++ t) = (recoverAll crc t).map (es ++ ·) := by
  induction es with
  | nil => cases h : recoverAll crc t <;> simp [h, Except.map]
  | cons e es ih =>
    rw [appendAll_cons, List.append_assoc, recoverAll_eq, readNext_append (hes e (by simp))]
    simp only [ih fun x hx => hes x (List.mem_cons_of_mem _ hx)]
    cases recoverAll crc t <;> rfl

theorem recoverAll_nil : recoverAll crc [] = .ok [] := rfl

theorem recoverAll_appendAll_eq (es : List Bytes) (hes : ∀ e ∈ es, e ≠ []) :
    recoverAll crc (appendAll crc es) = .ok es := by
  rw [← List.append_nil (appendAll crc es), recoverAll_appendAll es hes [], recoverAll_nil]
  simp [Except.map]

end AiDb.Wal
