import AiDb.Wal.Reader

/-!
# Recovery from a damaged tail

`recover_all` reads the header of a record and then as many bytes as the
header declares. A header cut short ends the log, and so does a record that
does not decode or is out of place; but a payload cut short is handed to the
caller as an I/O error. `Framed` says that this does not happen in the bytes
found after the last complete entry, and `toleratesTail_iff` that it is the
exact condition under which recovery keeps what was appended.
-/

namespace AiDb.Wal

variable {crc : Checksum}

-- ---------------------------------------------------------------------------
-- Framing
-- ---------------------------------------------------------------------------

def declaredLength (t : Bytes) : Nat := fromLe ((t.drop 4).take 2)

/-- The record at the front of `t` has all the bytes its header declares. -/
def Whole (t : Bytes) : Prop := headerSize + declaredLength t ≤ t.length

/-- Whether a record of this type may come next, and whether a continuation is
expected after it. -/
def place : (expecting : Bool) → RecordType → Option Bool
  | false, .full => some false
  | false, .first => some true
  | true, .middle => some true
  | true, .last => some false
  | _, _ => none

def frontRecord (crc : Checksum) (expecting : Bool) (t : Bytes) : Option (Bool × Record) :=
  match Record.decode crc (t.take (headerSize + declaredLength t)) with
  | .ok r => (place expecting r.recordType).map (·, r)
  | .error _ => none

/-- Walking through `t` record by record, up to the first one that does not
decode or is out of place, no complete header declares more bytes than are
left. -/
inductive Framed (crc : Checksum) : (expecting : Bool) → Bytes → Prop
  | short : t.length < headerSize → Framed crc expecting t
  | stop : Whole t → frontRecord crc expecting t = none → Framed crc expecting t
  | next : Whole t → frontRecord crc expecting t = some (expecting', r) →
      Framed crc expecting' (t.drop (headerSize + declaredLength t)) → Framed crc expecting t

theorem Framed.whole (h : Framed crc expecting t) (hlong : headerSize ≤ t.length) : Whole t := by
  cases h with
  | short hs => omega
  | stop hw => exact hw
  | next hw => exact hw

theorem Framed.tail (h : Framed crc expecting t) (hlong : headerSize ≤ t.length)
    (hr : frontRecord crc expecting t = some (expecting', r)) :
    Framed crc expecting' (t.drop (headerSize + declaredLength t)) := by
  cases h with
  | short hs => omega
  | stop _ hn => rw [hr] at hn; cases hn
  | next _ hr' hf =>
    rw [hr] at hr'
    cases hr'
    exact hf

-- ---------------------------------------------------------------------------
-- What the reader makes of the front of the file
-- ---------------------------------------------------------------------------

theorem readRecord_short (h : t.length < headerSize) : readRecord crc t = .ok none := by
  rw [readRecord, if_pos h]

theorem declaredLength_take (t : Bytes) :
    fromLe (((t.take headerSize).drop 4).take 2) = declaredLength t := by
  rw [List.drop_take, List.take_take]
  rfl

theorem readRecord_cut (hlong : headerSize ≤ t.length) (hcut : ¬Whole t) :
    readRecord crc t = .error (.io .unexpectedEof) := by
  have hbody : (t.drop headerSize).length < declaredLength t := by
    simp only [Whole] at hcut
    simp only [List.length_drop]
    omega
  rw [readRecord, if_neg (by omega)]
  simp only [declaredLength_take]
  rw [if_pos ⟨by omega, hbody⟩]

theorem readRecord_whole (hw : Whole t) :
    readRecord crc t = (Record.decode crc (t.take (headerSize + declaredLength t))).map
      fun r => some (r, t.drop (headerSize + declaredLength t)) := by
  have hlong : headerSize ≤ t.length := by simp only [Whole] at hw; omega
  have hbody : ¬(0 < declaredLength t ∧ (t.drop headerSize).length < declaredLength t) := by
    simp only [Whole] at hw
    simp only [List.length_drop]
    omega
  rw [readRecord, if_neg (by omega)]
  simp only [declaredLength_take]
  rw [if_neg hbody, List.drop_drop, ← List.take_add]
  cases Record.decode crc (t.take (headerSize + declaredLength t)) <;> rfl

theorem decode_error_corruption (h : Record.decode crc t = .error e) : ∃ msg, e = .corruption msg := by
  unfold Record.decode at h
  split at h
  · cases h
    exact ⟨_, rfl⟩
  · cases ht : RecordType.fromU8 ((t.drop 6).headD 0) with
    | error e' =>
      simp only [ht, bind, Except.bind] at h
      cases h
      unfold RecordType.fromU8 at ht
      split_ifs at ht
      cases ht
      exact ⟨_, rfl⟩
    | ok r =>
      simp only [ht, bind, Except.bind] at h
      split_ifs at h <;> cases h <;> exact ⟨_, rfl⟩

/-- How reading on from the middle of an entry ends: in a state from which
the log is recovered, or in an error that is not corruption. -/
def Recovers (crc : Checksum) (assembled : Bytes) (expecting : Bool) (t : Bytes) : Prop :=
  match readNextFrom crc assembled expecting t with
  | .ok (some (_, rest)) => ∃ r, recoverAll crc rest = .ok r
  | .ok none => True
  | .error (.corruption _) => True
  | .error _ => False

theorem recovers_iff (t : Bytes) : (∃ r, recoverAll crc t = .ok r) ↔ Recovers crc [] false t := by
  rw [recoverAll_eq, Recovers, readNext]
  cases readNextFrom crc [] false t with
  | error e => cases e <;> simp
  | ok o =>
    cases o with
    | none => simp
    | some p =>
      obtain ⟨d, rest⟩ := p
      simp only
      cases recoverAll crc rest <;> simp [Except.map]

theorem recovers_short (h : t.length < headerSize) : Recovers crc assembled expecting t := by
  rw [Recovers, readNextFrom_eq, readRecord_short h]
  cases expecting <;> simp

theorem recovers_cut (hlong : headerSize ≤ t.length) (hcut : ¬Whole t) :
    ¬Recovers crc assembled expecting t := by
  rw [Recovers, readNextFrom_eq, readRecord_cut hlong hcut]
  simp

theorem recovers_stop (hw : Whole t) (hn : frontRecord crc expecting t = none) :
    Recovers crc assembled expecting t := by
  rw [Recovers, readNextFrom_eq, readRecord_whole hw]
  unfold frontRecord at hn
  cases hd : Record.decode crc (t.take (headerSize + declaredLength t)) with
  | error e =>
    obtain ⟨msg, rfl⟩ := decode_error_corruption hd
    simp [Except.map]
  | ok r =>
    simp only [hd] at hn
    cases ht : r.recordType <;> cases expecting <;> simp [Except.map, ht, place] at hn ⊢

theorem recovers_next (assembled : Bytes) (hw : Whole t) (hr : frontRecord crc expecting t = some (expecting', r)) :
    ∃ assembled', Recovers crc assembled expecting t ↔
      Recovers crc assembled' expecting' (t.drop (headerSize + declaredLength t)) := by
  rw [Recovers, readNextFrom_eq, readRecord_whole hw]
  unfold frontRecord at hr
  cases hd : Record.decode crc (t.take (headerSize + declaredLength t)) with
  | error e => simp [hd] at hr
  | ok r' =>
    simp only [hd] at hr
    -- a record that ends an entry hands over to `recover_all`, any other one to `read_next`
    cases ht : r'.recordType <;> cases expecting <;> simp [ht, place] at hr <;>
      obtain ⟨rfl, rfl⟩ := hr <;> simp only [Except.map, ht, ↓reduceIte, Bool.false_eq_true]
    · exact ⟨[], recovers_iff _⟩
    · exact ⟨_, Iff.rfl⟩
    · exact ⟨_, Iff.rfl⟩
    · exact ⟨[], recovers_iff _⟩

theorem recovers_iff_framed (assembled : Bytes) (expecting : Bool) (t : Bytes) :
    Recovers crc assembled expecting t ↔ Framed crc expecting t := by
  induction hn : t.length using Nat.strongRecOn generalizing t assembled expecting with
  | ind n ih =>
    by_cases hlong : headerSize ≤ t.length
    · by_cases hw : Whole t
      · cases hr : frontRecord crc expecting t with
        | none => exact ⟨fun _ => .stop hw hr, fun _ => recovers_stop hw hr⟩
        | some p =>
          obtain ⟨expecting', r⟩ := p
          obtain ⟨assembled', hiff⟩ := recovers_next assembled hw hr
          have hpos : 0 < headerSize := by decide
          have hdrop : (t.drop (headerSize + declaredLength t)).length < n := by
            simp only [List.length_drop]; omega
          rw [hiff, ih _ hdrop _ _ _ rfl]
          exact ⟨.next hw hr, fun h => h.tail hlong hr⟩
      · exact ⟨fun h => absurd h (recovers_cut hlong hw), fun h => absurd (h.whole hlong) hw⟩
    · exact ⟨fun _ => .short (by omega), fun _ => recovers_short (by omega)⟩

/-- Recovery of a file succeeds exactly when the file is framed. -/
theorem recoverAll_ok_iff (t : Bytes) : (∃ r, recoverAll crc t = .ok r) ↔ Framed crc false t :=
  (recovers_iff t).trans (recovers_iff_framed [] false t)

-- ---------------------------------------------------------------------------
-- An append that was cut off
-- ---------------------------------------------------------------------------

theorem readRecord_strictPrefix (r : Record) (h : r.data.length < 65536)
    (hp : t <+: r.encode crc) (hne : t ≠ r.encode crc) : ∀ p, readRecord crc t ≠ .ok (some p) := by
  intro p
  obtain ⟨s, hs⟩ := hp
  have hsize : (r.encode crc).length = headerSize + r.data.length := r.length_encode crc
  have hlt : t.length < headerSize + r.data.length := by
    have hspos : 0 < s.length := List.length_pos_iff.mpr (by rintro rfl; simp at hs; exact hne hs)
    have := congrArg List.length hs
    simp only [List.length_append] at this
    omega
  by_cases hlong : headerSize ≤ t.length
  · have hfield : declaredLength t = r.data.length := by
      have hd := r.encode_length_field crc h []
      rw [List.append_nil, ← hs] at hd
      rw [← hd, declaredLength, List.drop_append_of_le_length (by simp only [headerSize] at hlong; omega),
        List.take_append_of_le_length (by simp only [headerSize] at hlong; simp; omega)]
    rw [readRecord_cut hlong (by simp only [Whole]; omega)]
    simp
  · rw [readRecord_short (by omega)]
    simp

theorem prefix_append_cases {t a b : Bytes} (h : t <+: a ++ b) (hne : t ≠ a ++ b) :
    (t <+: a ∧ t ≠ a) ∨ ∃ t', t = a ++ t' ∧ t' <+: b ∧ t' ≠ b := by
  rcases List.prefix_or_prefix_of_prefix h (List.prefix_append a b) with hp | ⟨t', rfl⟩
  · by_cases he : t = a
    · subst he
      exact .inr ⟨[], by simp, List.nil_prefix, by rintro rfl; simp at hne⟩
    · exact .inl ⟨hp, he⟩
  · exact .inr ⟨t', rfl, (List.prefix_append_right_inj a).mp h, fun he => hne (by rw [he])⟩

theorem readNextFrom_no_record (h : ∀ p, readRecord crc t ≠ .ok (some p)) :
    ∀ p, readNextFrom crc assembled expecting t ≠ .ok (some p) := by
  intro p
  rw [readNextFrom_eq]
  cases hr : readRecord crc t with
  | error e => simp
  | ok o =>
    cases o with
    | none => cases expecting <;> simp
    | some q => exact absurd hr (h q)

theorem readNextFrom_strictPrefix (hc : Continues rs data) (hp : t <+: encodeRecords crc rs)
    (hne : t ≠ encodeRecords crc rs) : ∀ p, readNextFrom crc assembled true t ≠ .ok (some p) := by
  induction hc generalizing t assembled with
  | last d hd =>
    rw [encodeRecords_cons, encodeRecords_nil, List.append_nil] at hp hne
    exact readNextFrom_no_record (readRecord_strictPrefix _ hd hp hne)
  | middle d rs data hd _ ih =>
    rw [encodeRecords_cons] at hp hne
    rcases prefix_append_cases hp hne with ⟨hp, hne⟩ | ⟨t', rfl, hp, hne⟩
    · exact readNextFrom_no_record (readRecord_strictPrefix _ hd hp hne)
    · rw [readNextFrom_eq, readRecord_encode _ hd]
      exact ih hp hne

theorem readNext_strictPrefix (hg : Group rs data) (hp : t <+: encodeRecords crc rs)
    (hne : t ≠ encodeRecords crc rs) : ∀ p, readNext crc t ≠ .ok (some p) := by
  cases hg with
  | full d hd =>
    rw [encodeRecords_cons, encodeRecords_nil, List.append_nil] at hp hne
    exact readNextFrom_no_record (readRecord_strictPrefix _ hd hp hne)
  | first d rs data hd hc =>
    rw [encodeRecords_cons] at hp hne
    rcases prefix_append_cases hp hne with ⟨hp, hne⟩ | ⟨t', rfl, hp, hne⟩
    · exact readNextFrom_no_record (readRecord_strictPrefix _ hd hp hne)
    · rw [readNext, readNextFrom_eq, readRecord_encode _ hd]
      exact readNextFrom_strictPrefix hc hp hne

/-- If recovery succeeds on an append that was cut off, it yields nothing of it. -/
theorem recoverAll_strictPrefix (hp : t <+: append crc e) (hne : t ≠ append crc e)
    (hr : recoverAll crc t = .ok r) : r = [] := by
  have hnonempty : e ≠ [] := by
    rintro rfl
    exact hne (List.prefix_nil.mp hp)
  have hno : ∀ p, readNext crc t ≠ .ok (some p) :=
    readNext_strictPrefix (appendRecords_group e hnonempty) hp hne
  rw [recoverAll_eq] at hr
  cases hn : readNext crc t with
  | error err =>
    rw [hn] at hr
    cases err <;> cases hr
    rfl
  | ok o =>
    cases o with
    | none =>
      rw [hn] at hr
      cases hr
      rfl
    | some p => exact absurd hn (hno p)

-- ---------------------------------------------------------------------------
-- The tail of the log
-- ---------------------------------------------------------------------------

/-- Recovery keeps the entries `es` when the bytes `t` follow them, and reads
nothing more if `t` is an append that was cut off. -/
def ToleratesTail (crc : Checksum) (es : List Bytes) (t : Bytes) : Prop :=
  ∃ r, recoverAll crc (appendAll crc es ++ t) = .ok r ∧ es <+: r ∧
    ∀ e, t <+: append crc e → t ≠ append crc e → r = es

theorem toleratesTail_iff (crc : Checksum) (es : List Bytes) (t : Bytes) (hes : ∀ e ∈ es, e ≠ []) :
    ToleratesTail crc es t ↔ Framed crc false t := by
  rw [← recoverAll_ok_iff, ToleratesTail, recoverAll_appendAll es hes]
  constructor
  · rintro ⟨r, hr, -, -⟩
    cases ht : recoverAll crc t with
    | error e => simp [ht, Except.map] at hr
    | ok r' => exact ⟨r', rfl⟩
  · rintro ⟨r, hr⟩
    refine ⟨es ++ r, by simp [hr, Except.map], List.prefix_append es r, ?_⟩
    intro e hp hne
    rw [recoverAll_strictPrefix hp hne hr, List.append_nil]

theorem toleratesTail_cut_header :
    (∀ e ∈ [[97]], e ≠ ([] : Bytes)) ∧ ToleratesTail calculateChecksum [[97]] [0] :=
  ⟨by decide, (toleratesTail_iff calculateChecksum [[97]] [0] (by decide)).mpr (.short (by decide))⟩

/-- The entry `a` was being appended and only its header reached the file. -/
theorem not_toleratesTail_cut_payload :
    ¬ToleratesTail calculateChecksum [] ((append calculateChecksum [97]).take headerSize) := by
  rintro ⟨r, hr, -, -⟩
  have : recoverAll calculateChecksum (appendAll calculateChecksum [] ++
      (append calculateChecksum [97]).take headerSize) = .error (.io .unexpectedEof) := by
    decide +kernel
  rw [this] at hr
  cases hr

end AiDb.Wal
