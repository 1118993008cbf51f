import AiDb.Library.Groups
import AiDb.Wal.Reader

/-!
# The grammar of the log

A log is read as a sequence of groups: a `Full` record, or a `First` one, any number of
`Middle` ones and a `Last`. The reader stops at the first record that does not continue
such a sequence, and drops the group it was in.
-/

namespace AiDb.Wal

open Library

variable {crc : Checksum}

-- ---------------------------------------------------------------------------
-- The groups are a prefix code
-- ---------------------------------------------------------------------------

theorem Continues.unique (h : Continues rs data) (h' : Continues rs' data') (heq : rs ++ xs = rs' ++ xs') :
    rs = rs' ∧ data = data' := by
  induction h generalizing rs' data' with
  | last d _ =>
    cases h' with
    | last d' _ => simp_all
    | middle => simp at heq
  | middle d rs data _ _ ih =>
    cases h' with
    | last => simp at heq
    | middle d' rs' data' _ hrest =>
      simp only [List.cons_append, List.cons.injEq, Record.mk.injEq, true_and] at heq
      obtain ⟨rfl, heq⟩ := heq
      obtain ⟨rfl, rfl⟩ := ih hrest heq
      exact ⟨rfl, rfl⟩

theorem prefixCode_group : PrefixCode Group where
  nonempty g data h := by cases h <;> simp
  unique g g' data data' xs xs' h h' heq := by
    cases h with
    | full d _ =>
      cases h' with
      | full d' _ => simp_all
      | first => simp at heq
    | first d rs data _ hrest =>
      cases h' with
      | full => simp at heq
      | first d' rs' data' _ hrest' =>
        simp only [List.cons_append, List.cons.injEq, Record.mk.injEq, true_and] at heq
        obtain ⟨rfl, heq⟩ := heq
        obtain ⟨rfl, rfl⟩ := hrest.unique hrest' heq
        exact ⟨rfl, rfl⟩

-- ---------------------------------------------------------------------------
-- Where reading stops
-- ---------------------------------------------------------------------------

/-- What is read here ends the recovery without failing it. -/
def EndsRecovery (result : Except Error (Option (Bytes × Bytes))) : Prop :=
  result = .ok none ∨ ∃ msg, result = .error (.corruption msg)

theorem readNextFrom_stops (hfit : ∀ r ∈ rs, r.data.length ≤ 65535) (hno : ∀ g data, Continues g data → ¬g <+: rs)
    (assembled : Bytes) : EndsRecovery (readNextFrom crc assembled true (encodeRecords crc rs)) := by
  induction rs generalizing assembled with
  | nil =>
    rw [encodeRecords_nil, readNextFrom_eq, readRecord, if_pos (by simp [headerSize])]
    exact .inr ⟨_, rfl⟩
  | cons r rs ih =>
    have hr : r.data.length < 65536 := Nat.lt_succ_of_le (hfit r (by simp))
    rw [encodeRecords_cons, readNextFrom_eq, readRecord_encode r hr]
    obtain ⟨type, data⟩ := r
    cases type with
    | full => exact .inr ⟨_, rfl⟩
    | first => exact .inr ⟨_, rfl⟩
    | middle =>
      refine ih (fun x hx => hfit x (List.mem_cons_of_mem _ hx)) (fun g data' hg hp => ?_) _
      exact hno _ _ (.middle data g data' hr hg) (List.cons_prefix_cons.mpr ⟨rfl, hp⟩)
    | last => exact absurd (List.cons_prefix_cons.mpr ⟨rfl, List.nil_prefix⟩) (hno _ _ (.last data hr))

theorem readNext_stops (hfit : ∀ r ∈ rs, r.data.length ≤ 65535) (hno : ∀ g data, Group g data → ¬g <+: rs) :
    EndsRecovery (readNext crc (encodeRecords crc rs)) := by
  unfold readNext
  cases rs with
  | nil => exact .inl rfl
  | cons r rs =>
    have hr : r.data.length < 65536 := Nat.lt_succ_of_le (hfit r (by simp))
    rw [encodeRecords_cons, readNextFrom_eq, readRecord_encode r hr]
    obtain ⟨type, data⟩ := r
    cases type with
    | full => exact absurd (List.cons_prefix_cons.mpr ⟨rfl, List.nil_prefix⟩) (hno _ _ (.full data hr))
    | first =>
      refine readNextFrom_stops (fun x hx => hfit x (List.mem_cons_of_mem _ hx)) (fun g data' hg hp => ?_) _
      exact hno _ _ (.first data g data' hr hg) (List.cons_prefix_cons.mpr ⟨rfl, hp⟩)
    | middle => exact .inr ⟨_, rfl⟩
    | last => exact .inr ⟨_, rfl⟩

theorem recoverAll_of_ends (h : EndsRecovery (readNext crc t)) : recoverAll crc t = .ok [] := by
  rw [recoverAll_eq]
  rcases h with h | ⟨msg, h⟩ <;> rw [h]

theorem encodeRecords_append (rs rs' : List Record) :
    encodeRecords crc (rs ++ rs') = encodeRecords crc rs ++ encodeRecords crc rs' := List.flatMap_append

/-- The reader takes the longest sequence of groups, and ends there. -/
theorem recoverAll_encodeRecords (hfit : ∀ r ∈ rs, r.data.length ≤ 65535) :
    ∃ lead es, LongestGroups Group rs lead es ∧ recoverAll crc (encodeRecords crc rs) = .ok es := by
  obtain ⟨lead, es, hlongest, hreads⟩ := longestGroups_of_reads prefixCode_group rs
    (R := fun rs es => (∀ r ∈ rs, r.data.length ≤ 65535) → recoverAll crc (encodeRecords crc rs) = .ok es)
    (fun rs hno hfit => recoverAll_of_ends (readNext_stops hfit hno))
    (fun g data rs es hg ih hfit => by
      rw [encodeRecords_append, recoverAll_eq, readNext_group hg]
      simp [ih fun r hr => hfit r (List.mem_append_right _ hr), Except.map])
  exact ⟨lead, es, hlongest, hreads hfit⟩

-- ---------------------------------------------------------------------------
-- The fragments of an entry
-- ---------------------------------------------------------------------------

theorem appendLoop_size (data : Bytes) (h : r ∈ appendLoop data fuel offset) :
    1 ≤ r.data.length ∧ r.data.length ≤ maxRecordSize := by
  induction fuel generalizing offset with
  | zero => cases h
  | succ fuel ih =>
    unfold appendLoop at h
    split_ifs at h with hlt
    · rcases List.mem_cons.mp h with rfl | h
      · simp only [List.length_take, List.length_drop, maxRecordSize]
        omega
      · exact ih h
    · cases h

/-- The reader and the writer agree on the grammar: a log is read as the longest sequence
of groups it begins with, and an entry is written as one group of fragments that are
neither empty nor too long. -/
theorem log_grammar (crc : Checksum) :
    (∀ rs : List Record, (∀ r ∈ rs, r.data.length ≤ 65535) →
      (∃ lead es, LongestGroups Group rs lead es) ∧
        ∀ lead es, LongestGroups Group rs lead es → recoverAll crc (encodeRecords crc rs) = .ok es) ∧
      ∀ e : Bytes, e ≠ [] → append crc e = encodeRecords crc (appendRecords e) ∧ Group (appendRecords e) e ∧
        ∀ r ∈ appendRecords e, 1 ≤ r.data.length ∧ r.data.length ≤ maxRecordSize := by
  constructor
  · intro rs hfit
    obtain ⟨lead, es, hlongest, hreads⟩ : ∃ lead es, LongestGroups Group rs lead es ∧
        recoverAll crc (encodeRecords crc rs) = .ok es := recoverAll_encodeRecords hfit
    refine ⟨⟨lead, es, hlongest⟩, fun lead' es' h => ?_⟩
    rw [hreads, (h.unique prefixCode_group hlongest).2]
  · exact fun e hne => ⟨rfl, appendRecords_group e hne, fun r hr => appendLoop_size e hr⟩

end AiDb.Wal
