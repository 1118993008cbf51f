import AiDb.Manifest

/-!
# File numbers over restarts

`VersionSet::allocate_file_number` counts in memory; only an edit that sets the next file
number reaches the manifest. The counter and the number recorded are all that the
numbers depend on, and what each step does to the two is simple.
-/

namespace AiDb.Compaction

open Library Library.Outcome

-- ---------------------------------------------------------------------------
-- Runs
-- ---------------------------------------------------------------------------

inductive NumberCall
  | allocate
  | logEdit (edit : VersionEdit)
  | restart

/-- A number that was returned, or that a file was added under. -/
inductive NumberEvent
  | given (n : Nat)
  | added (n : Nat)
  deriving DecidableEq

def NumberEvent.number : NumberEvent → Nat
  | .given n => n
  | .added n => n

/-- No number is given that was given or added before. -/
def NeverRepeated (events : List NumberEvent) : Prop :=
  events.Pairwise fun earlier later => ∀ n, later = .given n → earlier ≠ .given n ∧ earlier ≠ .added n

/-- `VersionSet::allocate_file_number`. The counter is a u64. -/
def ManifestSet.allocateFileNumber (m : ManifestSet) : Nat × ManifestSet :=
  (m.versions.nextFileNumber,
    { m with versions := { m.versions with nextFileNumber := (m.versions.nextFileNumber + 1) % 2 ^ 64 } })

def editEvents : VersionEdit → List NumberEvent
  | .addFile _ file => [.added file.fileNumber]
  | _ => []

section Serde

variable (serde : Serde)

def ManifestSet.call (m : ManifestSet) : NumberCall → Outcome Error (ManifestSet × List NumberEvent)
  | .allocate => .ok (m.allocateFileNumber.2, [.given m.allocateFileNumber.1])
  | .logEdit edit => do return (← m.logEdit serde edit, editEvents edit)
  | .restart => do return (← ManifestSet.new serde m.maxLevels (some m.manifest), [])

def ManifestSet.run (m : ManifestSet) : List NumberCall → Outcome Error (ManifestSet × List NumberEvent)
  | [] => .ok (m, [])
  | call :: calls => do
    let (m, events) ← m.call serde call
    let (m, more) ← m.run calls
    return (m, events ++ more)

end Serde

def loggedEdits : List NumberCall → List VersionEdit
  | [] => []
  | .logEdit edit :: calls => edit :: loggedEdits calls
  | _ :: calls => loggedEdits calls

-- ---------------------------------------------------------------------------
-- The counter and its record
-- ---------------------------------------------------------------------------

/-- The counter, and the number that a restart would set it to. -/
structure Numbering where
  next : Nat
  recorded : Nat

namespace Numbering

def step (c : Numbering) : NumberCall → Numbering
  | .allocate => { c with next := (c.next + 1) % 2 ^ 64 }
  | .logEdit (.setNextFileNumber n) => ⟨n, n⟩
  | .logEdit _ => c
  | .restart => ⟨c.recorded, c.recorded⟩

def events (c : Numbering) : NumberCall → List NumberEvent
  | .allocate => [.given c.next]
  | .logEdit edit => editEvents edit
  | .restart => []

def after (c : Numbering) (calls : List NumberCall) : Numbering := calls.foldl step c

def trace (c : Numbering) : List NumberCall → List NumberEvent
  | [] => []
  | call :: calls => c.events call ++ (c.step call).trace calls

def Along (P : Numbering → NumberCall → Prop) (c : Numbering) : List NumberCall → Prop
  | [] => True
  | call :: calls => P c call ∧ (c.step call).Along P calls

/-- What callers do: levels that exist, numbers of 64 bits, and no edit that sets the
counter back. -/
def Permits (maxLevels : Nat) (c : Numbering) : NumberCall → Prop
  | .logEdit edit =>
    edit.Below maxLevels ∧
      match edit with
      | .setNextFileNumber n => c.next ≤ n ∧ n < 2 ^ 64
      | .addFile _ file => file.fileNumber < 2 ^ 64
      | _ => True
  | _ => True

/-- The counter has passed every number a file is added under, has been recorded when the
manifest is read again, and does not come to its end. -/
def Careful (c : Numbering) : NumberCall → Prop
  | .allocate => c.next + 1 < 2 ^ 64
  | .logEdit (.addFile _ file) => file.fileNumber < c.next
  | .logEdit _ => True
  | .restart => c.next = c.recorded

@[simp] theorem along_nil (P : Numbering → NumberCall → Prop) (c : Numbering) : c.Along P [] := trivial

theorem along_append {P : Numbering → NumberCall → Prop} {c : Numbering} {xs ys : List NumberCall} :
    c.Along P (xs ++ ys) ↔ c.Along P xs ∧ (c.after xs).Along P ys := by
  induction xs generalizing c with
  | nil => simp [after]
  | cons x xs ih => simp [Along, ih, after, and_assoc]

theorem trace_append (c : Numbering) (xs ys : List NumberCall) :
    c.trace (xs ++ ys) = c.trace xs ++ (c.after xs).trace ys := by
  induction xs generalizing c with
  | nil => rfl
  | cons x xs ih => simp [trace, ih, after]

theorem after_append (c : Numbering) (xs ys : List NumberCall) : c.after (xs ++ ys) = (c.after xs).after ys :=
  List.foldl_append

-- ---------------------------------------------------------------------------
-- Careful runs
-- ---------------------------------------------------------------------------

variable {c : Numbering} {calls : List NumberCall} {maxLevels : Nat}

theorem Permits.next_le {call : NumberCall} (h : c.Permits maxLevels call) (hcareful : c.Careful call) :
    c.next ≤ (c.step call).next := by
  cases call with
  | allocate =>
    have hmod : (c.next + 1) % 2 ^ 64 = c.next + 1 := Nat.mod_eq_of_lt hcareful
    simp only [step, hmod]
    omega
  | logEdit edit =>
    cases edit with
    | setNextFileNumber n => exact h.2.1
    | addFile level file => exact le_rfl
    | deleteFile level n => exact le_rfl
    | setSequenceNumber n => exact le_rfl
  | restart => exact (show c.next = c.recorded from hcareful).le

theorem Careful.events_lt {call : NumberCall} (hcareful : c.Careful call) :
    ∀ e ∈ c.events call, e.number < (c.step call).next := by
  cases call with
  | allocate =>
    have hmod : (c.next + 1) % 2 ^ 64 = c.next + 1 := Nat.mod_eq_of_lt hcareful
    intro e he
    obtain rfl := List.mem_singleton.mp he
    simp only [step, hmod, NumberEvent.number]
    omega
  | logEdit edit =>
    cases edit with
    | addFile level file =>
      intro e he
      obtain rfl := List.mem_singleton.mp he
      exact hcareful
    | deleteFile level n => simp [events, editEvents]
    | setNextFileNumber n => simp [events, editEvents]
    | setSequenceNumber n => simp [events, editEvents]
  | restart => simp [events]

theorem number_lt (hpermits : c.Along (Permits maxLevels) calls) (hcareful : c.Along Careful calls) :
    ∀ e ∈ c.trace calls, e.number < (c.after calls).next := by
  induction calls using List.reverseRecOn with
  | nil => simp [trace]
  | append_singleton calls call ih =>
    rw [along_append] at hpermits hcareful
    intro e he
    rw [trace_append, List.mem_append, trace, trace, List.append_nil] at he
    rw [after_append]
    rcases he with he | he
    · exact (ih hpermits.1 hcareful.1 e he).trans_le (Permits.next_le hpermits.2.1 hcareful.2.1)
    · exact Careful.events_lt hcareful.2.1 e he

theorem neverRepeated_call (hpermits : c.Along (Permits maxLevels) calls) (hcareful : c.Along Careful calls)
    (h : NeverRepeated (c.trace calls)) (call : NumberCall) : NeverRepeated (c.trace (calls ++ [call])) := by
  rw [trace_append, trace, trace, List.append_nil]
  refine List.pairwise_append.mpr ⟨h, ?_, ?_⟩
  · cases call with
    | allocate => exact List.pairwise_singleton _ _
    | logEdit edit => cases edit <;> simp [events, editEvents]
    | restart => exact List.Pairwise.nil
  · rintro earlier hearlier later hlater n rfl
    have hlt := number_lt hpermits hcareful earlier hearlier
    have hn : n = (c.after calls).next := by
      cases call with
      | allocate => simpa [events] using hlater
      | logEdit edit => cases edit <;> simp [events, editEvents] at hlater
      | restart => simp [events] at hlater
    constructor
    · rintro rfl
      exact absurd hn hlt.ne
    · rintro rfl
      exact absurd hn hlt.ne

theorem neverRepeated_of_careful (hpermits : c.Along (Permits maxLevels) calls) (hcareful : c.Along Careful calls) :
    NeverRepeated (c.trace calls) := by
  induction calls using List.reverseRecOn with
  | nil => exact List.Pairwise.nil
  | append_singleton calls call ih =>
    rw [along_append] at hpermits hcareful
    exact neverRepeated_call hpermits.1 hcareful.1 (ih hpermits.1 hcareful.1) call

-- ---------------------------------------------------------------------------
-- Allocations in a row
-- ---------------------------------------------------------------------------

theorem step_allocate (h : c.next + 1 < 2 ^ 64) : c.step .allocate = ⟨c.next + 1, c.recorded⟩ := by
  simp only [step, Nat.mod_eq_of_lt h]

theorem permits_replicate (n : Nat) : c.Along (Permits maxLevels) (List.replicate n .allocate) := by
  induction n generalizing c with
  | zero => trivial
  | succ n ih => exact ⟨trivial, ih⟩

theorem careful_replicate {n : Nat} (hend : c.next + n < 2 ^ 64) : c.Along Careful (List.replicate n .allocate) := by
  induction n generalizing c with
  | zero => trivial
  | succ n ih =>
    refine ⟨show c.next + 1 < 2 ^ 64 by omega, ih ?_⟩
    rw [step_allocate (by omega)]
    dsimp only
    omega

theorem given_mem_replicate {k n : Nat} (hk : k < n) (hend : c.next + n ≤ 2 ^ 64) :
    .given (c.next + k) ∈ c.trace (List.replicate n .allocate) := by
  induction n generalizing c k with
  | zero => simp at hk
  | succ n ih =>
    rw [List.replicate_succ, trace, List.mem_append]
    cases k with
    | zero => exact .inl (by simp [events])
    | succ k =>
      have hrest := @ih ⟨c.next + 1, c.recorded⟩ k (by omega) (by dsimp only; omega)
      rw [step_allocate (by omega)]
      rw [show c.next + (k + 1) = c.next + 1 + k by omega]
      exact .inr hrest

theorem neverRepeated_replicate (hpermits : c.Along (Permits maxLevels) calls) (hcareful : c.Along Careful calls)
    {n : Nat} (hend : (c.after calls).next + n ≤ 2 ^ 64) :
    NeverRepeated (c.trace (calls ++ List.replicate n .allocate)) := by
  cases n with
  | zero => simpa using neverRepeated_of_careful hpermits hcareful
  | succ n =>
    have hpermits' : c.Along (Permits maxLevels) (calls ++ List.replicate n .allocate) :=
      along_append.mpr ⟨hpermits, permits_replicate n⟩
    have hcareful' : c.Along Careful (calls ++ List.replicate n .allocate) :=
      along_append.mpr ⟨hcareful, careful_replicate (by omega)⟩
    rw [List.replicate_succ', ← List.append_assoc]
    exact neverRepeated_call hpermits' hcareful' (neverRepeated_of_careful hpermits' hcareful') _

-- ---------------------------------------------------------------------------
-- Careless calls
-- ---------------------------------------------------------------------------

/-- The numbers between the record and the counter were all given. -/
def Gapless (c : Numbering) (events : List NumberEvent) : Prop :=
  c.recorded ≤ c.next ∧ c.next < 2 ^ 64 ∧ ∀ n, c.recorded ≤ n → n < c.next → .given n ∈ events

theorem Gapless.step {events : List NumberEvent} {call : NumberCall} (h : c.Gapless events)
    (hpermits : c.Permits maxLevels call) (hcareful : c.Careful call) :
    (c.step call).Gapless (events ++ c.events call) := by
  obtain ⟨hle, hlt, hgiven⟩ := h
  cases call with
  | allocate =>
    rw [step_allocate hcareful]
    refine ⟨hle.trans (Nat.le_succ _), hcareful, fun n hlow hhigh => ?_⟩
    rcases Nat.eq_or_lt_of_le (Nat.le_of_lt_succ hhigh) with heq | hbelow
    · obtain rfl : n = c.next := heq
      simp [Numbering.events]
    · exact List.mem_append_left _ (hgiven n hlow hbelow)
  | logEdit edit =>
    cases edit with
    | setNextFileNumber n => exact ⟨le_rfl, hpermits.2.2, fun k hlow hhigh => absurd hlow (not_le.mpr hhigh)⟩
    | addFile level file => exact ⟨hle, hlt, fun n hlow hhigh => List.mem_append_left _ (hgiven n hlow hhigh)⟩
    | deleteFile level m => exact ⟨hle, hlt, fun n hlow hhigh => List.mem_append_left _ (hgiven n hlow hhigh)⟩
    | setSequenceNumber m => exact ⟨hle, hlt, fun n hlow hhigh => List.mem_append_left _ (hgiven n hlow hhigh)⟩
  | restart => exact ⟨le_rfl, lt_of_le_of_lt hle hlt, fun k hlow hhigh => absurd hlow (not_le.mpr hhigh)⟩

theorem gapless_after {events : List NumberEvent} (h : c.Gapless events) (hpermits : c.Along (Permits maxLevels) calls)
    (hcareful : c.Along Careful calls) : (c.after calls).Gapless (events ++ c.trace calls) := by
  induction calls using List.reverseRecOn with
  | nil => simpa [trace, after] using h
  | append_singleton calls call ih =>
    rw [along_append] at hpermits hcareful
    have hstep := (ih hpermits.1 hcareful.1).step hpermits.2.1 hcareful.2.1
    rw [trace_append, after_append, trace, trace, List.append_nil, ← List.append_assoc]
    exact hstep

theorem not_neverRepeated {xs ys : List NumberEvent} {n : Nat} (hx : .given n ∈ xs ∨ .added n ∈ xs) (hy : .given n ∈ ys) :
    ¬NeverRepeated (xs ++ ys) := by
  intro h
  have hcross := (List.pairwise_append.mp h).2.2
  rcases hx with hx | hx
  · exact (hcross _ hx _ hy n rfl).1 rfl
  · exact (hcross _ hx _ hy n rfl).2 rfl

theorem repeated_of_careless {events : List NumberEvent} {call : NumberCall} (h : c.Gapless events)
    (hpermits : c.Permits maxLevels call) (hcareless : ¬c.Careful call) :
    ∃ n, (c.step call).next + n ≤ 2 ^ 64 ∧
      ¬NeverRepeated (events ++ c.events call ++ (c.step call).trace (List.replicate n .allocate)) := by
  obtain ⟨hle, hlt, hgiven⟩ := h
  cases call with
  | allocate =>
    -- the counter comes to its end and starts over
    have hend : c.next = 2 ^ 64 - 1 := by
      have : ¬c.next + 1 < 2 ^ 64 := hcareless
      omega
    have hzero : (c.step .allocate).next = 0 := by simp [Numbering.step, hend]
    refine ⟨2 ^ 64, by rw [hzero, Nat.zero_add], ?_⟩
    have hagain := @given_mem_replicate (c.step .allocate) c.next (2 ^ 64) (by omega) (by rw [hzero, Nat.zero_add])
    rw [hzero, Nat.zero_add] at hagain
    exact not_neverRepeated (.inl (List.mem_append_right _ (by simp [Numbering.events]))) hagain
  | logEdit edit =>
    cases edit with
    | addFile level file =>
      -- allocations come to the number of the file
      have hbig : c.next ≤ file.fileNumber := not_lt.mp hcareless
      have hsize : file.fileNumber < 2 ^ 64 := hpermits.2
      refine ⟨file.fileNumber - c.next + 1, by simp only [Numbering.step]; omega, ?_⟩
      have hagain := @given_mem_replicate c (file.fileNumber - c.next) (file.fileNumber - c.next + 1) (by omega) (by omega)
      rw [Nat.add_sub_cancel' hbig] at hagain
      exact not_neverRepeated (.inr (List.mem_append_right _ (by simp [Numbering.events, editEvents]))) hagain
    | deleteFile level m => exact absurd trivial hcareless
    | setNextFileNumber m => exact absurd trivial hcareless
    | setSequenceNumber m => exact absurd trivial hcareless
  | restart =>
    -- the next allocation gives the recorded number, which was given before
    have hback : c.recorded < c.next := lt_of_le_of_ne hle fun heq => hcareless heq.symm
    refine ⟨1, by simp only [Numbering.step]; omega, ?_⟩
    have hagain := @given_mem_replicate (c.step .restart) 0 1 (by omega) (by simp only [Numbering.step]; omega)
    exact not_neverRepeated (.inl (List.mem_append_left _ (hgiven c.recorded le_rfl hback))) hagain

/-- A run is careful exactly when nothing is repeated, wherever it is broken off and
however many allocations follow there, as long as the counter lasts. -/
theorem along_careful_iff (hstart : c.Gapless []) (hpermits : c.Along (Permits maxLevels) calls) :
    c.Along Careful calls ↔ ∀ done, done <+: calls → ∀ n, (c.after done).next + n ≤ 2 ^ 64 →
      NeverRepeated (c.trace (done ++ List.replicate n .allocate)) := by
  constructor
  · rintro hcareful done ⟨rest, rfl⟩ n hend
    rw [along_append] at hpermits hcareful
    exact neverRepeated_replicate hpermits.1 hcareful.1 hend
  · induction calls using List.reverseRecOn with
    | nil => exact fun _ => trivial
    | append_singleton calls call ih =>
      intro h
      rw [along_append] at hpermits ⊢
      have hcareful := ih hpermits.1 fun done hdone => h done (hdone.trans (List.prefix_append _ _))
      refine ⟨hcareful, ?_, trivial⟩
      by_contra hcareless
      obtain ⟨n, hend, hrepeated⟩ := repeated_of_careless (gapless_after hstart hpermits.1 hcareful) hpermits.2.1 hcareless
      refine hrepeated ?_
      have hfresh := h (calls ++ [call]) List.prefix_rfl n (by rw [after_append]; exact hend)
      rwa [trace_append, trace_append, after_append, trace, trace, List.append_nil] at hfresh

end Numbering

-- ---------------------------------------------------------------------------
-- The version set counts so
-- ---------------------------------------------------------------------------

section Serde

variable {serde : Serde}

structure ManifestSet.Counts (serde : Serde) (maxLevels : Nat) (m : ManifestSet) (c : Numbering) (logged : List VersionEdit) :
    Prop where
  levels : m.maxLevels = maxLevels
  current : m.versions.current.length = maxLevels
  next : m.versions.nextFileNumber = c.next
  manifest : m.manifest = encodeLines 10 serde.line logged
  recorded : ∃ vs, applyEdits (.new maxLevels) logged = some vs ∧ vs.nextFileNumber = c.recorded

theorem applyEdits_append (vs : VersionSet) (xs ys : List VersionEdit) :
    applyEdits vs (xs ++ ys) = (applyEdits vs xs).bind (applyEdits · ys) := by
  induction xs generalizing vs with
  | nil => rfl
  | cons x xs ih =>
    rw [List.cons_append, applyEdits, applyEdits]
    cases vs.applyEdit x with
    | none => rfl
    | some vs' => exact ih vs'

theorem applyEdits_length {vs vs' : VersionSet} {edits : List VersionEdit} (h : applyEdits vs edits = some vs') :
    vs'.current.length = vs.current.length := by
  induction edits generalizing vs with
  | nil =>
    obtain rfl := Option.some.inj h
    rfl
  | cons edit edits ih =>
    obtain ⟨vs₁, hvs₁, h⟩ := Option.bind_eq_some_iff.mp h
    rw [ih h, applyEdit_length hvs₁]

def setsNext (n : Nat) : VersionEdit → Nat
  | .setNextFileNumber k => k
  | _ => n

theorem applyEdit_next {vs vs' : VersionSet} {edit : VersionEdit} (h : vs.applyEdit edit = some vs') :
    vs'.nextFileNumber = setsNext vs.nextFileNumber edit := by
  cases edit <;> simp only [VersionSet.applyEdit, Option.map_eq_some_iff, Option.some.injEq] at h
  · obtain ⟨v, -, rfl⟩ := h
    rfl
  · obtain ⟨v, -, rfl⟩ := h
    rfl
  · rw [← h]
    rfl
  · rw [← h]
    rfl

theorem step_logEdit (c : Numbering) (edit : VersionEdit) :
    c.step (.logEdit edit) = ⟨setsNext c.next edit, setsNext c.recorded edit⟩ := by
  cases edit <;> rfl

variable {maxLevels : Nat} {m : ManifestSet} {c : Numbering} {logged : List VersionEdit}

theorem ManifestSet.Counts.call (h : m.Counts serde maxLevels c logged) {call : NumberCall}
    (hserde : serde.LawfulOn (logged ++ loggedEdits [call])) (hpermits : c.Permits maxLevels call) :
    ∃ m', m.call serde call = .ok (m', c.events call) ∧
      m'.Counts serde maxLevels (c.step call) (logged ++ loggedEdits [call]) := by
  obtain ⟨vs, hvs, hrecorded⟩ := h.recorded
  have hfresh : (VersionSet.new maxLevels).current.length = maxLevels := by simp [VersionSet.new, Version.new]
  cases call with
  | allocate =>
    refine ⟨m.allocateFileNumber.2, ?_, h.levels, h.current, ?_, ?_, ?_⟩
    · simp [ManifestSet.call, ManifestSet.allocateFileNumber, h.next, Numbering.events]
    · simp [ManifestSet.allocateFileNumber, h.next, Numbering.step]
    · simp only [loggedEdits, List.append_nil]
      exact h.manifest
    · simpa [loggedEdits] using ⟨vs, hvs, hrecorded⟩
  | logEdit edit =>
    obtain ⟨vs', hvs'⟩ := Option.isSome_iff_exists.mp ((applyEdit_isSome m.versions edit).mpr (h.current ▸ hpermits.1))
    obtain ⟨vs₂, hvs₂⟩ := Option.isSome_iff_exists.mp ((applyEdit_isSome vs edit).mpr
      (by rw [applyEdits_length hvs, hfresh]; exact hpermits.1))
    refine ⟨{ m with versions := vs', manifest := m.manifest ++ serde.line edit ++ [10] }, ?_, h.levels, ?_, ?_, ?_, vs₂, ?_, ?_⟩
    · simp [ManifestSet.call, ManifestSet.logEdit, hvs', Serde.line, Numbering.events]
    · rw [applyEdit_length hvs', h.current]
    · rw [applyEdit_next hvs', step_logEdit, h.next]
    · simp [h.manifest, loggedEdits, encodeLines]
    · simp [applyEdits_append, hvs, loggedEdits, applyEdits, hvs₂]
    · rw [applyEdit_next hvs₂, step_logEdit, hrecorded]
  | restart =>
    have hlines : lines 10 stripReturn m.manifest = logged.map serde.line := by
      rw [h.manifest]
      exact lines_encodeLines (fun edit he => (hserde.line edit (List.mem_append_left _ he)).1)
        fun edit he => stripReturn_line hserde (List.mem_append_left _ he)
    refine ⟨⟨maxLevels, vs, m.manifest⟩, ?_, rfl, ?_, hrecorded, ?_, ?_⟩
    · rw [ManifestSet.call, ManifestSet.new, hlines, h.levels, recoverAll_toJson hserde (List.subset_append_left _ _), hvs]
      rfl
    · rw [applyEdits_length hvs, hfresh]
    · simpa [loggedEdits] using h.manifest
    · simpa [loggedEdits] using ⟨vs, hvs, hrecorded⟩

theorem loggedEdits_cons (call : NumberCall) (calls : List NumberCall) :
    loggedEdits (call :: calls) = loggedEdits [call] ++ loggedEdits calls := by
  cases call <;> rfl

theorem loggedEdits_append (xs ys : List NumberCall) : loggedEdits (xs ++ ys) = loggedEdits xs ++ loggedEdits ys := by
  induction xs with
  | nil => rfl
  | cons x xs ih => rw [List.cons_append, loggedEdits_cons, ih, loggedEdits_cons x xs, List.append_assoc]

theorem loggedEdits_replicate (n : Nat) : loggedEdits (List.replicate n .allocate) = [] := by
  induction n with
  | zero => rfl
  | succ n ih => exact ih

theorem ManifestSet.Counts.run (h : m.Counts serde maxLevels c logged) {calls : List NumberCall}
    (hserde : serde.LawfulOn (logged ++ loggedEdits calls)) (hpermits : c.Along (Numbering.Permits maxLevels) calls) :
    ∃ m', m.run serde calls = .ok (m', c.trace calls) ∧
      m'.Counts serde maxLevels (c.after calls) (logged ++ loggedEdits calls) := by
  induction calls generalizing m c logged with
  | nil => exact ⟨m, rfl, by simpa [loggedEdits, Numbering.after] using h⟩
  | cons call calls ih =>
    rw [loggedEdits_cons, ← List.append_assoc] at hserde ⊢
    obtain ⟨m₁, hcall, h₁⟩ := h.call (hserde.mono (List.subset_append_left _ _)) hpermits.1
    obtain ⟨m₂, hrun, h₂⟩ := ih h₁ hserde hpermits.2
    exact ⟨m₂, by simp [ManifestSet.run, hcall, hrun, Numbering.trace], h₂⟩

theorem fresh_counts (serde : Serde) (maxLevels : Nat) :
    ManifestSet.Counts serde maxLevels ⟨maxLevels, .new maxLevels, []⟩ ⟨1, 1⟩ [] where
  levels := rfl
  current := by simp [VersionSet.new, Version.new]
  next := rfl
  manifest := rfl
  recorded := ⟨_, rfl, rfl⟩

end Serde

/-- In a run on a fresh directory no file number is repeated, wherever it is broken off
and however many allocations follow there, exactly when every call of it is careful. -/
theorem allocated_never_repeated_iff (serde : Serde) (maxLevels : Nat) (calls : List NumberCall)
    (hserde : serde.LawfulOn (loggedEdits calls)) (hpermits : (Numbering.mk 1 1).Along (Numbering.Permits maxLevels) calls) :
    (Numbering.mk 1 1).Along Numbering.Careful calls ↔
      ∀ done, done <+: calls → ∀ n, ((Numbering.mk 1 1).after done).next + n ≤ 2 ^ 64 →
        ∃ m events, (ManifestSet.new serde maxLevels none >>= (·.run serde (done ++ List.replicate n .allocate))) =
          .ok (m, events) ∧ NeverRepeated events := by
  have hstart : (Numbering.mk 1 1).Gapless [] := ⟨le_rfl, by decide, fun n hlow hhigh => absurd hlow (not_le.mpr hhigh)⟩
  rw [Numbering.along_careful_iff hstart hpermits]
  refine forall_congr' fun done => forall_congr' fun hdone => forall_congr' fun n => forall_congr' fun hend => ?_
  obtain ⟨rest, rfl⟩ := hdone
  rw [loggedEdits_append] at hserde
  rw [Numbering.along_append] at hpermits
  have hlogged : loggedEdits (done ++ List.replicate n .allocate) = loggedEdits done := by
    rw [loggedEdits_append, loggedEdits_replicate, List.append_nil]
  obtain ⟨m, hrun, -⟩ := @ManifestSet.Counts.run serde maxLevels _ _ _ (fresh_counts serde maxLevels)
    (done ++ List.replicate n .allocate)
    (by rw [List.nil_append, hlogged]; exact hserde.mono (List.subset_append_left _ _))
    (Numbering.along_append.mpr ⟨hpermits.1, Numbering.permits_replicate n⟩)
  rw [ManifestSet.new, ok_bind, hrun]
  constructor
  · exact fun h => ⟨m, _, rfl, h⟩
  · rintro ⟨m', events, hsame, h⟩
    cases hsame
    exact h

def nextJson : String := "\x7b\"SetNextFileNumber\":2\x7d"

theorem allocated_never_repeated_iff_recorded : ∃ m events,
    (ManifestSet.new (.only (.setNextFileNumber 2) nextJson) 7 none >>=
      (·.run (.only (.setNextFileNumber 2) nextJson)
        ([.allocate, .logEdit (.setNextFileNumber 2), .restart] ++ List.replicate 1 .allocate))) = .ok (m, events) ∧
      NeverRepeated events :=
  (allocated_never_repeated_iff (.only (.setNextFileNumber 2) nextJson) 7
      [.allocate, .logEdit (.setNextFileNumber 2), .restart] (lawfulOn_only (by decide +kernel) (by decide +kernel))
      (by simp [Numbering.Along, Numbering.Permits, Numbering.step, VersionEdit.Below])).mp
    (by simp [Numbering.Along, Numbering.Careful, Numbering.step]) _ List.prefix_rfl 1 (by decide)

theorem not_allocated_never_repeated_restart : ∃ m,
    (ManifestSet.new (.only (.setNextFileNumber 2) nextJson) 7 none >>=
      (·.run (.only (.setNextFileNumber 2) nextJson) [.allocate, .restart, .allocate])) =
        .ok (m, [.given 1, .given 1]) ∧ ¬NeverRepeated [.given 1, .given 1] :=
  ⟨⟨7, ⟨.new 7, 2⟩, []⟩, rfl, by simp [NeverRepeated]⟩

end AiDb.Compaction
