import AiDb.Immutability
import AiDb.Iterator
import AiDb.Logging
import AiDb.MemorySize

/-!
# A batch and its operations one at a time

A batch takes its sequence numbers at once, syncs the log once and looks at the size of
the memtable once, after its last operation. The same operations as calls of their own
do all of this after each of them.
-/

namespace AiDb

open Library Compaction

variable {s s' s'' : Sys}

def WriteOp.call : WriteOp → Call
  | .put key value => .put key value
  | .delete key => .delete key

theorem WriteOp.isWrite_call (op : WriteOp) : op.call.IsWrite := by cases op <;> trivial

@[simp] theorem WriteOp.ops_call (op : WriteOp) : op.call.ops = [op] := by cases op <;> rfl

-- ---------------------------------------------------------------------------
-- Putting operations into the memtable
-- ---------------------------------------------------------------------------

theorem applyOps_append (m : MemTable) (stamp sequence : Nat) (xs ys : List WriteOp) :
    applyOps m stamp sequence (xs ++ ys) =
      applyOps (applyOps m stamp sequence xs) (stamp + xs.length) (sequence + xs.length) ys := by
  induction xs generalizing m stamp sequence with
  | nil => rfl
  | cons op xs ih => simp [applyOps, ih, Nat.add_assoc, Nat.add_comm 1]

theorem Sys.insert_append (s : Sys) (xs ys : List WriteOp) : (s.insert xs).insert ys = s.insert (xs ++ ys) := by
  simp [Sys.insert, applyOps_append, Nat.add_assoc, Nat.add_comm, Nat.add_left_comm]

theorem Sys.Logs.inserted (h : s.Logs s') (ops : List WriteOp) : (s.insert ops).Logs (s'.insert ops) := by
  obtain ⟨wal, n, logs, faults, hf, rfl⟩ := h
  exact ⟨wal, n, logs, faults, hf, rfl⟩

/-- The memtable stays below its limit until the last operation is in it. -/
def Sys.HasRoomFor (s : Sys) (batch : List WriteOp) : Prop :=
  s.db.memtable.approximateSize + (batch.dropLast.map WriteOp.entrySize).sum < s.db.options.memtableSize

theorem Sys.HasRoomFor.not_full {pre post : List WriteOp} (h : s.HasRoomFor (pre ++ post)) (hpost : post ≠ []) :
    (s.insert pre).freezeIfFull = s.insert pre := by
  have hsize : (s.insert pre).db.memtable.approximateSize = s.db.memtable.approximateSize + (pre.map WriteOp.entrySize).sum :=
    applyOps_size _ _ _ pre
  unfold Sys.HasRoomFor at h
  rw [List.dropLast_append_of_ne_nil hpost, List.map_append, List.sum_append] at h
  refine if_neg ?_
  rw [hsize]
  change ¬s.db.options.memtableSize ≤ _
  omega

-- ---------------------------------------------------------------------------
-- One at a time
-- ---------------------------------------------------------------------------

/-- Up to the log, the state after the operations: the last of them may have frozen the memtable. -/
def Sys.Applied (s : Sys) (ops : List WriteOp) (s' : Sys) : Prop :=
  (s.insert ops).Logs s' ∨ (s.insert ops).freeze.Logs s'

theorem Sys.Applied.of_full (h : ((s.insert ops).freezeIfFull).Logs s') : s.Applied ops s' := by
  unfold Sys.freezeIfFull at h
  split at h
  · exact .inr h
  · exact .inl h

theorem WriteOp.run_call {op : WriteOp} (h : s.Logs s') (hrun : op.call.run s' = .ok () s'') :
    ((s.insert [op]).freezeIfFull).Logs s'' ∨ (s.insert [op]).Logs s'' := by
  have hins : (s.insert [op]).Logs (s'.insert [op]) := h.inserted [op]
  cases op with
  | put key value =>
    have hfull : (s.insert [.put key value]).freezeIfFull.Logs (s'.insert [.put key value]).freezeIfFull := by
      unfold Sys.freezeIfFull
      obtain ⟨wal, n, logs, faults, hf, heq⟩ := hins
      rw [heq]
      dsimp only
      split
      · exact ⟨wal, n, logs, faults, hf, rfl⟩
      · exact ⟨wal, n, logs, faults, hf, rfl⟩
    exact .inl (hfull.trans ((put_spec key value s').ok hrun))
  | delete key => exact .inr (hins.trans ((delete_spec key s').ok hrun))

theorem Sys.runs_calls_room {pre post : List WriteOp} (hroom : s.HasRoomFor (pre ++ post)) (hpost : post ≠ [])
    (hruns : s.runs (pre.map WriteOp.call) = some s') : (s.insert pre).Logs s' := by
  induction pre using List.reverseRecOn generalizing s' post with
  | nil =>
    obtain rfl : s = s' := by simpa [Sys.runs] using hruns
    exact Sys.Logs.refl s
  | append_singleton pre op ih =>
    rw [List.map_append] at hruns
    obtain ⟨s1, hs1, hrun⟩ := Sys.runs_snoc.mp hruns
    have hbefore : (s.insert pre).Logs s1 :=
      ih (show s.HasRoomFor (pre ++ op :: post) by simpa using hroom) (List.cons_ne_nil op post) hs1
    rw [← Sys.insert_append]
    rcases WriteOp.run_call hbefore hrun with h | h
    · rwa [Sys.insert_append, hroom.not_full hpost, ← Sys.insert_append] at h
    · exact h

theorem Sys.runs_calls_applied {ops : List WriteOp} (hroom : s.HasRoomFor ops)
    (hruns : s.runs (ops.map WriteOp.call) = some s') : s.Applied ops s' := by
  rcases List.eq_nil_or_concat ops with rfl | ⟨pre, op, rfl⟩
  · obtain rfl : s = s' := by simpa [Sys.runs] using hruns
    exact .inl (Sys.Logs.refl s)
  · rw [List.concat_eq_append] at hroom hruns ⊢
    rw [List.map_append] at hruns
    obtain ⟨s1, hs1, hrun⟩ := Sys.runs_snoc.mp hruns
    have hbefore := Sys.runs_calls_room hroom (by simp) hs1
    have happ : (s.insert pre).insert [op] = s.insert (pre ++ [op]) := s.insert_append pre [op]
    rcases WriteOp.run_call hbefore hrun with h | h
    · rw [happ] at h
      exact .of_full h
    · rw [happ] at h
      exact .inl h

theorem write_applied (h : write batch s = .ok () s') : s.Applied batch s' := by
  by_cases hb : batch = []
  · subst hb
    cases h
    exact .inl (Sys.Logs.refl s)
  · exact .of_full ((write_spec batch hb s).ok h)

-- ---------------------------------------------------------------------------
-- The two ways compared
-- ---------------------------------------------------------------------------

theorem Sys.getAtSequence_logs (h : s.Logs s') : s'.getAtSequence = s.getAtSequence := by
  obtain ⟨wal, n, logs, faults, -, rfl⟩ := h
  rfl

theorem Sys.getAtSequence_freeze (s : Sys) : s.freeze.getAtSequence = s.getAtSequence := by
  funext key seq
  have hmem : (s.freeze.db.memtable :: s.freeze.db.immutableMemtables.reverse).findSome? (·.get key seq) =
      (s.db.memtable :: s.db.immutableMemtables.reverse).findSome? (·.get key seq) := s.memSeen_freeze seq key
  unfold Sys.getAtSequence DB.getAtSequence
  rw [hmem]
  rfl

theorem Sys.Applied.getAtSequence (h : s.Applied ops s') : s'.getAtSequence = (s.insert ops).getAtSequence := by
  rcases h with h | h
  · exact Sys.getAtSequence_logs h
  · rw [Sys.getAtSequence_logs h, Sys.getAtSequence_freeze]

theorem Sys.Applied.counters (h : s.Applied ops s') :
    s'.db.sequence = s.db.sequence + ops.length ∧ s'.world.writes = s.world.writes + ops.length := by
  rcases h with ⟨_, _, _, _, -, rfl⟩ | ⟨_, _, _, _, -, rfl⟩
  · exact ⟨rfl, rfl⟩
  · exact ⟨rfl, rfl⟩

theorem Sys.Applied.options (h : s.Applied ops s') : s'.db.options = s.db.options := by
  rcases h with ⟨_, _, _, _, -, rfl⟩ | ⟨_, _, _, _, -, rfl⟩
  · rfl
  · rfl

/-- What was given to the log: the bytes in its file, and those still in the buffer of the writer. -/
def Sys.given (s : Sys) : Bytes := s.logFile.bytes ++ s.db.wal.buffer

theorem Sys.given_call {c : Call} (hc : c.IsWrite) (hwal : s.db.options.useWal = true) (h : c.run s = .ok () s') :
    s'.given = s.given ++ logEntries c.ops := ((Call.run_logGrew hc s hwal).ok h).1.bytes

theorem Sys.options_call {c : Call} (hc : c.IsWrite) (h : c.run s = .ok () s') : s'.db.options = s.db.options :=
  ((Call.run_tablesKept c hc s).ok h).options

theorem Sys.given_calls {ops : List WriteOp} (hwal : s.db.options.useWal = true)
    (h : s.runs (ops.map WriteOp.call) = some s') : s'.given = s.given ++ logEntries ops ∧ s'.db.options = s.db.options := by
  induction ops using List.reverseRecOn generalizing s' with
  | nil =>
    obtain rfl : s = s' := by simpa [Sys.runs] using h
    simp [logEntries]
  | append_singleton ops op ih =>
    rw [List.map_append] at h
    obtain ⟨s1, hs1, hrun⟩ := Sys.runs_snoc.mp h
    obtain ⟨hgiven, hopt⟩ := ih hs1
    have hstep := Sys.given_call op.isWrite_call (by rw [hopt, hwal]) hrun
    refine ⟨?_, (Sys.options_call op.isWrite_call hrun).trans hopt⟩
    rw [hstep, hgiven, op.ops_call, logEntries_append, List.append_assoc]

/-- A batch leaves what its operations leave when they are called one at a time, if the
memtable has room for all but the last of them: later reads find the same at every
sequence number, and the log was given the same bytes. With a freeze in the middle the
two differ, as a delete does not hide what an older memtable holds. -/
theorem write_eq_calls (s : Sys) (batch : List WriteOp) (hroom : s.HasRoomFor batch) {s1 s2 : Sys}
    (hwrite : write batch s = .ok () s1) (hcalls : s.runs (batch.map WriteOp.call) = some s2) :
    s1.getAtSequence = s2.getAtSequence ∧ s1.db.sequence = s2.db.sequence ∧ s1.world.writes = s2.world.writes ∧
      (s.db.options.useWal = true → s1.given = s2.given) := by
  have h1 := write_applied hwrite
  have h2 := Sys.runs_calls_applied hroom hcalls
  refine ⟨h1.getAtSequence.trans h2.getAtSequence.symm, h1.counters.1.trans h2.counters.1.symm,
    h1.counters.2.trans h2.counters.2.symm, fun hwal => ?_⟩
  rw [(Sys.given_calls hwal hcalls).1]
  exact Sys.given_call (c := .write batch) trivial hwal hwrite

def putTwoDeleteOne : List WriteOp := [.put [97] [1], .put [98] [2], .delete [97]]

def bothWays (batch : List WriteOp) : Option (Sys × Sys × Sys) :=
  match Sys.fresh .unused .plain with
  | none => none
  | some s =>
    match write batch s, s.runs (batch.map WriteOp.call) with
    | .ok () s1, some s2 => some (s, s1, s2)
    | _, _ => none

theorem bothWays_eq (h : bothWays batch = some (s, s', s'')) :
    write batch s = .ok () s' ∧ s.runs (batch.map WriteOp.call) = some s'' := by
  unfold bothWays at h
  split at h
  · cases h
  · split at h
    · rename_i hw hr
      cases h
      exact ⟨hw, hr⟩
    · cases h

theorem write_eq_calls_putTwoDeleteOne : ∃ s s1 s2 : Sys, write putTwoDeleteOne s = .ok () s1 ∧
    s.runs (putTwoDeleteOne.map WriteOp.call) = some s2 ∧ s1.getAtSequence = s2.getAtSequence ∧
      s1.db.sequence = s2.db.sequence ∧ s1.world.writes = s2.world.writes ∧
        (s.db.options.useWal = true → s1.given = s2.given) := by
  have hroom : (bothWays putTwoDeleteOne).map (fun x => (x.1.db.memtable.approximateSize, x.1.db.options.memtableSize)) =
      some (0, 4 * 1024 * 1024) := by decide +kernel
  obtain ⟨⟨s, s1, s2⟩, hst, hsize⟩ := Option.map_eq_some_iff.mp hroom
  simp only [Prod.mk.injEq] at hsize
  obtain ⟨hwrite, hcalls⟩ := bothWays_eq hst
  refine ⟨s, s1, s2, hwrite, hcalls, write_eq_calls s putTwoDeleteOne ?_ hwrite hcalls⟩
  unfold Sys.HasRoomFor
  rw [hsize.1, hsize.2]
  decide

end AiDb
