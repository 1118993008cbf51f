import AiDb.BatchSteps
import AiDb.Consuming

/-!
# Writes that fail

A put, a delete or a batch that stops in the log has used up its sequence numbers, and
may have left bytes in the log. Nothing of it is read: after any writes, some failed,
the database reads as if only those that returned had been made.
-/

namespace AiDb

open Library

variable {s s' s1 s2 : Sys}

-- ---------------------------------------------------------------------------
-- What a write does
-- ---------------------------------------------------------------------------

def Call.wrote (s : Sys) : Call → Sys
  | .put key value => (s.insert [.put key value]).freezeIfFull
  | .delete key => s.insert [.delete key]
  | .write batch => if batch = [] then s else (s.insert batch).freezeIfFull
  | _ => s

theorem Call.run_spec {c : Call} (hc : c.IsWrite) (s : Sys) :
    Triple c.run s (fun _ => (c.wrote s).Logs) (fun _ s' => ∃ n, (s.bump n).Logs s') := by
  cases c with
  | put key value => exact (put_spec key value s).mono (fun _ _ => id) fun _ _ h => ⟨1, h⟩
  | delete key => exact (delete_spec key s).mono (fun _ _ => id) fun _ _ h => ⟨1, h⟩
  | write batch =>
    simp only [Call.wrote]
    by_cases hb : batch = []
    · subst hb
      exact Triple.pure (.refl s)
    · simp only [hb, if_false]
      exact (write_spec batch hb s).mono (fun _ _ => id) fun _ _ h => ⟨_, h⟩
  | _ => exact hc.elim

/-- The WAL section stops on a failed file operation only. -/
theorem logAndSync_stops (stamp : Nat) (ops : List WriteOp) (s : Sys) :
    Triple (logAndSync stamp ops) s (fun _ _ => True) fun _ _ => s.world.faults ≠ [] := by
  by_cases hwal : s.db.options.useWal = true
  · exact (logAndSync_appended ops stamp s hwal).mono (fun _ _ _ => trivial) fun _ _ h => h.1
  · unfold logAndSync
    refine Triple.get_bind ?_
    simp only [hwal]
    exact Triple.pure trivial

theorem freezeIfFull_stops (s : Sys) : Triple freezeIfFull s (fun _ _ => True) fun _ _ => False :=
  (freezeIfFull_wal s).mono (fun _ _ _ => trivial) fun _ _ => id

theorem Call.run_stops {c : Call} (hc : c.IsWrite) (s : Sys) :
    Triple c.run s (fun _ _ => True) fun _ _ => s.world.faults ≠ [] := by
  cases c with
  | put key value =>
    unfold Call.run AiDb.put
    show Triple (logAndSync s.world.writes [.put key value] >>= fun _ => _) (s.bump 1) _ _
    refine (logAndSync_stops _ _ (s.bump 1)).bind fun _ s1 _ => Triple.modify_bind ?_
    exact (freezeIfFull_stops _).mono (fun _ _ => id) fun _ _ => False.elim
  | delete key =>
    unfold Call.run AiDb.delete
    show Triple (logAndSync s.world.writes [.delete key] >>= fun _ => _) (s.bump 1) _ _
    exact (logAndSync_stops _ _ (s.bump 1)).bind fun _ s1 _ => Triple.modify trivial
  | write batch =>
    show Triple (AiDb.write batch) s _ _
    unfold AiDb.write
    split
    · exact Triple.pure trivial
    · show Triple (logAndSync s.world.writes batch >>= fun _ => _) (s.bump batch.length) _ _
      refine (logAndSync_stops _ _ (s.bump batch.length)).bind fun _ s1 _ => Triple.modify_bind ?_
      exact (freezeIfFull_stops _).mono (fun _ _ => id) fun _ _ => False.elim
  | _ => exact hc.elim

theorem Call.run_returns {c : Call} (hc : c.IsWrite) (hcalm : s.world.faults = []) : ∃ s', c.run s = .ok () s' := by
  cases hr : c.run s with
  | ok u s' => exact ⟨s', rfl⟩
  | error e s' => exact absurd hcalm ((Call.run_stops hc s).error hr)

theorem Call.calm_ok {c : Call} (hc : c.IsWrite) (hcalm : s.world.faults = []) (hr : c.run s = .ok () s') :
    s'.world.faults = [] := by
  have hfull : ∀ ops, (s.insert ops).freezeIfFull.world.faults = s.world.faults := by
    intro ops
    unfold Sys.freezeIfFull
    split <;> rfl
  have hwrote : (c.wrote s).world.faults = s.world.faults := by
    cases c with
    | put key value => exact hfull _
    | write batch =>
      simp only [Call.wrote]
      split
      · rfl
      · exact hfull _
    | _ => rfl
  exact ((Call.run_spec hc s).ok hr).calm (hwrote.trans hcalm)

-- ---------------------------------------------------------------------------
-- Memtables that read alike
-- ---------------------------------------------------------------------------

def unstamped (v : ValueType × Value) : ValueType × Bytes := (v.1, v.2.bytes)

/-- The two hold the same versions, under whatever sequence numbers. -/
structure MemTable.Alike (m m' : MemTable) : Prop where
  version : ∀ key, (m.version key).map unstamped = (m'.version key).map unstamped
  size : m.size = m'.size

theorem MemTable.Alike.refl (m : MemTable) : m.Alike m := ⟨fun _ => rfl, rfl⟩

theorem MemTable.alike_new (start start' : Nat) : (MemTable.new start).Alike (MemTable.new start') := ⟨fun _ => rfl, rfl⟩

theorem unstamped_lastVersion (key : Bytes) (stamp stamp' : Nat) (ops : List WriteOp) :
    (lastVersion key stamp ops).map unstamped = (lastVersion key stamp' ops).map unstamped := by
  induction ops generalizing stamp stamp' with
  | nil => rfl
  | cons op ops ih =>
    have hop : unstamped (op.version stamp) = unstamped (op.version stamp') := by cases op <;> rfl
    simp only [lastVersion, Option.map_or, ih (stamp + 1) (stamp' + 1)]
    split <;> simp [hop]

theorem MemTable.Alike.applyOps {m m' : MemTable} (h : m.Alike m') (hb : m.Bounded bound) (hb' : m'.Bounded bound')
    (stamp stamp' : Nat) (ops : List WriteOp) :
    (applyOps m stamp (bound + 1) ops).Alike (applyOps m' stamp' (bound' + 1) ops) where
  version key := by
    have hlast := unstamped_lastVersion key stamp stamp' ops
    simp only [(applyOps_spec stamp ops hb).2, (applyOps_spec stamp' ops hb').2, Option.map_or, hlast, h.version]
  size := by simp [applyOps_size, h.size]

def MemTable.answerBytes : Option (ValueType × Bytes) → Option Bytes
  | some (.value, bytes) => some bytes
  | _ => none

theorem MemTable.get_bytes {m : MemTable} (hb : m.Bounded bound) (key : Bytes) :
    (m.get key bound).map Value.bytes = answerBytes ((m.version key).map unstamped) := by
  rw [get_eq_answer hb]
  rcases m.version key with _ | ⟨_ | _, v⟩ <;> rfl

-- ---------------------------------------------------------------------------
-- Handles that read alike
-- ---------------------------------------------------------------------------

/-- The two hold the same memtables but for sequence numbers, and the same tables. -/
structure Sys.Alike (s s' : Sys) : Prop where
  bounded : s.Bounded
  bounded' : s'.Bounded
  options : s.db.options = s'.db.options
  memtable : s.db.memtable.Alike s'.db.memtable
  immutables : List.Forall₂ MemTable.Alike s.db.immutableMemtables s'.db.immutableMemtables
  sstables : s.db.sstables = s'.db.sstables
  files : s.world.disk.files = s'.world.disk.files

namespace Sys.Alike

theorem logs (h : s.Alike s') (hl : s.Logs s1) (hl' : s'.Logs s2) : s1.Alike s2 := by
  obtain ⟨_, _, _, _, -, rfl⟩ := hl
  obtain ⟨_, _, _, _, -, rfl⟩ := hl'
  exact ⟨h.bounded, h.bounded', h.options, h.memtable, h.immutables, h.sstables, h.files⟩

/-- Sequence numbers used up on one side are not seen. -/
theorem bump (h : s.Alike s') (n : Nat) : (s.bump n).Alike s' where
  bounded := h.bounded.bump n
  bounded' := h.bounded'
  options := h.options
  memtable := h.memtable
  immutables := h.immutables
  sstables := h.sstables
  files := h.files

theorem insert (h : s.Alike s') (ops : List WriteOp) : (s.insert ops).Alike (s'.insert ops) where
  bounded := h.bounded.insert ops
  bounded' := h.bounded'.insert ops
  options := h.options
  memtable := h.memtable.applyOps (h.bounded _ List.mem_cons_self) (h.bounded' _ List.mem_cons_self) _ _ ops
  immutables := h.immutables
  sstables := h.sstables
  files := h.files

theorem freeze (h : s.Alike s') : s.freeze.Alike s'.freeze where
  bounded := h.bounded.freeze
  bounded' := h.bounded'.freeze
  options := h.options
  memtable := MemTable.alike_new _ _
  immutables := List.rel_append h.immutables (.cons h.memtable .nil)
  sstables := h.sstables
  files := h.files

theorem freezeIfFull (h : s.Alike s') : s.freezeIfFull.Alike s'.freezeIfFull := by
  have hsize : s.db.memtable.approximateSize = s'.db.memtable.approximateSize := h.memtable.size
  unfold Sys.freezeIfFull
  rw [hsize, h.options]
  split
  · exact h.freeze
  · exact h

theorem wrote (h : s.Alike s') (c : Call) : (c.wrote s).Alike (c.wrote s') := by
  cases c with
  | put key value => exact (h.insert _).freezeIfFull
  | delete key => exact h.insert _
  | write batch =>
    simp only [Call.wrote]
    split
    · exact h
    · exact (h.insert batch).freezeIfFull
  | _ => exact h

end Sys.Alike

theorem answerBytes_findSome {ms ms' : List MemTable} (h : List.Forall₂ MemTable.Alike ms ms')
    (hb : ∀ m ∈ ms, m.Bounded bound) (hb' : ∀ m ∈ ms', m.Bounded bound') (key : Bytes) :
    (ms.findSome? (·.get key bound)).map Value.bytes = (ms'.findSome? (·.get key bound')).map Value.bytes := by
  induction h with
  | nil => rfl
  | @cons m m' ms ms' hm _ ih =>
    simp only [List.mem_cons, forall_eq_or_imp] at hb hb'
    have hget : (m.get key bound).map Value.bytes = (m'.get key bound').map Value.bytes := by
      rw [MemTable.get_bytes hb.1, MemTable.get_bytes hb'.1, hm.version]
    have htail := ih hb.2 hb'.2
    rw [List.findSome?_cons, List.findSome?_cons]
    cases hv : m.get key bound <;> cases hv' : m'.get key bound' <;> simp_all

theorem Sys.Alike.get (h : s.Alike s') (env : Env) (key : Bytes) :
    s.db.get (s.world.enter env) key = s'.db.get (s'.world.enter env) key := by
  have hmem : List.Forall₂ MemTable.Alike (s.db.memtable :: s.db.immutableMemtables.reverse)
      (s'.db.memtable :: s'.db.immutableMemtables.reverse) := .cons h.memtable (List.rel_reverse h.immutables)
  have hfound := answerBytes_findSome hmem (fun m hm => h.bounded m (by simpa using hm))
    (fun m hm => h.bounded' m (by simpa using hm)) key
  have hread : ∀ file, (s.world.enter env).readBlock file = (s'.world.enter env).readBlock file := by
    intro file
    funext handle
    dsimp only [World.readBlock, World.enter]
    rw [h.files]
  unfold DB.get DB.getAtSequence
  simp only [h.sstables, hread]
  cases hv : (s.db.memtable :: s.db.immutableMemtables.reverse).findSome? (·.get key s.db.sequence) <;>
    cases hv' : (s'.db.memtable :: s'.db.immutableMemtables.reverse).findSome? (·.get key s'.db.sequence) <;>
    simp_all

-- ---------------------------------------------------------------------------
-- Runs of writes
-- ---------------------------------------------------------------------------

def State.returned (s : State) : List (Env × Call) → List Call
  | [] => []
  | (env, c) :: tries =>
    match s.exec env (.call c) with
    | (.ok (), s') => c :: s'.returned tries
    | (.error _, s') => s'.returned tries

def asSteps (tries : List (Env × Call)) : List (Env × Action) := tries.map fun x => (x.1, .call x.2)

theorem State.runs_closed (w : World) (tries : List (Env × Call)) :
    ((State.mk none w).runs (asSteps tries)).db = none := by
  induction tries with
  | nil => rfl
  | cons x tries ih => exact ih

theorem Sys.Alike.runs {r : Sys} {db : DB} (h : s.Alike r) (hcalm : r.world.faults = []) (tries : List (Env × Call))
    (hwrites : ∀ x ∈ tries, x.2.IsWrite) (hdone : ((State.mk (some s.db) s.world).runs (asSteps tries)).db = some db) :
    ∃ r', r.runs ((State.mk (some s.db) s.world).returned tries) = some r' ∧
      Sys.Alike ⟨db, ((State.mk (some s.db) s.world).runs (asSteps tries)).world⟩ r' := by
  induction tries generalizing s r with
  | nil =>
    cases hdone
    exact ⟨r, rfl, h⟩
  | cons x tries ih =>
    obtain ⟨env, c⟩ := x
    have hc : c.IsWrite := hwrites (env, c) List.mem_cons_self
    have htail : ∀ x ∈ tries, x.2.IsWrite := fun x hx => hwrites x (List.mem_cons_of_mem _ hx)
    have henter : Sys.Alike ⟨s.db, s.world.enter env⟩ r :=
      ⟨h.bounded, h.bounded', h.options, h.memtable, h.immutables, h.sstables, h.files⟩
    have hspec := Call.run_spec hc ⟨s.db, s.world.enter env⟩
    cases hrun : c.run ⟨s.db, s.world.enter env⟩ with
    | ok u s1 =>
      have hexec : (State.mk (some s.db) s.world).exec env (.call c) = (.ok (), ⟨some s1.db, s1.world⟩) := by
        simp only [State.exec, hrun, State.after]
      obtain ⟨r1, hr1⟩ := Call.run_returns hc hcalm
      have hstep : s1.Alike r1 := (henter.wrote c).logs (hspec.ok hrun) ((Call.run_spec hc r).ok hr1)
      simp only [asSteps, List.map_cons, State.runs, State.returned, hexec, Sys.runs, hr1] at hdone ⊢
      exact ih hstep (Call.calm_ok hc hcalm hr1) htail hdone
    | error e s1 =>
      obtain ⟨n, hl⟩ := hspec.error hrun
      have hstep : s1.Alike r := (henter.bump n).logs hl (.refl r)
      cases e with
      | error err =>
        have hexec : (State.mk (some s.db) s.world).exec env (.call c) = (.error (.error err), ⟨some s1.db, s1.world⟩) := by
          simp only [State.exec, hrun, State.after]
        simp only [asSteps, List.map_cons, State.runs, State.returned, hexec] at hdone ⊢
        exact ih hstep hcalm htail hdone
      | panic =>
        have hexec : (State.mk (some s.db) s.world).exec env (.call c) = (.error .panic, ⟨none, s1.world⟩) := by
          simp only [State.exec, hrun, State.after]
        simp only [asSteps, List.map_cons, State.runs, hexec] at hdone
        exact absurd (hdone.symm.trans (State.runs_closed s1.world tries)) (by simp)
      | crash =>
        have hexec : (State.mk (some s.db) s.world).exec env (.call c) = (.error .crash, ⟨none, s1.world⟩) := by
          simp only [State.exec, hrun, State.after]
        simp only [asSteps, List.map_cons, State.runs, hexec] at hdone
        exact absurd (hdone.symm.trans (State.runs_closed s1.world tries)) (by simp)

/-- Whatever stopped in the log, the database reads as if only the writes that returned
had been made, in their order. -/
theorem State.reads_returned {len : CompressedLen} {s : State} {db db1 : DB} (hs : s.Reachable len) (hopen : s.db = some db)
    (tries : List (Env × Call)) (hwrites : ∀ x ∈ tries, x.2.IsWrite) (hdone : (s.runs (asSteps tries)).db = some db1) :
    ∃ s2, Sys.runs ⟨db, s.world.enter .calm⟩ (s.returned tries) = some s2 ∧
      ∀ env key, db1.get ((s.runs (asSteps tries)).world.enter env) key = s2.db.get (s2.world.enter env) key := by
  obtain ⟨db0, w⟩ := s
  cases hopen
  have hbounded : (Sys.mk db w).Bounded := (State.reached hs rfl).bounded
  have halike : Sys.Alike ⟨db, w⟩ ⟨db, w.enter .calm⟩ :=
    ⟨hbounded, hbounded, rfl, .refl db.memtable, List.forall₂_same.mpr fun m _ => .refl m, rfl, rfl⟩
  obtain ⟨s2, hs2, h2⟩ := halike.runs rfl tries hwrites hdone
  exact ⟨s2, hs2, fun env key => h2.get env key⟩

def Env.failsFirst : Env := { Env.calm with faults := [.fail 0] }

def twoFail : List (Env × Call) :=
  [(.calm, .put [97] [1]), (.failsFirst, .put [97] [2]), (.failsFirst, .write [.delete [97], .put [98] [3]]),
    (.calm, .delete [98])]

def newlyOpened : State := (State.init .unused).runs [(.calm, .openDb .plain)]

theorem State.reads_returned_twoFail : ∃ db db1 s2, newlyOpened.db = some db ∧
    (newlyOpened.runs (asSteps twoFail)).db = some db1 ∧
    Sys.runs ⟨db, newlyOpened.world.enter .calm⟩ (newlyOpened.returned twoFail) = some s2 ∧
      ∀ env key, db1.get ((newlyOpened.runs (asSteps twoFail)).world.enter env) key = s2.db.get (s2.world.enter env) key := by
  have hopen : newlyOpened.db.isSome = true := by decide +kernel
  have hdone : (newlyOpened.runs (asSteps twoFail)).db.isSome = true := by decide +kernel
  obtain ⟨db, hdb⟩ := Option.isSome_iff_exists.mp hopen
  obtain ⟨db1, hdb1⟩ := Option.isSome_iff_exists.mp hdone
  obtain ⟨s2, hs2, hget⟩ := State.reads_returned ⟨_, rfl⟩ hdb twoFail (by simp [twoFail, Call.IsWrite]) hdb1
  exact ⟨db, db1, s2, hdb, hdb1, hs2, hget⟩

end AiDb
