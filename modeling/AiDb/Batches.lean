import AiDb.Replay
import AiDb.Wal.Recovery

/-!
# Batches and crashes

`DB::write` appends one entry for each operation of a batch and nothing that
belongs to the batch as a whole. A write that stops leaves the first entries whole
and a part of the next, and `DB::open` replays the whole ones.
-/

namespace AiDb

open Library Compaction

variable {s s' : Sys} {w : World}

-- ---------------------------------------------------------------------------
-- Runs without faults keep the log whole
-- ---------------------------------------------------------------------------

/-- While the database is open, the log holds whole entries, all of them in the
file. -/
structure Sys.LogWhole (s : Sys) : Prop where
  useWal : s.db.options.useWal = true
  syncWal : s.db.options.syncWal = true
  counter : s.db.wal.number ≤ s.db.walFileNumber
  logged : ∃ ops, s.Logged ops

def World.LogWhole (w : World) : Prop := ∃ ops, w.disk.replayedLog.bytes = logEntries ops

/-- Nothing fails, and the log is written and synced. -/
def Undisturbed (_ : State) (env : Env) (a : Action) : Prop :=
  env.faults = [] ∧ ∀ o, a = .openDb o → o.useWal = true ∧ o.syncWal = true

theorem Sys.LogWhole.world (h : s.LogWhole) : s.world.LogWhole := by
  obtain ⟨ops, hops⟩ := h.logged
  exact ⟨ops, hops.replayedLog⟩

theorem Sys.LogWhole.sameLog (h : s.LogWhole) (hs : s.SameLog s') : s'.LogWhole := by
  obtain ⟨ops, hops⟩ := h.logged
  have hlatest : latestWal s'.world.disk = latestWal s.world.disk := by rw [latestWal, hs.world.1]; rfl
  refine ⟨by rw [hs.options]; exact h.useWal, by rw [hs.options]; exact h.syncWal,
    by rw [hs.wal, hs.walFileNumber]; exact h.counter, ops, ⟨?_, ?_, ?_⟩, by rw [hs.wal]; exact hops.buffer⟩
  · rw [hs.wal, hlatest]; exact hops.latest
  · rw [hs.wal, hs.world.1]; exact hops.exists_file
  · rw [Sys.logFile, hs.wal, hs.world.1]; exact hops.bytes

theorem Sys.LogWhole.appended (h : s.LogWhole) (hs : s.Appended [] s') : s'.LogWhole := by
  obtain ⟨ops, hops⟩ := h.logged
  have hopts : s'.db.options = s.db.options := by
    obtain ⟨wal, n, logs, faults, -, rfl⟩ := hs.logs
    rfl
  obtain ⟨q, hq⟩ := hs.file
  have hb := hs.bytes
  rw [hops.buffer, List.append_nil, List.append_nil, ← hq, List.append_assoc, List.append_right_eq_self] at hb
  have hnil := List.append_eq_nil_iff.mp hb
  refine ⟨by rw [hopts]; exact h.useWal, by rw [hopts]; exact h.syncWal,
    by rw [hs.number, hs.walFileNumber]; exact h.counter, ops, hs.toLogGrew.logIs hops.toLogIs ?_, hnil.2⟩
  rw [← hq, hnil.1, List.append_nil, hops.bytes]

theorem flushTables_logWhole (h : s.LogWhole) (hc : s.world.faults = []) :
    Triple flushTables s (fun _ s' => s'.LogWhole ∧ s'.world.faults = []) (fun _ s' => s'.LogWhole) := by
  refine ((flushMemtables_sameLog s (.refl s)).mono (fun _ _ => id) fun _ s1 h1 => h.sameLog h1).bind fun _ s1 h1 => ?_
  have hw1 := h.sameLog h1
  have hc1 := h1.world.2 hc
  obtain ⟨ops, hops⟩ := hw1.logged
  refine (rotateWal_spec hops.toLogIs hw1.counter).mono ?_ fun _ _ hf => absurd hc1 hf.1
  rintro _ s2 ⟨hlogged, hcounter, hopts, hc2⟩
  exact ⟨⟨by rw [hopts]; exact hw1.useWal, by rw [hopts]; exact hw1.syncWal, hcounter, [], hlogged⟩, hc2 hc1⟩

theorem flush_eq : AiDb.flush = (flushTables >>= fun _ => maybeTriggerCompaction) := by
  rw [AiDb.flush, flushTables, bind_assoc]

theorem flush_logWhole (h : s.LogWhole) (hc : s.world.faults = []) :
    Triple AiDb.flush s (fun _ s' => s'.LogWhole ∧ s'.world.faults = []) (fun _ s' => s'.LogWhole) := by
  rw [flush_eq]
  refine (flushTables_logWhole h hc).bind fun _ s1 h1 => ?_
  refine (maybeTriggerCompaction_sameLog s1 (.refl s1)).mono ?_ fun _ s2 h2 => h1.1.sameLog h2
  exact fun _ s2 h2 => ⟨h1.1.sameLog h2, h2.world.2 h1.2⟩

theorem Sys.LogWhole.call (h : s.LogWhole) (hc : s.world.faults = []) (c : Call) :
    Triple c.run s (fun _ s' => s'.LogWhole) (fun _ s' => s'.LogWhole) := by
  have hwrite : c.IsWrite → Triple c.run s (fun _ s' => s'.LogWhole) (fun _ s' => s'.LogWhole) := by
    intro hw
    obtain ⟨ops, hops⟩ := h.logged
    refine ((hops.call h.useWal h.syncWal hw).and ((Call.run_disk hw s).and
      (Call.run_logGrew hw s h.useWal))).mono ?_ fun _ _ hf => absurd hc hf.1.1
    rintro _ s' ⟨hops', ⟨logs, -, hopts⟩, hgrew, -⟩
    exact ⟨by rw [hopts]; exact h.useWal, by rw [hopts]; exact h.syncWal,
      by rw [hgrew.number, hgrew.walFileNumber]; exact h.counter, _, hops'⟩
  cases c with
  | put | delete | write => exact hwrite trivial
  | flushTables => exact (flushTables_logWhole h hc).mono (fun _ _ h1 => h1.1) fun _ _ => id
  | maybeTriggerCompaction =>
    exact (maybeTriggerCompaction_sameLog s (.refl s)).mono (fun _ _ => h.sameLog) fun _ _ => h.sameLog
  | flush => exact (flush_logWhole h hc).mono (fun _ _ h1 => h1.1) fun _ _ => id
  | close =>
    refine (flush_logWhole h hc).bind fun _ s1 h1 => Triple.get_bind ?_
    split
    · exact (walSync_appended (.refl s1)).mono (fun _ s2 h2 => h1.1.appended h2.1) fun _ s2 h2 => h1.1.appended h2.2
    · exact Triple.pure h1.1

theorem ignoreError_spec {m : M Unit} {Q : Sys → Prop} {E F : Exit → Sys → Prop} (h : Triple m s (fun _ => Q) E)
    (herr : ∀ err s', E (.error err) s' → Q s') (hlost : ∀ e s', E e s' → F e s') : Triple (ignoreError m) s (fun _ => Q) F := by
  unfold Triple at h ⊢
  unfold ignoreError
  cases hr : m s with
  | ok u s' => rw [hr] at h; exact h
  | error e s' =>
    rw [hr] at h
    cases e with
    | error err => exact herr err s' h
    | panic => exact hlost _ s' h
    | crash => exact hlost _ s' h

theorem dropDb_logWhole (h : s.LogWhole) (hc : s.world.faults = []) :
    Triple dropDb s (fun _ s' => s'.LogWhole) (fun _ s' => s'.LogWhole) := by
  have hbuf : ∀ s1 : Sys, s1.LogWhole → Triple (ignoreError flushBuf) s1 (fun _ s' => s'.LogWhole) (fun _ s' => s'.LogWhole) :=
    fun s1 h1 => (ignoreError_flushBuf s1).mono (fun _ _ => h1.appended) fun _ _ h2 => h1.appended h2.2.2
  have hflush : Triple AiDb.flush s (fun _ => Sys.LogWhole) (fun _ => Sys.LogWhole) :=
    (flush_logWhole h hc).mono (fun _ _ h1 => h1.1) fun _ _ => id
  refine (ignoreError_spec hflush (fun _ _ => id) fun _ _ => id).bind fun _ s1 h1 => Triple.get_bind ?_
  have hsync : Triple walSync s1 (fun _ => Sys.LogWhole) (fun _ => Sys.LogWhole) :=
    (walSync_appended (.refl s1)).mono (fun _ _ h2 => h1.appended h2.1) fun _ _ h2 => h1.appended h2.2
  split
  · exact (ignoreError_spec hsync (fun _ _ => id) fun _ _ => id).bind fun _ s2 h2 => hbuf s2 h2
  · exact hbuf s1 h1

theorem Sys.LogWhole.enter {db : DB} (h : (Sys.mk db w).LogWhole) (env : Env) :
    (Sys.mk db (w.enter env)).LogWhole := by
  obtain ⟨ops, hops⟩ := h.logged
  exact ⟨h.useWal, h.syncWal, h.counter, ops, hops.enter env⟩

theorem logWhole_invariant : Invariant Sys.LogWhole World.LogWhole Undisturbed where
  leave h := h.world
  enterOpen h := h.enter _
  enterClosed h := h
  opened h hP := by
    obtain ⟨ops, hops⟩ := h
    refine ((openDb_logged (w := World.enter _ _) _ hops).and (openDb_logsKept _ _)).mono ?_ ?_
    · rintro db w' ⟨⟨hlogged, tables, vs, lo, hi, rfl, -⟩, -⟩
      exact ⟨(hP.2 _ rfl).1, (hP.2 _ rfl).2, le_refl _, ops, hlogged⟩
    · exact fun _ w' h => ⟨ops, by rw [h.2.replayedLog_eq]; exact hops⟩
  called h hP := (h.enter _).call hP.1 _
  dropped h hP := (dropDb_logWhole (h.enter _) hP.1).mono (fun _ _ h1 => h1.world) fun _ _ h1 => h1.world

-- ---------------------------------------------------------------------------
-- What is left of a batch
-- ---------------------------------------------------------------------------

/-- The number of operations of a batch whose entries are complete in its first `n`
bytes. -/
def wholeEntries : List WriteOp → (n : Nat) → Nat
  | [], _ => 0
  | op :: ops, n =>
    let size := (Wal.append Wal.calculateChecksum op.encode).length
    if size ≤ n then wholeEntries ops (n - size) + 1 else 0

theorem prefix_logEntries (h : q <+: logEntries batch) :
    ∃ t, q = logEntries (batch.take (wholeEntries batch q.length)) ++ t ∧
      ∃ e, t <+: Wal.append Wal.calculateChecksum e ∧ t ≠ Wal.append Wal.calculateChecksum e := by
  induction batch generalizing q with
  | nil =>
    refine ⟨[], ?_, [0], List.nil_prefix, by decide +kernel⟩
    simpa using h
  | cons op ops ih =>
    rw [logEntries_cons] at h
    unfold wholeEntries
    dsimp only
    split
    · rename_i hsize
      obtain ⟨q', rfl⟩ := List.prefix_of_prefix_length_le (List.prefix_append _ _) h hsize
      obtain ⟨t, ht, htorn⟩ := ih ((List.prefix_append_right_inj _).mp h)
      refine ⟨t, ?_, htorn⟩
      rw [List.length_append, Nat.add_sub_cancel_left, List.take_succ_cons, logEntries_cons, List.append_assoc, ← ht]
    · rename_i hsize
      refine ⟨q, rfl, op.encode, ?_, ?_⟩
      · exact List.prefix_of_prefix_length_le h (List.prefix_append _ _) (by omega)
      · rintro rfl
        exact hsize (le_refl _)

/-- The operations that an open would replay. -/
def Disk.loggedOps (d : Disk) : List WriteOp :=
  match Wal.recoverAll Wal.calculateChecksum d.replayedLog.bytes with
  | .ok entries => entries.filterMap parseEntry
  | .error _ => []

theorem Disk.loggedOps_eq {d : Disk} (h : d.replayedLog.bytes = logEntries ops) : d.loggedOps = replayedOps ops := by
  rw [Disk.loggedOps, h, recoverAll_logEntries]
  rfl

theorem recovered_of_prefix (hq : q <+: logEntries batch)
    (hr : Wal.recoverAll Wal.calculateChecksum (logEntries ops ++ q) = .ok entries) :
    entries.filterMap parseEntry = replayedOps ops ++ replayedOps (batch.take (wholeEntries batch q.length)) := by
  obtain ⟨t, ht, e, hp, hne⟩ := prefix_logEntries hq
  have hlog : logEntries ops ++ q =
      Wal.appendAll Wal.calculateChecksum ((ops ++ batch.take (wholeEntries batch q.length)).map WriteOp.encode) ++ t := by
    conv_lhs => rw [ht]
    rw [← List.append_assoc, ← logEntries_append]
    rfl
  rw [hlog, Wal.recoverAll_appendAll _ fun _ => encode_ne_nil_of_mem] at hr
  cases hrec : Wal.recoverAll Wal.calculateChecksum t with
  | error err => rw [hrec] at hr; cases hr
  | ok r =>
    rw [hrec, Wal.recoverAll_strictPrefix hp hne hrec] at hr
    cases hr
    rw [← replayedOps_append]
    exact congrArg _ (List.append_nil _)

-- ---------------------------------------------------------------------------
-- All or nothing
-- ---------------------------------------------------------------------------

/-- The database shows the whole batch over the operations `before`, or nothing of
it. -/
def AllOrNone (db : DB) (w : World) (before batch : List WriteOp) : Prop :=
  (∀ key, db.get w key = db.shows w (before ++ batch) key) ∨ ∀ key, db.get w key = db.shows w before key

/-- What replay makes of the first `n` operations of the batch gives the keys
concerned the values the whole batch gives them, or changes none of them. -/
def CutHarmless (db : DB) (w : World) (before batch : List WriteOp) (n : Nat) : Prop :=
  (∀ op ∈ replayedOps (batch.take n) ++ batch,
    db.shows w (before ++ replayedOps (batch.take n)) op.key = db.shows w (before ++ batch) op.key) ∨
  ∀ op ∈ replayedOps (batch.take n),
    db.shows w (before ++ replayedOps (batch.take n)) op.key = db.shows w before op.key

theorem DB.shows_append (db : DB) (w : World) {before ops : List WriteOp} (h : ∀ op ∈ ops, op.key ≠ key) :
    db.shows w (before ++ ops) key = db.shows w before key := by
  rw [DB.shows, DB.shows, lastValue, lastValue, lastOp_append, lastOp_eq_none.mpr h, Option.none_or]

theorem allOrNone_iff {db : DB} (hget : ∀ key, db.get w key =
    db.shows w (before ++ replayedOps (batch.take n)) key) :
    AllOrNone db w before batch ↔ CutHarmless db w before batch n := by
  refine or_congr ⟨fun h op _ => by rw [← hget, h], fun h key => ?_⟩ ⟨fun h op _ => by rw [← hget, h], fun h key => ?_⟩
  · rw [hget]
    by_cases hk : ∃ op ∈ replayedOps (batch.take n) ++ batch, op.key = key
    · obtain ⟨op, hop, rfl⟩ := hk
      exact h op hop
    · push Not at hk
      rw [db.shows_append w fun op hop => hk op (List.mem_append_left _ hop),
        db.shows_append w fun op hop => hk op (List.mem_append_right _ hop)]
  · rw [hget]
    by_cases hk : ∃ op ∈ replayedOps (batch.take n), op.key = key
    · obtain ⟨op, hop, rfl⟩ := hk
      exact h op hop
    · push Not at hk
      exact db.shows_append w hk

/-- After a write that stopped, in a run without faults until then, the next open
finds the first operations of the batch whose entries were complete. -/
theorem write_stopped_allOrNone_iff (len : CompressedLen) (run : List (Env × Action)) (db : DB) (w : World)
    (hrun : (State.init len).Along Undisturbed run) (hs : (State.init len).runs run = ⟨some db, w⟩)
    (batch : List WriteOp) (env : Env) (e : Exit) (s' : Sys)
    (hstop : AiDb.write batch ⟨db, w.enter env⟩ = .error e s')
    (env' : Env) (o : Options) (db' : DB) (w' : World) (hopen : openDb o (s'.world.enter env') = .ok db' w') :
    ∃ written, written <+: logEntries batch ∧
      s'.world.disk.replayedLog.bytes = w.disk.replayedLog.bytes ++ written ∧
      (AllOrNone db' w' w.disk.loggedOps batch ↔
        CutHarmless db' w' w.disk.loggedOps batch (wholeEntries batch written.length)) := by
  have hwhole : (Sys.mk db w).LogWhole := by
    have hinit : (State.init len).Holds Sys.LogWhole World.LogWhole := ⟨[], rfl⟩
    have := logWhole_invariant.runs hinit hrun
    rwa [hs] at this
  obtain ⟨ops, hops⟩ := hwhole.logged
  have hcall := (hops.enter env).call (c := .write batch) hwhole.useWal hwhole.syncWal trivial
  obtain ⟨-, q, hq, hlog⟩ := hcall.error hstop
  change q <+: logEntries batch at hq
  refine ⟨q, hq, by rw [hlog.replayedLog, hops.replayedLog], ?_⟩
  rw [Disk.loggedOps_eq hops.replayedLog]
  obtain ⟨-, recovered, tables, vs, lo, hi, rfl, hrec, -⟩ := (openDb_spec o _).ok hopen
  refine allOrNone_iff fun key => ?_
  have hbytes : (s'.world.enter env').disk.replayedLog.bytes = logEntries ops ++ q := hlog.replayedLog
  rw [hbytes] at hrec
  rw [openedDb_get, recovered_of_prefix hq hrec]

def twoPuts : List WriteOp := [.put [97] [1], .put [98] [2]]

def openedRun : List (Env × Action) := [(.calm, .openDb .default)]

/-- The process is lost in the first write to the log, after `n` bytes. -/
def crashAfter (n : Nat) : Env := ⟨[.crash n], fun _ _ => false⟩

/-- The handles and directories before the batch, after it stopped, and after the
next open. -/
def stoppedTwoPuts (run : List (Env × Action)) (n : Nat) : Option ((DB × World) × Sys × DB × World) :=
  match (State.init .unused).runs run with
  | ⟨some db, w⟩ =>
    match AiDb.write twoPuts ⟨db, w.enter (crashAfter n)⟩ with
    | .error .crash s' =>
      match openDb .default (s'.world.enter .calm) with
      | .ok db' w' => some ((db, w), s', db', w')
      | .error _ _ => none
    | _ => none
  | ⟨none, _⟩ => none

theorem stoppedTwoPuts_eq (h : stoppedTwoPuts run n = some ((db, w), s', db', w')) :
    (State.init .unused).runs run = ⟨some db, w⟩ ∧
      AiDb.write twoPuts ⟨db, w.enter (crashAfter n)⟩ = .error .crash s' ∧
      openDb .default (s'.world.enter .calm) = .ok db' w' := by
  unfold stoppedTwoPuts at h
  split at h
  · rename_i hrun
    split at h
    · rename_i hwrite
      split at h
      · rename_i hopen
        cases h
        exact ⟨hrun, hwrite, hopen⟩
      · cases h
    · cases h
  · cases h

def firstPutRun : List (Env × Action) := openedRun ++ [(.calm, .call (.put [97] [1]))]

/-- The batch stops in its second entry; the first changes nothing. -/
theorem write_stopped_within : ∃ db w s' db' w',
    (State.init .unused).Along Undisturbed firstPutRun ∧ (State.init .unused).runs firstPutRun = ⟨some db, w⟩ ∧
      AiDb.write twoPuts ⟨db, w.enter (crashAfter 22)⟩ = .error .crash s' ∧
      openDb .default (s'.world.enter .calm) = .ok db' w' ∧
      s'.world.disk.replayedLog.bytes.length = w.disk.replayedLog.bytes.length + 22 ∧
      AllOrNone db' w' w.disk.loggedOps twoPuts := by
  have hrun : (State.init .unused).Along Undisturbed firstPutRun :=
    ⟨⟨rfl, by rintro o ⟨⟩; exact ⟨rfl, rfl⟩⟩, ⟨rfl, nofun⟩, trivial⟩
  have hlog : (stoppedTwoPuts firstPutRun 22).map (fun x => ([x.1.2.disk.replayedLog.bytes.length,
      x.2.1.world.disk.replayedLog.bytes.length], [x.2.2.1.shows x.2.2.2 (x.1.2.disk.loggedOps ++ [.put [97] [1]]) [97],
      x.2.2.1.shows x.2.2.2 x.1.2.disk.loggedOps [97]])) = some ([19, 41], [.ok (some [1]), .ok (some [1])]) := by
    decide +kernel
  obtain ⟨⟨⟨db, w⟩, s', db', w'⟩, hst, heq⟩ := Option.map_eq_some_iff.mp hlog
  simp only [Prod.mk.injEq, List.cons.injEq, and_true] at heq
  obtain ⟨⟨hold, hnew⟩, hshown, hbefore⟩ := heq
  obtain ⟨hs, hstop, hopen⟩ := stoppedTwoPuts_eq hst
  obtain ⟨written, -, hbytes, hiff⟩ :=
    write_stopped_allOrNone_iff .unused _ db w hrun hs twoPuts _ _ s' hstop _ _ db' w' hopen
  refine ⟨db, w, s', db', w', hrun, hs, hstop, hopen, by omega, hiff.mpr (.inr ?_)⟩
  have hlength : written.length = 22 := by
    have := congrArg List.length hbytes
    rw [List.length_append, hold, hnew] at this
    omega
  have hone : replayedOps (twoPuts.take (wholeEntries twoPuts written.length)) = [.put [97] [1]] := by
    rw [hlength]
    decide +kernel
  rw [hone]
  intro op hop
  obtain rfl := List.mem_singleton.mp hop
  exact hshown.trans hbefore.symm

/-- On a new database, with the first of the two entries in the log: the database holds one of the two puts. -/
theorem not_allOrNone_between : ∃ db w s' db' w',
    (State.init .unused).runs openedRun = ⟨some db, w⟩ ∧
      AiDb.write twoPuts ⟨db, w.enter (crashAfter 19)⟩ = .error .crash s' ∧
      openDb .default (s'.world.enter .calm) = .ok db' w' ∧ ¬AllOrNone db' w' w.disk.loggedOps twoPuts := by
  have hgets : (stoppedTwoPuts openedRun 19).map (fun x => [x.2.2.1.get x.2.2.2 [97], x.2.2.1.get x.2.2.2 [98],
      x.2.2.1.shows x.2.2.2 (x.1.2.disk.loggedOps ++ twoPuts) [98], x.2.2.1.shows x.2.2.2 x.1.2.disk.loggedOps [97]]) =
      some [.ok (some [1]), .ok none, .ok (some [2]), .ok none] := by decide +kernel
  obtain ⟨⟨⟨db, w⟩, s', db', w'⟩, hst, heq⟩ := Option.map_eq_some_iff.mp hgets
  obtain ⟨hs, hstop, hopen⟩ := stoppedTwoPuts_eq hst
  simp only [List.cons.injEq, and_true] at heq
  obtain ⟨ha, hb, hall, hnone⟩ := heq
  refine ⟨db, w, s', db', w', hs, hstop, hopen, ?_⟩
  rintro (h | h)
  · have := h [98]
    rw [hb, hall] at this
    cases this
  · have := h [97]
    rw [ha, hnone] at this
    cases this

end AiDb
