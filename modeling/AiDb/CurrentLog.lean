import AiDb.Batches

/-!
# The current log

The log that an open handle writes is the one that the next open replays: in every state of
every run, whatever has failed in it. A write that fails halfway, or a rotation that does
not get to remove the old log, leaves the writer on the newest log of the directory.
-/

namespace AiDb

open Library Compaction

variable {s s' : Sys} {db : DB} {w : World}

structure Sys.LogCurrent (s : Sys) : Prop where
  log : ∃ bytes, s.LogIs bytes
  counter : s.db.wal.number ≤ s.db.walFileNumber

namespace Sys.LogCurrent

theorem grew (h : s.LogCurrent) (hgrew : s.LogGrew p s') : s'.LogCurrent := by
  obtain ⟨bytes, hlog⟩ := h.log
  exact ⟨⟨_, hgrew.logIs hlog rfl⟩, by rw [hgrew.number, hgrew.walFileNumber]; exact h.counter⟩

theorem same (h : s.LogCurrent) (hwal : s'.db.wal = s.db.wal) (hnumber : s'.db.walFileNumber = s.db.walFileNumber)
    (hlogs : s'.world.disk.logs = s.world.disk.logs) : s'.LogCurrent := by
  obtain ⟨bytes, hlog⟩ := h.log
  have hlatest : latestWal s'.world.disk = latestWal s.world.disk := by rw [latestWal, hlogs]; rfl
  refine ⟨⟨_, ⟨?_, ?_, rfl⟩⟩, by rw [hwal, hnumber]; exact h.counter⟩
  · rw [hwal, hlatest]
    exact hlog.latest
  · rw [hwal, hlogs]
    exact hlog.exists_file

theorem sameLog (h : s.LogCurrent) (hs : s.SameLog s') : s'.LogCurrent := h.same hs.wal hs.walFileNumber hs.world.1

theorem replayedLog (h : s.LogCurrent) : s.world.disk.replayedLog.bytes = s.logFile.bytes := by
  obtain ⟨bytes, hlog⟩ := h.log
  exact hlog.replayedLog.trans hlog.bytes.symm

end Sys.LogCurrent

-- ---------------------------------------------------------------------------
-- Writes
-- ---------------------------------------------------------------------------

theorem logAndSync_current (stamp : Nat) (ops : List WriteOp) : Keeps Sys.LogCurrent (logAndSync stamp ops) := by
  intro s hs
  by_cases hwal : s.db.options.useWal = true
  · refine (logAndSync_appended ops stamp s hwal).mono (fun _ _ h => hs.grew h.1.toLogGrew) ?_
    rintro _ s' ⟨-, q, -, h⟩
    exact hs.grew h.toLogGrew
  · unfold logAndSync
    refine Triple.get_bind ?_
    simp only [hwal]
    exact Triple.pure hs

theorem freezeIfFull_current : Keeps Sys.LogCurrent freezeIfFull := by
  refine Keeps.get.bind fun _ => Keeps.ite ?_ Keeps.pure
  exact Keeps.modify fun s hs => hs.same rfl rfl rfl

theorem Call.run_write_current {c : Call} (hc : c.IsWrite) : Keeps Sys.LogCurrent c.run := by
  intro s hs
  have hbump : ∀ n, (s.bump n).LogCurrent := fun n => hs.same rfl rfl rfl
  cases c with
  | put key value =>
    show Triple (logAndSync s.world.writes [.put key value] >>= fun _ => _) (s.bump 1) _ _
    refine (logAndSync_current _ _ _ (hbump 1)).bind fun _ s1 h1 => Triple.modify_bind ?_
    exact freezeIfFull_current _ (h1.same rfl rfl rfl)
  | delete key =>
    show Triple (logAndSync s.world.writes [.delete key] >>= fun _ => _) (s.bump 1) _ _
    refine (logAndSync_current _ _ _ (hbump 1)).bind fun _ s1 h1 => Triple.modify ?_
    exact h1.same rfl rfl rfl
  | write batch =>
    show Triple (AiDb.write batch) s _ _
    unfold AiDb.write
    by_cases hb : batch = []
    · rw [if_pos hb]
      exact Triple.pure hs
    · rw [if_neg hb]
      show Triple (logAndSync s.world.writes batch >>= fun _ => _) (s.bump batch.length) _ _
      refine (logAndSync_current _ _ _ (hbump _)).bind fun _ s1 h1 => Triple.modify_bind ?_
      exact freezeIfFull_current _ (h1.same rfl rfl rfl)
  | _ => exact hc.elim

-- ---------------------------------------------------------------------------
-- The other calls
-- ---------------------------------------------------------------------------

def Sys.CurrentAfter (e : Exit) (s : Sys) : Prop := ∀ err, e = .error err → s.LogCurrent

theorem rotateWal_current (h : s.LogCurrent) :
    Triple rotateWal s (fun _ => Sys.LogCurrent) (fun e => Sys.CurrentAfter e) := by
  obtain ⟨bytes, hlog⟩ := h.log
  refine (rotateWal_spec hlog h.counter).mono ?_ ?_
  · rintro _ s' ⟨hlogged, hcounter, -⟩
    exact ⟨⟨_, hlogged.toLogIs⟩, hcounter⟩
  · rintro e s' ⟨-, -, ⟨hlog', -, hcounter⟩ | ⟨hlogged, hcounter⟩ | ⟨hlost, -⟩⟩
    · exact fun _ _ => ⟨⟨_, hlog'⟩, hcounter⟩
    · exact fun _ _ => ⟨⟨_, hlogged.toLogIs⟩, hcounter⟩
    · exact fun err he => absurd he (hlost err)

theorem flushTables_current (h : s.LogCurrent) :
    Triple flushTables s (fun _ => Sys.LogCurrent) (fun e => Sys.CurrentAfter e) := by
  refine ((flushMemtables_sameLog s (.refl s)).mono (fun _ _ => id) ?_).bind fun _ s1 h1 => rotateWal_current (h.sameLog h1)
  exact fun _ s1 h1 _ _ => h.sameLog h1

theorem maybeTriggerCompaction_current : Keeps Sys.LogCurrent maybeTriggerCompaction := fun s hs =>
  (maybeTriggerCompaction_sameLog s (.refl s)).mono (fun _ _ => hs.sameLog) fun _ _ => hs.sameLog

theorem flush_current (h : s.LogCurrent) :
    Triple AiDb.flush s (fun _ => Sys.LogCurrent) (fun e => Sys.CurrentAfter e) := by
  rw [flush_eq]
  refine (flushTables_current h).bind fun _ s1 h1 => ?_
  exact (maybeTriggerCompaction_current s1 h1).mono (fun _ _ => id) fun _ _ h2 _ _ => h2

theorem close_current (h : s.LogCurrent) :
    Triple AiDb.close s (fun _ => Sys.LogCurrent) (fun e => Sys.CurrentAfter e) := by
  refine (flush_current h).bind fun _ s1 h1 => Triple.get_bind ?_
  split
  · exact (walSync_appended (.refl s1)).mono (fun _ _ h2 => h1.grew h2.1.toLogGrew) fun _ _ h2 _ _ => h1.grew h2.2.toLogGrew
  · exact Triple.pure h1

theorem Call.run_current (c : Call) (h : s.LogCurrent) :
    Triple c.run s (fun _ => Sys.LogCurrent) (fun e => Sys.CurrentAfter e) := by
  have hkeeps : ∀ {m : M Unit}, Keeps Sys.LogCurrent m → Triple m s (fun _ => Sys.LogCurrent) (fun e => Sys.CurrentAfter e) :=
    fun hm => (hm s h).mono (fun _ _ => id) fun _ _ h1 _ _ => h1
  cases c with
  | put | delete | write => exact hkeeps (Call.run_write_current trivial)
  | flushTables => exact flushTables_current h
  | maybeTriggerCompaction => exact hkeeps maybeTriggerCompaction_current
  | flush => exact flush_current h
  | close => exact close_current h

-- ---------------------------------------------------------------------------
-- Runs
-- ---------------------------------------------------------------------------

theorem openDb_current (o : Options) (w : World) :
    Triple (openDb o) w (fun db w' => Sys.LogCurrent ⟨db, w'⟩) (fun _ _ => True) := by
  refine ((openDb_spec o w).and (openDb_logsKept o w)).mono ?_ fun _ _ _ => trivial
  rintro db w' ⟨⟨-, recovered, tables, vs, lo, hi, rfl, -⟩, hkept, hmem⟩
  exact ⟨⟨_, ⟨hkept.latestWal_eq.symm, hmem, rfl⟩⟩, le_refl _⟩

theorem State.current_exec {st : State} (h : st.Holds Sys.LogCurrent fun _ => True) (env : Env) (a : Action) :
    (st.exec env a).2.Holds Sys.LogCurrent fun _ => True := by
  obtain ⟨none | db, w⟩ := st
  · cases a with
    | openDb o =>
      simp only [State.exec]
      cases hr : AiDb.openDb o (w.enter env) with
      | ok db w' => exact (openDb_current o _).ok hr
      | error e w' => trivial
    | _ => trivial
  · have h' : Sys.LogCurrent ⟨db, w.enter env⟩ := Sys.LogCurrent.same h rfl rfl rfl
    cases a with
    | openDb o => exact h
    | crash => trivial
    | drop =>
      simp only [State.exec]
      cases hr : dropDb ⟨db, w.enter env⟩ <;> trivial
    | call c =>
      have hcall := Call.run_current c h'
      simp only [State.exec]
      cases hr : c.run ⟨db, w.enter env⟩ with
      | ok u s' => exact hcall.ok hr
      | error e s' =>
        cases e with
        | error err => exact hcall.error hr err rfl
        | panic => trivial
        | crash => trivial

theorem State.current {st : State} (h : st.Reachable len) (hdb : st.db = some db) : Sys.LogCurrent ⟨db, st.world⟩ := by
  obtain ⟨run, rfl⟩ := h
  have hruns : ∀ (st : State), (st.Holds Sys.LogCurrent fun _ => True) → ∀ run, (st.runs run).Holds Sys.LogCurrent fun _ => True := by
    intro st hst run
    induction run generalizing st with
    | nil => exact hst
    | cons x run ih => exact ih _ (State.current_exec hst x.1 x.2)
  have hend := hruns (State.init len) trivial run
  unfold State.Holds at hend
  rwa [hdb] at hend

end AiDb
