import AiDb.Compacting
import AiDb.Files
import AiDb.Replay
import AiDb.Rules

/-!
# What every run keeps

The handle in any state of any run: opens, calls that return or fail, crashes. As
long as no table file was written over, every reader serves the table it was
opened on.
-/

namespace AiDb

open Library Compaction

variable {s s' : Sys} {w w' : World}

-- ---------------------------------------------------------------------------
-- The invariant
-- ---------------------------------------------------------------------------

structure Sys.Reached (s : Sys) : Prop where
  sane : s.world.disk.Sane
  two_le : 2 ≤ s.db.nextFileNumber
  levels : s.db.sstables ≠ []
  bounded : s.Bounded
  intact : s.world.NoOverwrite → s.Intact

theorem Sys.Bounded.kept (h : s.Bounded) (hk : s.MemtablesKept s') : s'.Bounded := by
  unfold Sys.Bounded
  rw [hk.memtable, hk.immutableMemtables, hk.sequence]
  exact h

theorem Sys.Reached.tablesKept (h : s.Reached) (hk : s.TablesKept s') (hb : s'.Bounded) : s'.Reached where
  sane := h.sane.of_sub (by rw [hk.ssts]; exact fun _ _ => id) hk.files
  two_le := by rw [hk.nextFileNumber]; exact h.two_le
  levels := by rw [hk.sstables]; exact h.levels
  bounded := hb
  intact hno := by
    unfold World.NoOverwrite at hno
    rw [hk.handed] at hno
    exact (h.intact hno).kept hk

theorem Sys.Reached.logs (h : s.Reached) (hl : s.Logs s') : s'.Reached := by
  refine h.tablesKept hl.tablesKept ?_
  obtain ⟨wal, n, logs, faults, -, rfl⟩ := hl
  exact h.bounded

theorem Sys.Reached.tableStep (h : s.Reached) (hstep : s.TableStep s')
    (hintact : s.Intact → s.db.nextFileNumber ∉ s.world.disk.ssts → s'.Intact) : s'.Reached where
  sane := hstep.sane h.sane
  two_le := by have := h.two_le; have := hstep.nextFileNumber; omega
  levels := by
    rw [← List.length_pos_iff, hstep.levels]
    exact List.length_pos_iff.mpr h.levels
  bounded := h.bounded.kept hstep.kept
  intact hno := hintact (h.intact (hstep.unused hno).2) (hstep.unused hno).1

theorem Sys.Reached.popped (h : s.Reached) (himm : s.db.immutableMemtables = m :: rest) : (s.popped rest).Reached := by
  refine h.tablesKept (s.tablesKept_popped rest) fun m' hm' => h.bounded m' ?_
  rcases List.mem_cons.mp hm' with rfl | hm'
  · exact List.mem_cons_self
  · rw [himm]
    exact List.mem_cons_of_mem _ (List.mem_cons_of_mem _ hm')

theorem reached_rule : CallRule Sys.Reached Sys.Reached where
  weaken _ := id
  logs _ _ h hl := h.logs hl
  round s m rest h himm := by
    have hstep := flushMemtableToSstable_step m (s.popped rest)
    refine Triple.intro (fun n s' hr => ?_) (fun e s' hr => ?_)
    · exact (h.popped himm).tableStep (hstep.ok hr) fun hs hu => (flushMemtableToSstable_intact m hs hu hr).1
    · exact (h.popped himm).tableStep (hstep.error hr) fun hs hu => (flushMemtableToSstable_intact_error m hs hu hr).1
  compact s task h hpick := by
    have hne : s.db.nextFileNumber ≠ 0 := by have := h.two_le; omega
    have hstep := compact_step task s hne
    refine Triple.intro (fun u s' hr => ?_) (fun e s' hr => ?_)
    · exact h.tableStep (hstep.ok hr) fun hs hu => ((compact_intact hs hne hu hpick).ok hr).1
    · exact h.tableStep (hstep.error hr) fun hs hu => ((compact_intact hs hne hu hpick).error hr).1

-- ---------------------------------------------------------------------------
-- Writes
-- ---------------------------------------------------------------------------

/-- What taking numbers, inserting, freezing and work on the logs keep, every write
keeps, whether it returns or fails. -/
theorem Call.write_rule {I : Sys → Prop} (hbump : ∀ s n, I s → I (s.bump n))
    (hinsert : ∀ s ops, I s → I (s.insert ops)) (hfreeze : ∀ s, I s → I s.freeze)
    (hlogs : ∀ s s', I s → s.Logs s' → I s') {c : Call} (hc : c.IsWrite) : Keeps I c.run := by
  intro s hs
  have hfull : ∀ ops s', (s.insert ops).freezeIfFull.Logs s' → I s' := by
    intro ops s' hl
    refine hlogs _ s' ?_ hl
    unfold Sys.freezeIfFull
    split
    · exact hfreeze _ (hinsert s ops hs)
    · exact hinsert s ops hs
  cases c with
  | put key value =>
    exact (put_spec key value s).mono (fun _ s' => hfull _ s') (fun _ s' hl => hlogs _ s' (hbump s 1 hs) hl)
  | delete key =>
    exact (delete_spec key s).mono (fun _ s' hl => hlogs _ s' (hinsert s _ hs) hl)
      (fun _ s' hl => hlogs _ s' (hbump s 1 hs) hl)
  | write batch =>
    by_cases hb : batch = []
    · subst hb
      exact Triple.pure hs
    · exact (write_spec batch hb s).mono (fun _ s' => hfull _ s') (fun _ s' hl => hlogs _ s' (hbump s _ hs) hl)
  | _ => exact hc.elim

theorem Sys.Bounded.bump (h : s.Bounded) (n : Nat) : (s.bump n).Bounded :=
  fun m hm => (h m hm).mono (Nat.le_add_right _ n)

theorem Sys.Bounded.insert (h : s.Bounded) (ops : List WriteOp) : (s.insert ops).Bounded := by
  intro m hm
  rcases List.mem_cons.mp hm with rfl | hm
  · exact (applyOps_spec s.world.writes ops (h _ List.mem_cons_self)).1
  · exact (h m (List.mem_cons_of_mem _ hm)).mono (Nat.le_add_right _ _)

theorem Sys.Bounded.freeze (h : s.Bounded) : s.freeze.Bounded := by
  intro m hm
  rcases List.mem_cons.mp hm with rfl | hm
  · exact MemTable.bounded_new
  · rcases List.mem_append.mp hm with hm | hm
    · exact h m (List.mem_cons_of_mem _ hm)
    · rw [List.mem_singleton.mp hm]
      exact h _ List.mem_cons_self

theorem Sys.Reached.frozen (h : s.Reached) : s.frozen.Reached := by
  unfold Sys.frozen
  split
  · exact h
  · exact h.tablesKept s.tablesKept_freeze h.bounded.freeze

theorem Call.run_reached (c : Call) : Keeps Sys.Reached c.run := by
  by_cases hc : c.IsWrite
  · refine Call.write_rule ?_ ?_ ?_ (fun _ _ h hl => h.logs hl) hc
    · exact fun s n h => h.tablesKept (s.tablesKept_bump n) (h.bounded.bump n)
    · exact fun s ops h => h.tablesKept (s.tablesKept_insert ops) (h.bounded.insert ops)
    · exact fun s h => h.tablesKept s.tablesKept_freeze h.bounded.freeze
  · exact fun s h => reached_rule.call hc h h.frozen

-- ---------------------------------------------------------------------------
-- Opening
-- ---------------------------------------------------------------------------

theorem openedDb_reached (hsane : w.disk.Sane) (hsame : w.SameTables w')
    (hloads : w.disk.Loads ns lo hi tables) (hhi : hi ≤ w'.arcs) :
    Sys.Reached ⟨openedDb o recovered log writes walNumber tables vs, w'⟩ := by
  obtain ⟨dir, logs, manifest, faults, arcs, -, -, rfl⟩ := hsame
  refine ⟨hsane.of_sub (fun _ _ => id) rfl, le_refl 2, by simp [openedDb], ?_, fun _ => ?_⟩
  · intro m hm
    have hm : m = replay (MemTable.new 1) 0 (log.stamped recovered writes) := by simpa [openedDb] using hm
    rw [hm]
    exact (replay_stamped log recovered writes).1
  · have hflat : (openedDb o recovered log writes walNumber tables vs).sstables.flatten = tables := by
      simp [openedDb]
    refine ⟨?_, ?_, ?_, ?_⟩
    · rw [hflat]
      intro r hr
      obtain ⟨n, -, f, hf, -⟩ := hloads.mem hr
      exact ⟨f, hf.content, by rw [hf.reader]; rfl, hsane.wellFormed r.file f hf.content⟩
    · rw [hflat]
      intro r hr
      obtain ⟨n, -, f, -, -, hlt⟩ := hloads.mem hr
      exact lt_of_lt_of_le hlt hhi
    · rw [hflat]
      exact hloads.arcs
    · simp [openedDb]

theorem Sys.Reached.enter {db : DB} (h : Sys.Reached ⟨db, w⟩) (env : Env) : Sys.Reached ⟨db, w.enter env⟩ :=
  ⟨h.sane, h.two_le, h.levels, h.bounded, fun hno =>
    ⟨(h.intact hno).serves, (h.intact hno).arc_lt, (h.intact hno).arcs, (h.intact hno).deep⟩⟩

theorem reached_invariant : Invariant Sys.Reached (·.disk.Sane) fun _ _ _ => True where
  leave h := h.sane
  enterOpen h := h.enter _
  enterClosed h := h
  opened := by
    intro w env o hsane _
    have hsane : (w.enter env).disk.Sane := hsane
    refine (openDb_spec o _).mono ?_ ?_
    · rintro db w' ⟨hsame, recovered, tables, vs, lo, hi, rfl, -, hloads, -, hhi, -⟩
      exact openedDb_reached hsane hsame hloads hhi
    · rintro _ w' ⟨⟨dir, logs, manifest, faults, arcs, -, -, rfl⟩, -⟩
      exact hsane.of_sub (fun _ _ => id) rfl
  called h _ := Call.run_reached _ _ (h.enter _)
  dropped h _ := (reached_rule.dropDb (h.enter _).frozen).mono (fun _ _ h => h.sane) (fun _ _ h => h.sane)

theorem State.reached {s : State} {db : DB} (h : s.Reachable len) (hdb : s.db = some db) : Sys.Reached ⟨db, s.world⟩ := by
  obtain ⟨run, rfl⟩ := h
  have hinit : (State.init len).Holds Sys.Reached (·.disk.Sane) := Disk.sane_empty
  have hrun := reached_invariant.runs hinit (State.along_true run)
  unfold State.Holds at hrun
  rwa [hdb] at hrun

end AiDb
