import AiDb.Opening

/-!
# File numbers

A table is written under the number that `next_file_number` hands out, and
`File::create` truncates what is there under that number. While a session runs,
every table of the directory has a number below the counter. `DB::open` starts
the counter at 2 without looking at the directory, so the tables of earlier
sessions may lie at or above it.
-/

namespace AiDb

open Library Compaction

variable {d d' : Disk}

-- ---------------------------------------------------------------------------
-- The numbers of a directory
-- ---------------------------------------------------------------------------

theorem Disk.mem_createSst : m ∈ (d.createSst n).ssts ↔ m = n ∨ m ∈ d.ssts := by
  unfold Disk.createSst
  cases h : d.ssts.lookup n with
  | some file =>
    have hn : n ∈ d.ssts := by rw [← AList.lookup_isSome, h]; rfl
    exact ⟨.inr, fun hm => hm.elim (fun h => h ▸ hn) id⟩
  | none => exact AList.mem_insert d.ssts

@[simp] theorem Disk.finishSst_ssts : (d.finishSst n f).ssts = d.ssts := by
  unfold Disk.finishSst
  split <;> rfl

theorem Disk.mem_of_removeSst (h : m ∈ (d.removeSst n).ssts) : m ∈ d.ssts := (AList.mem_erase.mp h).2

theorem Disk.mem_of_removeSsts (h : m ∈ (d.removeSsts rs).ssts) : m ∈ d.ssts := by
  induction rs generalizing d with
  | nil => exact h
  | cons r rs ih => exact Disk.mem_of_removeSst (ih h)

theorem Disk.mem_withSst : m ∈ (d.withSst n f).ssts ↔ m = n ∨ m ∈ d.ssts := by
  rw [Disk.withSst, Disk.finishSst_ssts, Disk.mem_createSst]

theorem Disk.Written.mem (h : d.Written n es d') (hm : m ∈ d'.ssts) : m = n ∨ m ∈ d.ssts := by
  cases h with
  | untouched => exact .inr hm
  | created => exact Disk.mem_createSst.mp hm
  | abandoned => exact Disk.mem_createSst.mp (Disk.mem_of_removeSst hm)
  | finished => exact Disk.mem_withSst.mp hm

-- ---------------------------------------------------------------------------
-- One session
-- ---------------------------------------------------------------------------

/-- Every table of the directory has a number below the counter, and no number
that was handed out was in use. -/
structure Sys.Numbered (s : Sys) : Prop where
  two_le : 2 ≤ s.db.nextFileNumber
  below : ∀ n ∈ s.world.disk.ssts, n < s.db.nextFileNumber
  unused : ∀ p ∈ s.world.handed, p.2 = false

theorem Sys.Numbered.kept {s s' : Sys} (h : s.Numbered) (hk : s.TablesKept s') : s'.Numbered where
  two_le := by rw [hk.nextFileNumber]; exact h.two_le
  below := by rw [hk.nextFileNumber, hk.ssts]; exact h.below
  unused := by rw [hk.handed]; exact h.unused

theorem Sys.Numbered.step {s s' : Sys} (h : s.Numbered)
    (hnext : s'.db.nextFileNumber = s.db.nextFileNumber + 1)
    (hssts : ∀ n ∈ s'.world.disk.ssts, n = s.db.nextFileNumber ∨ n ∈ s.world.disk.ssts)
    (hhanded : s'.world.handed = s.handOut.world.handed) : s'.Numbered where
  two_le := by have := h.two_le; omega
  below n hn := by
    rw [hnext]
    rcases hssts n hn with rfl | hn
    · exact Nat.lt_succ_self _
    · exact Nat.lt_succ_of_lt (h.below n hn)
  unused p hp := by
    rw [hhanded] at hp
    rcases List.mem_cons.mp hp with rfl | hp
    · exact decide_eq_false fun hmem => absurd (h.below _ hmem) (lt_irrefl _)
    · exact h.unused p hp

theorem World.At.handed_eq {w w' : World} (h : w.At d w') : w'.handed = w.handed := by
  obtain ⟨_, _, -, -, rfl⟩ := h
  rfl

theorem flushMemtableToSstable_numbered (m : MemTable) : Keeps Sys.Numbered (flushMemtableToSstable m) := by
  intro s hs
  refine (flushMemtableToSstable_spec m s).mono ?_ ?_
  · rintro _ s' (⟨-, hdb, hat⟩ | ⟨-, f, r, -, -, hdb, hat, -⟩)
    · refine hs.step (by rw [hdb]; rfl) (fun n hn => ?_) hat.handed_eq
      rw [hat.disk_eq] at hn
      exact Disk.mem_createSst.mp (Disk.mem_of_removeSst hn)
    · refine hs.step (by rw [hdb]; rfl) (fun n hn => ?_) hat.handed_eq
      rw [hat.disk_eq] at hn
      exact Disk.mem_withSst.mp hn
  · rintro _ s' ⟨hdb, d, hwritten, hat⟩
    refine hs.step (by rw [hdb]; rfl) (fun n hn => ?_) hat.handed_eq
    rw [hat.disk_eq] at hn
    exact hwritten.mem hn

theorem compact_numbered (task : CompactionTask) : Keeps Sys.Numbered (compact task) := by
  intro s hs
  have hn : s.db.nextFileNumber ≠ 0 := by have := hs.two_le; omega
  have hdone : ∀ removed s', s.Compacted task removed s' → s'.Numbered := by
    rintro removed s' ⟨es, f, r, -, -, -, -, -, -, -, ⟨vs, hdb⟩, manifest, hat⟩
    refine hs.step (by rw [hdb]; rfl) (fun n hn => ?_) hat.handed_eq
    rw [hat.disk_eq] at hn
    exact Disk.mem_withSst.mp (Disk.mem_of_removeSsts hn)
  refine (compact_spec task s hn).mono ?_ ?_
  · rintro _ s' (⟨-, hdb, hat⟩ | hc)
    · refine hs.step (by rw [hdb]; rfl) (fun n hn => ?_) hat.handed_eq
      rw [hat.disk_eq] at hn
      exact Disk.mem_createSst.mp (Disk.mem_of_removeSst hn)
    · exact hdone _ s' hc
  · rintro _ s' (⟨es, d, hd, ⟨vs, hdb⟩, manifest, hat⟩ | ⟨removed, -, hc⟩)
    · refine hs.step (by rw [hdb]; rfl) (fun n hn => ?_) hat.handed_eq
      rw [hat.disk_eq] at hn
      rcases hd with ⟨-, hwritten⟩ | rfl
      · exact hwritten.mem hn
      · exact .inr hn
    · exact hdone _ s' hc

theorem flushMemtables_numbered : Keeps Sys.Numbered flushMemtables := by
  intro s hs
  refine flushMemtables_eq (flushImmutables_rule ?_ _ (hs.kept s.tablesKept_frozen))
  intro s m rest hs _
  exact flushMemtableToSstable_numbered m _ (hs.kept (s.tablesKept_popped rest))

theorem numbered_of_logs {m : M α} (h : ∀ s0 : Sys, Keeps s0.Logs m) : Keeps Sys.Numbered m := by
  intro s hs
  exact (h s s (.refl s)).mono (fun _ _ hl => hs.kept hl.tablesKept) (fun _ _ hl => hs.kept hl.tablesKept)

theorem maybeTriggerCompaction_numbered : Keeps Sys.Numbered maybeTriggerCompaction := by
  refine Keeps.get.bind fun s => ?_
  dsimp only
  split
  · exact Keeps.throw
  · exact Keeps.pure
  · exact compact_numbered _

theorem flushTables_numbered : Keeps Sys.Numbered flushTables :=
  flushMemtables_numbered.bind fun _ => numbered_of_logs fun _ => rotateWal_logs

theorem flush_numbered : Keeps Sys.Numbered flush :=
  flushMemtables_numbered.bind fun _ => (numbered_of_logs fun _ => rotateWal_logs).bind fun _ =>
    maybeTriggerCompaction_numbered

theorem Call.run_numbered (c : Call) : Keeps Sys.Numbered c.run := by
  by_cases hw : c.IsWrite
  · intro s hs
    exact (c.run_tablesKept hw s).mono (fun _ _ hk => hs.kept hk) (fun _ _ hk => hs.kept hk)
  cases c with
  | flushTables => exact flushTables_numbered
  | maybeTriggerCompaction => exact maybeTriggerCompaction_numbered
  | flush => exact flush_numbered
  | close =>
    refine flush_numbered.bind fun _ => Keeps.get.bind fun s => Keeps.ite ?_ Keeps.pure
    exact numbered_of_logs fun _ => walSync_logs
  | _ => exact absurd trivial hw

theorem dropDb_numbered : Keeps Sys.Numbered dropDb := by
  have hsync : Keeps Sys.Numbered (ignoreError walSync) :=
    ignoreError_keeps (numbered_of_logs fun _ => walSync_logs)
  have hbuf : Keeps Sys.Numbered (ignoreError flushBuf) :=
    ignoreError_keeps (numbered_of_logs fun _ => flushBuf_logs)
  refine (ignoreError_keeps flush_numbered).bind fun _ => Keeps.get.bind fun s => ?_
  exact Keeps.ite (hsync.bind fun _ => hbuf) hbuf

-- ---------------------------------------------------------------------------
-- Any number of sessions
-- ---------------------------------------------------------------------------

/-- No number that was handed out was the number of a table in the directory. -/
def World.NoOverwrite (w : World) : Prop := ∀ p ∈ w.handed, p.2 = false

/-- What a step has to meet: an open finds no table numbered 2 or higher. -/
def State.CountsFromFresh (s : State) (_ : Env) (a : Action) : Prop :=
  ∀ o, a = .openDb o → s.db = none → ∀ n ∈ s.world.disk.ssts, n < 2

theorem numbered_invariant : Invariant Sys.Numbered World.NoOverwrite State.CountsFromFresh where
  leave h := h.unused
  enterOpen h := ⟨h.two_le, h.below, h.unused⟩
  enterClosed h := h
  opened := by
    intro w env o hw hfresh
    have hsame : ∀ w', (w.enter env).SameTables w' →
        w'.handed = w.handed ∧ w'.disk.ssts = w.disk.ssts := by
      rintro w' ⟨_, _, _, _, _, -, -, rfl⟩
      exact ⟨rfl, rfl⟩
    refine (openDb_spec o _).mono ?_ ?_
    · rintro db w' ⟨hkept, _, _, _, _, _, rfl, -⟩
      obtain ⟨hhanded, hssts⟩ := hsame w' hkept
      refine ⟨le_refl 2, ?_, by rw [hhanded]; exact hw⟩
      rw [hssts]
      exact hfresh o rfl rfl
    · rintro _ w' ⟨hkept, -⟩
      show ∀ p ∈ w'.handed, _
      rw [(hsame w' hkept).1]
      exact hw
  called h _ := Call.run_numbered _ _ ⟨h.two_le, h.below, h.unused⟩
  dropped := by
    intro db w env h _
    have hs : Sys.Numbered ⟨db, w.enter env⟩ := ⟨h.two_le, h.below, h.unused⟩
    exact (dropDb_numbered _ hs).mono (fun _ _ hs => hs.unused) (fun _ _ hs => hs.unused)

/-- In a run whose opens find no table numbered 2 or higher, no number handed
out for a table is the number of a table in the directory. -/
theorem handed_unused (len : CompressedLen) (run : List (Env × Action))
    (h : (State.init len).Along State.CountsFromFresh run) :
    ((State.init len).runs run).world.NoOverwrite := by
  have hinit : (State.init len).Holds Sys.Numbered World.NoOverwrite := fun p hp => (nomatch hp)
  have hrun := numbered_invariant.runs hinit h
  unfold State.Holds at hrun
  split at hrun
  · exact hrun.unused
  · exact hrun

def twoFlushes : List (Env × Action) :=
  [.openDb .plain, .call (.put [97] [1]), .call .flush, .call (.put [97] [2]), .call .flush].map
    (Env.calm, ·)

theorem handed_unused_twoFlushes :
    ((State.init .unused).runs twoFlushes).world.NoOverwrite ∧
      ((State.init .unused).runs twoFlushes).world.handed = [(3, false), (2, false)] := by
  refine ⟨handed_unused _ _ ⟨?_, ?_, ?_, ?_, ?_, trivial⟩, by decide +kernel⟩
  · exact fun o _ _ n hn => absurd hn (AList.notMem_empty n)
  all_goals exact fun o h => (nomatch h)

/-- A second session writes its first table over the one of the first. -/
theorem not_noOverwrite_reopened :
    ¬((State.init .unused).runs ([.openDb .plain, .call (.put [97] [1]), .call .flush, .drop,
      .openDb .plain, .call (.put [98] [2]), .call .flush].map (Env.calm, ·))).world.NoOverwrite := by
  unfold World.NoOverwrite
  decide +kernel

end AiDb
