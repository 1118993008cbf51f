import AiDb.Writes

/-!
# Invariants of the calls

Every call that does not write is made of four things: flushing one memtable,
compacting a picked task, work on the logs, and freezing. What these keep, the
calls keep, whether they return or stop.
-/

namespace AiDb

open Library Compaction

/-- `F` holds while memtables are flushed, `M` after that and in front of a compaction,
`I` in the end, and when a flush or a compaction stopped. -/
structure FlushRule (I M F : Sys → Prop) : Prop where
  flushed : ∀ s, F s → s.db.immutableMemtables = [] → M s
  settled : ∀ s, M s → I s
  logsBefore : ∀ s s', M s → s.Logs s' → M s'
  logs : ∀ s s', I s → s.Logs s' → I s'
  round : ∀ s m rest, F s → s.db.immutableMemtables = m :: rest →
    Triple (flushMemtableToSstable m) (s.popped rest) (fun _ => F) (fun _ => I)
  compact : ∀ s task, M s → pickCompaction s.db.options.maxLevels s.db.sstables = some (some task) →
    Triple (AiDb.compact task) s (fun _ => I) (fun _ => I)

theorem Keeps.of_logs {I : Sys → Prop} (h : ∀ s s', I s → s.Logs s' → I s') {m : M α}
    (hm : ∀ s0 : Sys, Keeps s0.Logs m) : Keeps I m := by
  intro s hs
  exact (hm s s (.refl s)).mono (fun _ _ hl => h s _ hs hl) (fun _ _ hl => h s _ hs hl)

/-- What one round keeps, the loop keeps, and it ends with an empty list. -/
theorem flushImmutables_empties {F : Sys → Prop} {E : Exit → Sys → Prop}
    (hround : ∀ s m rest, F s → s.db.immutableMemtables = m :: rest →
      Triple (flushMemtableToSstable m) (s.popped rest) (fun _ => F) E)
    (rounds : Nat) {s : Sys} (hs : F s) (hlen : s.db.immutableMemtables.length ≤ rounds) :
    Triple (flushImmutables rounds) s (fun _ s' => F s' ∧ s'.db.immutableMemtables = []) E := by
  induction rounds generalizing s with
  | zero => exact Triple.pure ⟨hs, by simpa using hlen⟩
  | succ rounds ih =>
    unfold flushImmutables
    refine Triple.get_bind ?_
    cases himm : s.db.immutableMemtables with
    | nil => exact Triple.pure ⟨hs, himm⟩
    | cons m rest =>
      refine Triple.modify_bind ?_
      refine (Triple.intro (fun n s1 h1 => ?_) (fun e s1 => (hround s m rest hs himm).error)).bind
        (Q := fun _ s1 => F s1 ∧ s1.db.immutableMemtables = rest) fun n s1 h1 => ih h1.1 ?_
      · refine ⟨(hround s m rest hs himm).ok h1, ?_⟩
        rcases (flushMemtableToSstable_spec m (s.popped rest)).ok h1 with ⟨-, hdb, -⟩ | ⟨-, f, r, -, -, hdb, -⟩
        · rw [hdb]; rfl
        · rw [hdb]; rfl
      · rw [h1.2]
        rw [himm] at hlen
        simpa using hlen

theorem flushTables_rule {I F : Sys → Prop} {s : Sys}
    (hround : ∀ s m rest, F s → s.db.immutableMemtables = m :: rest →
      Triple (flushMemtableToSstable m) (s.popped rest) (fun _ => F) (fun _ => I))
    (hflushed : ∀ s, F s → s.db.immutableMemtables = [] → I s) (hlogs : ∀ s s', I s → s.Logs s' → I s')
    (hs : F s.frozen) : Triple AiDb.flushTables s (fun _ => I) (fun _ => I) := by
  have hloop := flushMemtables_eq (flushImmutables_empties hround _ hs (le_refl _))
  refine (hloop.mono (fun _ _ hF => hflushed _ hF.1 hF.2) (fun _ _ => id)).bind fun _ s1 hs1 => ?_
  exact Keeps.of_logs hlogs (fun _ => rotateWal_logs) s1 hs1

theorem flushTables_returns {F : Sys → Prop} {s s' : Sys}
    (hround : ∀ s m rest n s', F s → s.db.immutableMemtables = m :: rest →
      flushMemtableToSstable m (s.popped rest) = .ok n s' → F s')
    (hlogs : ∀ s s', F s → s.Logs s' → F s') (hs : F s.frozen) (h : AiDb.flushTables s = .ok () s') : F s' := by
  have hloop := flushMemtables_eq (flushImmutables_empties (E := fun _ _ => True)
    (fun s m rest hF himm => Triple.returns fun n s' hr => hround s m rest n s' hF himm hr) _ hs (le_refl _))
  have hrun : Triple AiDb.flushTables s (fun _ => F) (fun _ _ => True) := by
    refine hloop.bind fun _ s1 hs1 => ?_
    exact (Keeps.of_logs hlogs (fun _ => rotateWal_logs) s1 hs1.1).mono (fun _ _ => id) fun _ _ _ => trivial
  exact hrun.ok h

namespace FlushRule

variable {I M F : Sys → Prop} {s : Sys}

theorem maybeTriggerCompaction (h : FlushRule I M F) (hs : M s) :
    Triple AiDb.maybeTriggerCompaction s (fun _ => I) (fun _ => I) := by
  unfold AiDb.maybeTriggerCompaction
  refine Triple.get_bind ?_
  dsimp only
  split
  · exact Triple.throw (h.settled s hs)
  · exact Triple.pure (h.settled s hs)
  · rename_i task hpick
    exact h.compact s task hs hpick

theorem flush (h : FlushRule I M F) (hs : F s.frozen) : Triple AiDb.flush s (fun _ => I) (fun _ => I) := by
  have hloop := flushMemtables_eq (flushImmutables_empties h.round _ hs (le_refl _))
  refine (hloop.mono (fun _ _ hF => h.flushed _ hF.1 hF.2) (fun _ _ => id)).bind fun _ s1 hs1 => ?_
  have hrotate := Keeps.of_logs h.logsBefore (fun _ => rotateWal_logs) s1 hs1
  exact (hrotate.mono (fun _ _ => id) (fun _ _ => h.settled _)).bind fun _ s2 hs2 => h.maybeTriggerCompaction hs2

theorem close (h : FlushRule I M F) (hs : F s.frozen) : Triple AiDb.close s (fun _ => I) (fun _ => I) := by
  refine (h.flush hs).bind fun _ s1 hs1 => Triple.get_bind ?_
  split
  · exact Keeps.of_logs h.logs (fun _ => walSync_logs) s1 hs1
  · exact Triple.pure hs1

theorem dropDb (h : FlushRule I M F) (hs : F s.frozen) : Triple AiDb.dropDb s (fun _ => I) (fun _ => I) := by
  have hflush : Triple (ignoreError AiDb.flush) s (fun _ => I) (fun _ => I) := by
    have hf := h.flush hs
    unfold Triple at hf ⊢
    unfold ignoreError
    cases hr : AiDb.flush s with
    | ok a s1 => rw [hr] at hf; exact hf
    | error e s1 => rw [hr] at hf; cases e <;> exact hf
  have hbuf : Keeps I (ignoreError flushBuf) := ignoreError_keeps (Keeps.of_logs h.logs fun _ => flushBuf_logs)
  have hsync : Keeps I (ignoreError walSync) := ignoreError_keeps (Keeps.of_logs h.logs fun _ => walSync_logs)
  refine hflush.bind fun _ s1 hs1 => Triple.get_bind ?_
  exact Keeps.ite (hsync.bind fun _ => hbuf) hbuf s1 hs1

end FlushRule

/-- The common case: a compaction needs nothing that is not kept anyway. -/
structure CallRule (I F : Sys → Prop) : Prop where
  weaken : ∀ s, F s → I s
  logs : ∀ s s', I s → s.Logs s' → I s'
  round : ∀ s m rest, F s → s.db.immutableMemtables = m :: rest →
    Triple (flushMemtableToSstable m) (s.popped rest) (fun _ => F) (fun _ => I)
  compact : ∀ s task, I s → pickCompaction s.db.options.maxLevels s.db.sstables = some (some task) →
    Triple (AiDb.compact task) s (fun _ => I) (fun _ => I)

namespace CallRule

variable {I F : Sys → Prop} {s : Sys}

theorem flushRule (h : CallRule I F) : FlushRule I I F :=
  ⟨fun s hF _ => h.weaken s hF, fun _ => id, h.logs, h.logs, h.round, h.compact⟩

theorem dropDb (h : CallRule I F) (hs : F s.frozen) : Triple AiDb.dropDb s (fun _ => I) (fun _ => I) :=
  h.flushRule.dropDb hs

theorem call (h : CallRule I F) {c : Call} (hc : ¬c.IsWrite) (hI : I s) (hF : F s.frozen) :
    Triple c.run s (fun _ => I) (fun _ => I) := by
  cases c with
  | flushTables => exact flushTables_rule h.round (fun s hF _ => h.weaken s hF) h.logs hF
  | maybeTriggerCompaction => exact h.flushRule.maybeTriggerCompaction hI
  | flush => exact h.flushRule.flush hF
  | close => exact h.flushRule.close hF
  | _ => exact absurd trivial hc

end CallRule

/-- The same for what depends on the logs: it is kept by each thing the log programs do. -/
structure KeepRule (I : Sys → Prop) : Prop where
  logs : LogRule (fun _ => False) I
  freeze : ∀ s, I s → I s.freeze
  round : ∀ s m rest, I s → s.db.immutableMemtables = m :: rest →
    Triple (flushMemtableToSstable m) (s.popped rest) (fun _ => I) (fun _ => I)
  compact : ∀ s task, I s → pickCompaction s.db.options.maxLevels s.db.sstables = some (some task) →
    Triple (AiDb.compact task) s (fun _ => I) (fun _ => I)

namespace KeepRule

variable {I : Sys → Prop}

theorem flushMemtables (h : KeepRule I) : Keeps I AiDb.flushMemtables := by
  intro s hs
  have hfrozen : I s.frozen := by
    unfold Sys.frozen
    split
    · exact hs
    · exact h.freeze s hs
  exact flushMemtables_eq (flushImmutables_rule h.round _ hfrozen)

theorem flushTables (h : KeepRule I) : Keeps I AiDb.flushTables :=
  h.flushMemtables.bind fun _ => h.logs.rotateWal

theorem maybeTriggerCompaction (h : KeepRule I) : Keeps I AiDb.maybeTriggerCompaction := by
  intro s hs
  unfold AiDb.maybeTriggerCompaction
  refine Triple.get_bind ?_
  dsimp only
  split
  · exact Triple.throw hs
  · exact Triple.pure hs
  · rename_i task hpick
    exact h.compact s task hs hpick

theorem flush (h : KeepRule I) : Keeps I AiDb.flush :=
  h.flushMemtables.bind fun _ => h.logs.rotateWal.bind fun _ => h.maybeTriggerCompaction

theorem dropDb (h : KeepRule I) : Keeps I AiDb.dropDb := by
  have hbuf := ignoreError_keeps h.logs.flushBuf
  refine (ignoreError_keeps h.flush).bind fun _ => Keeps.get.bind fun s => Keeps.ite ?_ hbuf
  exact (ignoreError_keeps h.logs.walSync).bind fun _ => hbuf

theorem call (h : KeepRule I) {c : Call} (hc : ¬c.IsWrite) : Keeps I c.run := by
  cases c with
  | flushTables => exact h.flushTables
  | maybeTriggerCompaction => exact h.maybeTriggerCompaction
  | flush => exact h.flush
  | close => exact h.flush.bind fun _ => Keeps.get.bind fun s => Keeps.ite h.logs.walSync Keeps.pure
  | _ => exact absurd trivial hc

end KeepRule

end AiDb
