import AiDb.ReadErrors

/-!
# The output of a compaction job

With inputs that can be read, `CompactionJob::run` hands its builder keys that
strictly ascend, so that only a file operation can stop it, and its output is
the newest version of every key without the tombstones.
-/

namespace AiDb

open Library Compaction

variable {w : World} {n : Nat} {inputs : List SSTableReader}

/-- The inputs of a job that writes table `n`: all can be read, before and after
the file of the output is created. -/
structure World.Feeds (w : World) (n : Nat) (inputs : List SSTableReader) : Prop where
  serves : ∀ r ∈ inputs, ∃ f, w.disk.Serves r f
  readable : ∀ r ∈ inputs, ∀ off, w.unreadable r.file off = false
  apart : ∀ r ∈ inputs, w.disk.ssts.lookup n ≠ some r.file

/-- The entry is the version of its key in the first input that holds the key,
and no tombstone. -/
def Survives (inputs : List (List Entry)) (e : Entry) : Prop :=
  e.value.bytes ≠ [] ∧ firstStored inputs e.key = some e.value

def Exit.fromDisk (e : Exit) : Prop := e = .error (.io .other) ∨ e = .crash

-- ---------------------------------------------------------------------------
-- The builder
-- ---------------------------------------------------------------------------

theorem fileOp_fromDisk {done : World → World} {cut : Nat → World → World} (w : World) :
    Triple (fileOp done cut) w (fun _ _ => True) (fun e _ => e.fromDisk) := by
  have hnext : Triple nextFault w (fun _ _ => True) (fun _ _ => False) :=
    (nextFault_spec (World.At.refl w)).mono (fun _ _ _ => trivial) fun _ _ => id
  refine (hnext.mono (fun _ _ => id) fun _ _ => False.elim).bind ?_
  rintro fault w' -
  cases fault with
  | none => exact trivial
  | fail n => exact .inl rfl
  | crash n => exact .inr rfl

theorem addEntries_fromDisk {b : SSTableBuilder} (hb : b.Holds es) (hasc : Ascending (es ++ es')) (w : World) :
    Triple (addEntries b es') w (fun _ _ => True) (fun e _ => e.fromDisk) := by
  induction es' generalizing b es w with
  | nil => exact trivial
  | cons e es' ih =>
    obtain ⟨b', hadd⟩ : ∃ b', b.add w.compressedLen e = .ok b' := by
      refine hb.add_ok w.compressedLen (hasc.key_ne e (by simp)) fun x hx => ?_
      exact (List.pairwise_append.mp hasc.sorted).2.2 x hx e List.mem_cons_self
    have hrest : ∀ w, Triple (addEntries b' es') w (fun _ _ => True) (fun e _ => e.fromDisk) :=
      ih (hb.add hadd) (by simpa using hasc)
    unfold addEntries
    have hentry : Triple (addEntry b e) w (fun b'' _ => b'' = b') (fun e _ => e.fromDisk) := by
      unfold addEntry
      refine Triple.get_bind ?_
      rw [hadd, liftExcept_ok, pure_bind]
      split
      · exact (fileOp_fromDisk w).bind fun _ _ _ => Triple.pure rfl
      · exact Triple.pure rfl
    refine hentry.bind ?_
    rintro _ w' rfl
    exact hrest w'

theorem writeTable_fromDisk (hasc : Ascending es) (blockSize : Nat) (c : CompressionType) (w : World) :
    Triple (writeTable n blockSize c es) w (fun _ _ => True) (fun e _ => e.fromDisk) := by
  unfold writeTable
  refine (addEntries_fromDisk (SSTableBuilder.holds_new blockSize c) (by simpa using hasc) w).bind ?_
  rintro b w' -
  split
  · unfold removeSstIfExists
    refine Triple.get_bind ?_
    split
    · exact fileOp_fromDisk w'
    · exact trivial
  · exact fileOp_fromDisk w'

-- ---------------------------------------------------------------------------
-- The job
-- ---------------------------------------------------------------------------

theorem World.Feeds.inputRead_eq (h : w.Feeds n inputs) {w' : World} (hw : w.At (w.disk.createSst n) w') :
    inputRead w' inputs = inputRead w inputs := by
  rw [hw.inputRead_eq]
  funext i handle
  unfold inputRead
  cases hi : inputs[i]? with
  | none => rfl
  | some r =>
    have hr := List.mem_of_getElem? hi
    obtain ⟨f, hf⟩ := h.serves r hr
    have hfile : (w.disk.createSst n).files[r.file]? = w.disk.files[r.file]? := by
      have hlt := (List.getElem?_eq_some_iff.mp hf.content).1
      unfold Disk.createSst
      cases hl : w.disk.ssts.lookup n with
      | none => exact List.getElem?_append_left hlt
      | some file =>
        refine List.getElem?_set_ne ?_
        rintro rfl
        exact h.apart r hr hl
    simp only [World.readBlock, hfile]

theorem World.Feeds.merge (h : w.Feeds n inputs) (lvl : Nat) {w' : World} (hw : w.At (w.disk.createSst n) w') :
    ∃ merged, jobMerge w w' inputs = .ok merged ∧ Ascending (survivors lvl none merged) ∧
      (1 ≤ lvl → ∀ e, e ∈ survivors lvl none merged ↔ Survives (inputs.map w.disk.entriesOf) e) := by
  obtain ⟨merged, hmerge, hasc, hstored⟩ := World.jobMerge_ok h.serves h.readable (h.inputRead_eq hw)
  refine ⟨merged, hmerge, hasc, fun hlvl e => ?_⟩
  have hkept : stored (survivors lvl none merged) e.key = live (firstStored (inputs.map w.disk.entriesOf) e.key) := by
    rw [hstored, Compaction.kept, if_pos (show lvl > 0 from hlvl)]
  have hmem : e ∈ survivors lvl none merged ↔ stored (survivors lvl none merged) e.key = some e.value :=
    ⟨hasc.stored_of_mem, mem_of_stored⟩
  rw [hmem, hkept, live_eq_some]
  rfl

theorem runJob_fromDisk (hin : w.Feeds n inputs) (lvl blockSize : Nat) :
    Triple (runJob inputs lvl blockSize n) w (fun _ _ => True) (fun e _ => e.fromDisk) := by
  obtain ⟨m, hnew⟩ := (w.opened hin.serves hin.readable).1.new_ok (w.opened hin.serves hin.readable).2
  unfold runJob
  refine Triple.get_bind ?_
  rw [hnew, liftExcept_ok, pure_bind]
  have hcreate : Triple (createSst n) w (fun _ => w.At (w.disk.createSst n)) (fun e _ => e.fromDisk) :=
    ((createSst_spec n (World.At.refl w)).and (fileOp_fromDisk w)).mono (fun _ _ h => h.1) fun _ _ h => h.2
  refine hcreate.bind ?_
  rintro _ w' hw'
  refine Triple.get_bind ?_
  obtain ⟨merged, hmerge, hasc, -⟩ := hin.merge lvl hw'
  simp only [jobMerge, hnew, Except.map, Except.ok.injEq] at hmerge
  rw [hmerge]
  exact (writeTable_fromDisk hasc blockSize .none w').bind fun _ _ _ => Triple.pure trivial

/-- Whatever becomes of its file operations, a job over readable inputs is never
stopped by its builder, and when it returns, its output holds what survives of
the inputs in ascending order; there is no output where nothing survives. -/
theorem runJob_output (hin : w.Feeds n inputs) (hd : w.disk.Linked) (hlvl : 1 ≤ lvl) (blockSize : Nat) :
    Triple (runJob inputs lvl blockSize n) w
      (fun res w' => ((w'.disk.tableEntries n).Pairwise fun a b => a.key < b.key) ∧
        (∀ e, e ∈ w'.disk.tableEntries n ↔ Survives (inputs.map w.disk.entriesOf) e) ∧
        ((∃ e, Survives (inputs.map w.disk.entriesOf) e) → res.fileNumber = n) ∧
        ((∀ e, ¬Survives (inputs.map w.disk.entriesOf) e) → res.fileNumber = 0 ∧ n ∉ w'.disk.ssts))
      (fun e _ => w.faults ≠ [] ∧ e.fromDisk) := by
  have hcreated : w.At (w.disk.createSst n) { w with disk := w.disk.createSst n } :=
    ⟨w.faults, w.arcs, le_refl _, id, rfl⟩
  obtain ⟨merged, hmerge, hasc, hsurvives⟩ := hin.merge lvl hcreated
  replace hsurvives := hsurvives hlvl
  refine ((runJob_spec inputs lvl blockSize n (World.At.refl w)).and (runJob_fromDisk hin lvl blockSize)).mono ?_ ?_
  · rintro res w' ⟨⟨merged', hmerge', hres⟩, -⟩
    obtain rfl : merged = merged' := Except.ok.inj (hmerge.symm.trans hmerge')
    rcases hres with ⟨hes, hzero, hat⟩ | ⟨hes, hnum, f, -, hentries, hat⟩
    · rw [hes] at hsurvives
      have hnone : ∀ e, ¬Survives (inputs.map w.disk.entriesOf) e := fun e he => List.not_mem_nil ((hsurvives e).mpr he)
      rw [hat.disk_eq, Disk.tableEntries_removeSst]
      exact ⟨.nil, hsurvives, fun ⟨e, he⟩ => absurd he (hnone e), fun _ => ⟨hzero, by simp [Disk.removeSst]⟩⟩
    · rw [hat.disk_eq, Disk.tableEntries_withSst hd, hentries]
      obtain ⟨e, he⟩ := List.exists_mem_of_ne_nil _ hes
      exact ⟨hasc.sorted, hsurvives, fun _ => hnum, fun hnone => absurd ((hsurvives e).mp he) (hnone e)⟩
  · rintro e w' ⟨hspec, hdisk⟩
    refine ⟨fun hcalm => ?_, hdisk⟩
    rcases hspec with ⟨-, hfail⟩ | ⟨-, merged', hmerge', hnot⟩
    · obtain ⟨err, herr⟩ := hfail hcalm
      have := hmerge.symm.trans herr
      cases this
    · obtain rfl : merged = merged' := Except.ok.inj (hmerge.symm.trans hmerge')
      exact hnot hcalm hasc

theorem runJob_output_twoTables : ∃ s : Sys, s.world.disk.Linked ∧ s.level0Task.inputs.length = 2 ∧
    Triple (runJob s.level0Task.inputs 1 s.db.options.blockSize s.db.nextFileNumber) s.world
      (fun res w' => ((w'.disk.tableEntries s.db.nextFileNumber).Pairwise fun a b => a.key < b.key) ∧
        (∀ e, e ∈ w'.disk.tableEntries s.db.nextFileNumber ↔
          Survives (s.level0Task.inputs.map s.world.disk.entriesOf) e) ∧
        ((∃ e, Survives (s.level0Task.inputs.map s.world.disk.entriesOf) e) → res.fileNumber = s.db.nextFileNumber) ∧
        ((∀ e, ¬Survives (s.level0Task.inputs.map s.world.disk.entriesOf) e) →
          res.fileNumber = 0 ∧ s.db.nextFileNumber ∉ w'.disk.ssts))
      (fun e _ => s.world.faults ≠ [] ∧ e.fromDisk) := by
  have hrun : (Sys.session .unused .plain [.put [97] [1], .put [98] [2], .flushTables, .delete [97],
      .put [99] [3], .flushTables]).map (fun s => decide (s.world.disk.Linked ∧ s.level0Task.inputs.length = 2 ∧
        ∀ r ∈ s.level0Task.inputs, r ∈ s.db.sstables.flatten ∧
          s.world.disk.ssts.lookup s.db.nextFileNumber ≠ some r.file)) = some true := by
    decide +kernel
  obtain ⟨s, hs, hd⟩ := Option.map_eq_some_iff.mp hrun
  obtain ⟨hlinked, htwo, hin⟩ := of_decide_eq_true hd
  have hserving := (Sys.session_sound hs).serving
  exact ⟨s, hlinked, htwo, runJob_output
    ⟨fun r hr => hserving.serves r (hin r hr).1, fun r _ off => hserving.readable r.file off, fun r hr => (hin r hr).2⟩
    hlinked (le_refl 1) s.db.options.blockSize⟩

end AiDb
