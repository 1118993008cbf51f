import AiDb.Store

/-!
# What a compaction does to the tables

On readable tables a compaction writes, for every key, the version of the first
input that holds it, without the tombstones. The picker hands it all of level 0,
or the first table of a deeper level.
-/

namespace AiDb

open Library Compaction

-- ---------------------------------------------------------------------------
-- The output
-- ---------------------------------------------------------------------------

def Disk.fileOf (d : Disk) (r : SSTableReader) : SstFile :=
  match d.files[r.file]? with
  | some (.complete f) => f
  | _ => ⟨[], [], 0⟩

variable {d : Disk} {s : Sys}

theorem Disk.Serves.fileOf_eq (h : d.Serves r f) : d.fileOf r = f := by
  rw [Disk.fileOf, h.content]

/-- Reads of the inputs do not see files that are created later. -/
theorem Sys.Grown.inputRead_eq {s s' : Sys} (hg : s.Grown s') (hin : ∀ r ∈ inputs, ∃ f, s.world.disk.Serves r f) :
    inputRead s'.world inputs = inputRead s.world inputs := by
  funext i handle
  unfold inputRead
  cases hi : inputs[i]? with
  | none => rfl
  | some r =>
    obtain ⟨f, hf⟩ := hin r (List.mem_of_getElem? hi)
    simp only [World.readBlock, hg.unreadable, hf.content, (hg.serves hf).content]

theorem World.opened {w : World} (hin : ∀ r ∈ inputs, ∃ f, w.disk.Serves r f)
    (hread : ∀ r ∈ inputs, ∀ off, w.unreadable r.file off = false) :
    Opened (inputRead w inputs) inputs (inputs.map w.disk.fileOf) ∧
      ∀ (i : Nat) (f : SstFile), (inputs.map w.disk.fileOf)[i]? = some f → f.ReadBy (inputRead w inputs i) := by
  have hget : ∀ (i : Nat) (f : SstFile), (inputs.map w.disk.fileOf)[i]? = some f →
      ∃ r, inputs[i]? = some r ∧ w.disk.Serves r f := by
    intro i f hf
    rw [List.getElem?_map, Option.map_eq_some_iff] at hf
    obtain ⟨r, hr, rfl⟩ := hf
    obtain ⟨f, hf⟩ := hin r (List.mem_of_getElem? hr)
    exact ⟨r, hr, by rw [hf.fileOf_eq]; exact hf⟩
  have hall : ∀ (i : Nat) (f : SstFile), (inputs.map w.disk.fileOf)[i]? = some f →
      f.ReadBy (inputRead w inputs i) := by
    intro i f hf
    obtain ⟨r, hr, hserves⟩ := hget i f hf
    have := w.readBy hserves (hread r (List.mem_of_getElem? hr))
    simpa [inputRead, hr] using this
  refine ⟨⟨by simp, ?_, ?_, fun i f hf => (hall i f hf).partly⟩, hall⟩
  · intro i r f hr hf
    obtain ⟨r', hr', hserves⟩ := hget i f hf
    rw [hr] at hr'
    cases hr'
    exact hserves.of
  · intro f hf
    obtain ⟨r, hr, rfl⟩ := List.mem_map.mp hf
    obtain ⟨f, hf⟩ := hin r hr
    rw [hf.fileOf_eq]
    exact hf.wellFormed

def firstStored (inputs : List (List Entry)) (key : Bytes) : Option Value :=
  inputs.findSome? fun es => stored es key

theorem World.jobMerge_stored {w w' : World} (hin : ∀ r ∈ inputs, ∃ f, w.disk.Serves r f)
    (hread : ∀ r ∈ inputs, ∀ off, w.unreadable r.file off = false)
    (hsame : inputRead w' inputs = inputRead w inputs) :
    ∃ merged, jobMerge w w' inputs = .ok merged ∧ From none merged ∧
      (∀ lvl, Ascending (survivors lvl none merged)) ∧
      ∀ key, stored merged key = firstStored (inputs.map w.disk.entriesOf) key := by
  obtain ⟨hopened, hall⟩ := w.opened hin hread
  obtain ⟨m, hnew⟩ := hopened.new_ok hall
  refine ⟨m.collect (inputRead w inputs) (mergeFuel (inputRead w inputs) inputs), ?_,
    ⟨hopened.collect_sorted hnew (le_refl _), by simp⟩, fun lvl => hopened.survivors_ascending hnew (le_refl _),
    fun key => ?_⟩
  · rw [jobMerge, hnew, hsame]
    rfl
  rw [hopened.stored_collect_readBy hall hnew (le_refl _), firstStored, List.findSome?_map, List.findSome?_map]
  refine findSome_congr fun r hr => ?_
  obtain ⟨f, hf⟩ := hin r hr
  simp only [Function.comp_apply, hf.fileOf_eq, hf.entriesOf_eq]

theorem World.jobMerge_ok {w w' : World} (hin : ∀ r ∈ inputs, ∃ f, w.disk.Serves r f)
    (hread : ∀ r ∈ inputs, ∀ off, w.unreadable r.file off = false)
    (hsame : inputRead w' inputs = inputRead w inputs) :
    ∃ merged, jobMerge w w' inputs = .ok merged ∧ Ascending (survivors lvl none merged) ∧
      ∀ key, stored (survivors lvl none merged) key =
        Compaction.kept lvl (firstStored (inputs.map w.disk.entriesOf) key) := by
  obtain ⟨merged, hmerge, hfrom, hasc, hstored⟩ := w.jobMerge_stored hin hread hsame
  exact ⟨merged, hmerge, hasc lvl, fun key => by rw [stored_survivors hfrom (by simp), hstored]⟩

theorem Sys.Intact.jobMerge_ok {task : CompactionTask} (hs : s.Intact) (hread : ∀ file off, s.world.unreadable file off = false)
    (hunused : s.db.nextFileNumber ∉ s.world.disk.ssts) (hin : ∀ r ∈ task.inputs, r ∈ s.db.sstables.flatten) :
    ∃ merged, jobMerge s.world { s.world with disk := s.world.disk.createSst s.db.nextFileNumber } task.inputs = .ok merged ∧
      From none merged ∧ ∀ key, stored merged key = firstStored (task.inputs.map s.world.disk.entriesOf) key := by
  have hserves : ∀ r ∈ task.inputs, ∃ f, s.world.disk.Serves r f := fun r hr => hs.serves r (hin r hr)
  have hg : s.Grown { s with world := { s.world with
      disk := s.world.disk.createSst s.db.nextFileNumber } } := by
    refine ⟨rfl, le_refl _, [.incomplete], ?_⟩
    show (s.world.disk.createSst s.db.nextFileNumber).files = _
    rw [Disk.createSst_unused hunused]
  obtain ⟨merged, hmerge, hfrom, -, hstored⟩ := World.jobMerge_stored hserves (fun r _ => hread r.file)
    (hg.inputRead_eq hserves)
  exact ⟨merged, hmerge, hfrom, hstored⟩

theorem Sys.Intact.jobEntries_ok (hs : s.Intact) (hread : ∀ file off, s.world.unreadable file off = false)
    (hunused : s.db.nextFileNumber ∉ s.world.disk.ssts) (hin : ∀ r ∈ task.inputs, r ∈ s.db.sstables.flatten) :
    ∃ es, s.jobEntries task = .ok es ∧
      ∀ key, stored es key =
        Compaction.kept task.outputLevel (firstStored (task.inputs.map s.world.disk.entriesOf) key) := by
  obtain ⟨merged, hmerge, hfrom, hstored⟩ := hs.jobMerge_ok hread hunused hin
  refine ⟨survivors task.outputLevel none merged, ?_, fun key => by rw [stored_survivors hfrom (by simp), hstored]⟩
  show (jobMerge s.world { s.world with disk := _ } task.inputs).map _ = _
  rw [hmerge]
  rfl

-- ---------------------------------------------------------------------------
-- Picking
-- ---------------------------------------------------------------------------

/-- The levels before and after a compaction of `inputs` into `out`: all of
level 0, or the first table of a deeper level. -/
inductive Compacts (inputs : List α) (out : α) : (level : Nat) → List (List α) → List (List α) → Prop
  | level0 : Compacts inputs out 0 (inputs :: next :: below) ([] :: (next ++ [out]) :: below)
  | deeper : inputs = [x] → Compacts inputs out (above.length + 1)
      (l0 :: (above ++ (x :: rest) :: next :: below)) (l0 :: (above ++ rest :: (next ++ [out]) :: below))

theorem Compacts.level0_inv (h : Compacts inputs out 0 levels levels') :
    ∃ next below, levels = inputs :: next :: below ∧ levels' = [] :: (next ++ [out]) :: below := by
  cases h
  exact ⟨_, _, rfl, rfl⟩

theorem Compacts.deeper_inv (h : Compacts [x] out level levels levels') (hl : 0 < level) :
    ∃ l0 above rest next below, levels = l0 :: (above ++ (x :: rest) :: next :: below) ∧
      levels' = l0 :: (above ++ rest :: (next ++ [out]) :: below) := by
  cases h with
  | level0 => exact absurd hl (lt_irrefl 0)
  | deeper hx =>
    cases hx
    exact ⟨_, _, _, _, _, rfl, rfl⟩

theorem Compacts.map (f : α → β) (h : Compacts inputs out level levels levels') :
    Compacts (inputs.map f) (f out) level (levels.map (·.map f)) (levels'.map (·.map f)) := by
  cases h with
  | level0 => simpa using .level0
  | @deeper x l0 above rest next below hx =>
    subst hx
    have h : Compacts [f x] (f out) ((above.map (·.map f)).length + 1)
        (l0.map f :: (above.map (·.map f) ++ (f x :: rest.map f) :: next.map f :: below.map (·.map f)))
        (l0.map f :: (above.map (·.map f) ++ rest.map f :: (next.map f ++ [f out]) :: below.map (·.map f))) :=
      .deeper rfl
    simpa using h

theorem pickLoop_cases (h : pickLoop levels rounds level = some (some task)) :
    ∃ i r rest, level ≤ i ∧ levels[i]? = some (r :: rest) ∧ task = ⟨[r], i, i + 1⟩ := by
  induction rounds generalizing level with
  | zero => simp [pickLoop] at h
  | succ rounds ih =>
    simp only [pickLoop, Option.bind_eq_bind, Option.bind_eq_some_iff] at h
    obtain ⟨target, -, h⟩ := h
    split_ifs at h with hsize
    · simp only [Option.pure_def, Option.some.injEq] at h
      unfold pickLevelCompaction at h
      cases hl : levels.getD level [] with
      | nil => rw [hl] at h; cases h
      | cons r rest =>
        simp only [hl, Option.some.injEq] at h
        refine ⟨level, r, rest, le_refl level, ?_, h.symm⟩
        rw [List.getD_eq_getElem?_getD] at hl
        cases hget : levels[level]? with
        | none => simp [hget] at hl
        | some l => simpa [hget] using hl
    · obtain ⟨i, r, rest, hle, hi⟩ := ih h
      exact ⟨i, r, rest, by omega, hi⟩

theorem pickCompaction_cases (h : pickCompaction maxLevels levels = some (some task)) :
    (∃ l ls, levels = l :: ls ∧ maxLevel0Files ≤ l.length ∧ task = ⟨l, 0, 1⟩) ∨
      (levels.headD []).length < maxLevel0Files ∧
        ∃ i r rest, 0 < i ∧ levels[i]? = some (r :: rest) ∧ task = ⟨[r], i, i + 1⟩ := by
  unfold pickCompaction at h
  split_ifs at h with hfiles
  · left
    cases levels with
    | nil => simp [pickLevel0Compaction] at h
    | cons l ls =>
      refine ⟨l, ls, rfl, hfiles, ?_⟩
      cases l with
      | nil => simp [pickLevel0Compaction] at h
      | cons r rs =>
        simp only [pickLevel0Compaction, List.headD_cons, Option.some.injEq] at h
        exact h.symm
  · obtain ⟨i, r, rest, hle, hi⟩ := pickLoop_cases h
    exact .inr ⟨not_le.mp hfiles, i, r, rest, hle, hi⟩

theorem pickCompaction_none (h : pickCompaction maxLevels levels = some none) :
    (levels.headD []).length < maxLevel0Files := by
  by_contra hfiles
  rw [pickCompaction, if_pos (not_lt.mp hfiles)] at h
  unfold pickLevel0Compaction at h
  cases hl : levels.headD [] with
  | nil => rw [hl] at hfiles; exact hfiles (by decide)
  | cons r rs => rw [hl] at h; cases h

theorem picked_mem (h : pickCompaction maxLevels levels = some (some task)) :
    ∀ r ∈ task.inputs, r ∈ levels.flatten := by
  rcases pickCompaction_cases h with ⟨l, ls, rfl, -, rfl⟩ | ⟨-, i, x, rest, -, hx, rfl⟩
  · exact fun r hr => List.mem_append_left _ hr
  · intro r hr
    rw [List.mem_singleton.mp hr]
    exact List.mem_flatten.mpr ⟨_, List.mem_of_getElem? hx, List.mem_cons_self⟩

theorem modify_append_length (as bs : List α) (i : Nat) :
    (as ++ bs).modify (as.length + i) f = as ++ bs.modify i f := by
  induction as with
  | nil => simp
  | cons a as ih =>
    rw [List.length_cons, Nat.add_right_comm]
    exact congrArg (a :: ·) ih

theorem filter_inputs {inputs rest : List SSTableReader}
    (harcs : ((inputs ++ rest).map SSTableReader.arc).Nodup) :
    (inputs ++ rest).filter (fun r => !inputs.any fun input => r.arc = input.arc) = rest := by
  rw [List.map_append, List.nodup_append] at harcs
  rw [List.filter_append, List.filter_eq_nil_iff.mpr, List.filter_eq_self.mpr, List.nil_append]
  · intro r hr
    simp only [Bool.not_eq_eq_eq_not, Bool.not_true, List.any_eq_false, decide_eq_true_eq]
    intro x hx heq
    exact harcs.2.2 x.arc (List.mem_map_of_mem hx) r.arc (List.mem_map_of_mem hr) heq.symm
  · intro r hr
    simp only [Bool.not_eq_eq_eq_not, Bool.not_true, Bool.not_eq_false, List.any_eq_true,
      decide_eq_true_eq]
    exact ⟨r, hr, rfl⟩

theorem updateLevels_compacts (h : pickCompaction maxLevels levels = some (some task))
    (harcs : (levels.flatten.map SSTableReader.arc).Nodup) (hout : task.outputLevel < levels.length)
    (r : SSTableReader) : Compacts task.inputs r task.level levels (updateLevels task r levels) := by
  rcases pickCompaction_cases h with ⟨l, ls, rfl, -, rfl⟩ | ⟨-, i, x, rest, hi, hx, rfl⟩
  · cases ls with
    | nil => simp at hout
    | cons next below =>
      have hfilter := @filter_inputs l []
        (by rw [List.append_nil]; exact (List.nodup_append.mp (by simpa using harcs)).1)
      simp only [updateLevels, List.modify_zero_cons, List.modify_succ_cons]
      rw [List.append_nil] at hfilter
      rw [hfilter]
      exact .level0
  · obtain ⟨above, tail, rfl, rfl⟩ : ∃ above tail, levels = above ++ (x :: rest) :: tail ∧ above.length = i := by
      obtain ⟨hlt, hget⟩ := List.getElem?_eq_some_iff.mp hx
      refine ⟨levels.take i, levels.drop (i + 1), ?_, by simp; omega⟩
      rw [← hget, List.getElem_cons_drop, List.take_append_drop]
    cases tail with
    | nil => simp at hout
    | cons next below =>
      have hlevel : (((x :: rest) : List SSTableReader).map SSTableReader.arc).Nodup := by
        rw [List.flatten_append, List.flatten_cons, List.map_append, List.map_append] at harcs
        exact (List.nodup_append.mp (List.nodup_append.mp harcs).2.1).1
      have hfilter := @filter_inputs [x] rest hlevel
      have hmodify : ∀ f (bs : Levels), (above ++ bs).modify above.length f = above ++ bs.modify 0 f :=
        fun f bs => modify_append_length above bs 0
      simp only [updateLevels]
      rw [hmodify, modify_append_length above _ 1]
      simp only [List.modify_zero_cons, List.modify_succ_cons]
      rw [List.singleton_append] at hfilter
      rw [hfilter, if_neg (by omega)]
      obtain ⟨l0, above, rfl⟩ := List.exists_cons_of_length_pos hi
      exact .deeper rfl

theorem Compacts.perm (h : Compacts inputs out level levels levels') :
    ∃ others, levels.flatten.Perm (inputs ++ others) ∧ levels'.flatten.Perm (out :: others) := by
  cases h with
  | @level0 next below =>
    refine ⟨next ++ below.flatten, by simp, ?_⟩
    simp only [List.flatten_cons, List.nil_append, List.append_assoc, List.singleton_append]
    exact List.perm_middle
  | @deeper x l0 above rest next below hx =>
    refine ⟨l0 ++ (above.flatten ++ (rest ++ (next ++ below.flatten))), ?_, ?_⟩
    · subst hx
      simp only [List.flatten_append, List.flatten_cons, List.cons_append, List.nil_append]
      exact (List.Perm.append_left _ List.perm_middle).trans List.perm_middle
    · simp only [List.flatten_append, List.flatten_cons, List.append_assoc, List.singleton_append]
      refine List.Perm.trans (List.Perm.append_left _ ?_) List.perm_middle
      refine List.Perm.trans (List.Perm.append_left _ ?_) List.perm_middle
      exact (List.Perm.append_left _ List.perm_middle).trans List.perm_middle

theorem Compacts.mem_tail (h : Compacts inputs out level levels levels') (hx : x ∈ levels'.tail.flatten) :
    x = out ∨ x ∈ levels.tail.flatten := by
  cases h with
  | level0 =>
    simp only [List.tail_cons, List.flatten_cons, List.mem_append, List.mem_singleton] at hx ⊢
    tauto
  | deeper =>
    simp only [List.cons_append, List.tail_cons, List.flatten_append, List.flatten_cons, List.mem_append,
      List.mem_cons, List.not_mem_nil, or_false] at hx ⊢
    tauto

-- ---------------------------------------------------------------------------
-- A compaction that returns
-- ---------------------------------------------------------------------------

theorem pickCompaction_outputLevel (h : pickCompaction maxLevels levels = some (some task)) : 0 < task.outputLevel := by
  rcases pickCompaction_cases h with ⟨_, _, -, -, rfl⟩ | ⟨-, i, _, _, -, -, rfl⟩
  · exact Nat.one_pos
  · exact Nat.succ_pos i

theorem Sys.jobEntries_live (h : s.jobEntries task = .ok es) (hout : 0 < task.outputLevel) :
    ∀ e ∈ es, e.value.bytes ≠ [] := by
  unfold Sys.jobEntries at h
  intro e he
  cases hm : jobMerge s.world { s.world with disk := s.world.disk.createSst s.db.nextFileNumber } task.inputs with
  | error e => simp [hm, Except.map] at h
  | ok merged =>
    simp only [hm, Except.map, Except.ok.injEq] at h
    subst h
    exact (mem_survivors he).2 hout

theorem Sys.Compacted.intact (hs : s.Intact) (hunused : s.db.nextFileNumber ∉ s.world.disk.ssts)
    (hpick : pickCompaction s.db.options.maxLevels s.db.sstables = some (some task))
    (h : s.Compacted task removed s') :
    s'.Intact ∧ s.MemtablesKept s' ∧ s'.world.unreadable = s.world.unreadable ∧ ∃ es, s.jobEntries task = .ok es ∧
      es ≠ [] ∧ Compacts (task.inputs.map s.world.disk.entriesOf) es task.level s.tables s'.tables := by
  obtain ⟨es, f, r, hjob, hes, hwf, hentries, ho, -, hlevel, ⟨vs, hdb⟩, manifest, hat⟩ := h
  have hfiles : s'.world.disk.files = (s.world.disk.withSst s.db.nextFileNumber f).files := by
    rw [hat.disk_eq]
    exact Disk.removeSsts_files _ _
  have hg : s.Grown s' := by
    refine ⟨hat.unreadable_eq, hat.arcs_le, [.complete f], ?_⟩
    rw [hfiles, Disk.withSst_unused hunused]
  have hr : s'.world.disk.Serves r f := ho.serves hwf hfiles
  have hsst : s'.db.sstables = updateLevels task r s.db.sstables := by rw [hdb]
  have hcompacts : Compacts task.inputs r task.level s.db.sstables s'.db.sstables := by
    rw [hsst]
    exact updateLevels_compacts hpick hs.arcs hlevel r
  obtain ⟨others, hperm, hperm'⟩ := hcompacts.perm
  refine ⟨hs.install hg hr ho.arc_ge ho.arc_lt ?_ ?_ ?_,
    ⟨by rw [hdb]; rfl, by rw [hdb]; rfl, by rw [hdb]; rfl, by rw [hdb]; rfl, hat.writes_eq⟩, hg.unreadable,
    es, hjob, hes, ?_⟩
  · intro x hx
    rcases List.mem_cons.mp (hperm'.mem_iff.mp hx) with rfl | hx
    · exact .inl rfl
    · exact .inr (hperm.mem_iff.mpr (List.mem_append_right _ hx))
  · rw [(hperm'.map SSTableReader.arc).nodup_iff, List.map_cons, List.nodup_cons]
    have harcs := hs.arcs
    rw [(hperm.map SSTableReader.arc).nodup_iff, List.map_append] at harcs
    refine ⟨fun hmem => hs.arc_notMem ho.arc_ge ?_, (List.nodup_append.mp harcs).2.1⟩
    rw [(hperm.map SSTableReader.arc).mem_iff, List.map_append]
    exact List.mem_append_right _ hmem
  · intro x hx
    rcases hcompacts.mem_tail hx with rfl | hx
    · exact .inr ⟨rfl, by rw [hentries]; exact Sys.jobEntries_live hjob (pickCompaction_outputLevel hpick)⟩
    · exact .inl hx
  · have hmap := hcompacts.map s'.world.disk.entriesOf
    rw [hg.map_entriesOf hs, hr.entriesOf_eq, hentries] at hmap
    have hinputs : task.inputs.map s'.world.disk.entriesOf = task.inputs.map s.world.disk.entriesOf :=
      List.map_congr_left fun x hx => hg.entriesOf_eq hs (picked_mem hpick x hx)
    rwa [hinputs] at hmap

/-- A compaction that wrote nothing, or stopped before the level update, leaves the
tables alone. -/
theorem Sys.Intact.notInstalled (hs : s.Intact) (hunused : s.db.nextFileNumber ∉ s.world.disk.ssts)
    (hd : s.world.disk.Written s.db.nextFileNumber es d) (h : s'.AtTables s.handOut.db s.handOut.world d) :
    s'.Intact ∧ s.MemtablesKept s' ∧ s'.world.unreadable = s.world.unreadable ∧ s'.tables = s.tables := by
  obtain ⟨⟨vs, hdb⟩, manifest, hat⟩ := h
  obtain ⟨more, hfiles⟩ := hd.files_eq hunused
  have hg : s.Grown s' := ⟨hat.unreadable_eq, hat.arcs_le, more, by rw [hat.disk_eq]; exact hfiles⟩
  have hsst : s'.db.sstables = s.db.sstables := by rw [hdb]; rfl
  refine ⟨hs.grown hg hsst, ⟨by rw [hdb]; rfl, by rw [hdb]; rfl, by rw [hdb]; rfl, by rw [hdb]; rfl, hat.writes_eq⟩,
    hg.unreadable, ?_⟩
  rw [Sys.tables, hsst]
  exact hg.map_entriesOf hs

/-- How a compaction that the picker asked for can end, whether it returns or
stops. -/
theorem compact_intact (hs : s.Intact) (hne : s.db.nextFileNumber ≠ 0)
    (hunused : s.db.nextFileNumber ∉ s.world.disk.ssts)
    (hpick : pickCompaction s.db.options.maxLevels s.db.sstables = some (some task)) :
    Triple (compact task) s
      (fun _ s' => s'.Intact ∧ s.MemtablesKept s' ∧ s'.world.unreadable = s.world.unreadable ∧
        ∃ es, s.jobEntries task = .ok es ∧ (if es = [] then s'.tables = s.tables
          else Compacts (task.inputs.map s.world.disk.entriesOf) es task.level s.tables s'.tables))
      (fun _ s' => s'.Intact ∧ s.MemtablesKept s' ∧ s'.world.unreadable = s.world.unreadable ∧
        (s'.tables = s.tables ∨ ∃ es, s.jobEntries task = .ok es ∧ es ≠ [] ∧
          Compacts (task.inputs.map s.world.disk.entriesOf) es task.level s.tables s'.tables)) := by
  refine (compact_spec task s hne).mono ?_ ?_
  · rintro _ s' (⟨hjob, hdb, hat⟩ | hc)
    · obtain ⟨hs', hkept, hread, htables⟩ := hs.notInstalled hunused (.abandoned rfl) (.intro hdb hat)
      exact ⟨hs', hkept, hread, [], hjob, by rwa [if_pos rfl]⟩
    · obtain ⟨hs', hkept, hread, es, hjob, hes, hcompacts⟩ := hc.intact hs hunused hpick
      exact ⟨hs', hkept, hread, es, hjob, by rwa [if_neg hes]⟩
  · rintro _ s' (⟨es, d, hd, hat⟩ | ⟨removed, -, hc⟩)
    · have hd : ∃ es, s.world.disk.Written s.db.nextFileNumber es d := by
        rcases hd with ⟨-, hd⟩ | rfl
        · exact ⟨es, hd⟩
        · exact ⟨[], .untouched⟩
      obtain ⟨es, hd⟩ := hd
      obtain ⟨hs', hkept, hread, htables⟩ := hs.notInstalled hunused hd hat
      exact ⟨hs', hkept, hread, .inl htables⟩
    · obtain ⟨hs', hkept, hread, hcompacts⟩ := hc.intact hs hunused hpick
      exact ⟨hs', hkept, hread, .inr hcompacts⟩

end AiDb
