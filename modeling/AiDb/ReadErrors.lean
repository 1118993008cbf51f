import AiDb.Layers
import AiDb.Compaction.Phases

/-!
# Read errors during a compaction

`MergeIterator::next` has no way to report an error: when `advance` fails it
ends the iteration, and the entry it popped is lost. A job whose first blocks
could be read therefore returns `Ok` with the part of the merge before the
failure, and `DB::compact` goes on to delete the inputs.
-/

namespace AiDb

open Library Compaction

variable {w : World} {d : Disk} {s s' : Sys}

-- ---------------------------------------------------------------------------
-- Block reads
-- ---------------------------------------------------------------------------

theorem World.partlyReadBy (h : w.disk.Serves r f) : f.PartlyReadBy (w.readBlock r.file) := by
  intro b hb
  by_cases hun : w.unreadable r.file b.handle.offset = true
  · exact .inr ⟨_, by rw [World.readBlock, if_pos hun]⟩
  · left
    -- this read does not look at the other blocks
    have hread := World.readBy (w := { w with unreadable := fun _ _ => false }) h (fun _ => rfl) b hb
    rw [World.readBlock] at hread ⊢
    rw [if_neg hun]
    simpa using hread

theorem Disk.createSst_content (d : Disk) (n file : Nat) :
    (d.createSst n).files[file]? = d.files[file]? ∨ (d.createSst n).files[file]? = some .incomplete := by
  unfold Disk.createSst
  cases d.ssts.lookup n with
  | none =>
    dsimp only
    rw [List.getElem?_append]
    split_ifs with hlt
    · exact .inl rfl
    · rw [List.getElem?_eq_none (not_lt.mp hlt)]
      cases file - d.files.length with
      | zero => exact .inr rfl
      | succ k => exact .inl rfl
  | some file' =>
    dsimp only
    rw [List.getElem?_set]
    split_ifs with hf hlt
    · exact .inr rfl
    · subst hf
      exact .inl (List.getElem?_eq_none (not_lt.mp hlt)).symm
    · exact .inl rfl

/-- What can be read after the output was created could be read before. -/
theorem World.readBlock_created {n : Nat}
    (h : World.readBlock { w with disk := w.disk.createSst n } file handle = .ok es) :
    w.readBlock file handle = .ok es := by
  unfold World.readBlock at h ⊢
  dsimp only at h
  rcases w.disk.createSst_content n file with hc | hc
  · rwa [hc] at h
  · rw [hc] at h
    split_ifs at h

-- ---------------------------------------------------------------------------
-- The merge of a job
-- ---------------------------------------------------------------------------

def Sys.created (s : Sys) : World := { s.world with disk := s.world.disk.createSst s.db.nextFileNumber }

def Sys.jobReads (s : Sys) (inputs : List SSTableReader) : Nat → BlockRead :=
  MergeIterator.phased (inputRead s.world inputs) (inputRead s.created inputs) inputs

theorem inputRead_of_getElem (hr : inputs[i]? = some r) : inputRead w inputs i = w.readBlock r.file := by
  rw [inputRead, hr]

theorem Sys.jobReads_ok (h : s.jobReads inputs i handle = .ok es) :
    inputRead s.world inputs i handle = .ok es := by
  unfold Sys.jobReads MergeIterator.phased at h
  split_ifs at h
  · exact h
  · unfold inputRead at h ⊢
    cases hi : inputs[i]? with
    | none => rw [hi] at h; cases h
    | some r => rw [hi] at h; exact World.readBlock_created h

theorem Sys.jobReads_first (hr : inputs[i]? = some r) (he : r.indexBlock[0]? = some e) :
    s.jobReads inputs i e.2 = s.world.readBlock r.file e.2 := by
  rw [Sys.jobReads, MergeIterator.phased_first hr he, inputRead_of_getElem hr]

def Sys.inputFiles (s : Sys) (inputs : List SSTableReader) : List SstFile := inputs.map s.world.disk.fileOf

theorem Sys.inputFiles_get {i : Nat} (hin : ∀ r ∈ inputs, ∃ f, s.world.disk.Serves r f)
    (hf : (s.inputFiles inputs)[i]? = some f) : ∃ r, inputs[i]? = some r ∧ s.world.disk.Serves r f := by
  rw [Sys.inputFiles, List.getElem?_map, Option.map_eq_some_iff] at hf
  obtain ⟨r, hr, rfl⟩ := hf
  obtain ⟨f, hf⟩ := hin r (List.mem_of_getElem? hr)
  exact ⟨r, hr, by rw [hf.fileOf_eq]; exact hf⟩

theorem Sys.opened (hin : ∀ r ∈ inputs, ∃ f, s.world.disk.Serves r f) :
    Opened (s.jobReads inputs) inputs (s.inputFiles inputs) where
  length_eq := by simp [Sys.inputFiles]
  of i r f hr hf := by
    obtain ⟨r', hr', hserves⟩ := Sys.inputFiles_get hin hf
    rw [hr] at hr'
    cases hr'
    exact hserves.of
  wellFormed f hf := by
    obtain ⟨r, hr, rfl⟩ := List.mem_map.mp hf
    obtain ⟨f, hf⟩ := hin r hr
    rw [hf.fileOf_eq]
    exact hf.wellFormed
  read i f hf b hb := by
    obtain ⟨r, hr, hserves⟩ := Sys.inputFiles_get hin hf
    cases hread : s.jobReads inputs i b.handle with
    | error e => exact .inr ⟨e, rfl⟩
    | ok es =>
      -- what is read now was read before the output was created
      have hbefore := Sys.jobReads_ok hread
      rw [inputRead_of_getElem hr] at hbefore
      rcases s.world.partlyReadBy hserves b hb with hok | ⟨e, herr⟩
      · rw [hok] at hbefore
        exact .inl hbefore.symm
      · rw [herr] at hbefore
        cases hbefore

theorem readableEntries_mono {read read' : BlockRead} (h : ∀ handle es, read handle = .ok es → read' handle = .ok es) (index : Index) :
    readableEntries read index ≤ readableEntries read' index := by
  refine List.sum_le_sum fun e _ => ?_
  cases hr : read e.2 with
  | error err => exact Nat.zero_le _
  | ok es => rw [h e.2 es hr]

theorem mergeFuel_mono {reads reads' : Nat → BlockRead}
    (h : ∀ i handle es, reads i handle = .ok es → reads' i handle = .ok es) (readers : List SSTableReader) :
    mergeFuel reads readers ≤ mergeFuel reads' readers := by
  unfold mergeFuel
  rw [List.mapIdx_eq_ofFn, List.mapIdx_eq_ofFn, List.sum_ofFn, List.sum_ofFn]
  exact Finset.sum_le_sum fun i _ => readableEntries_mono (h i) _

theorem Disk.Serves.handles_apart (h : d.Serves r f) : r.indexBlock.Pairwise fun a b => a.2 ≠ b.2 := by
  have hindex : r.indexBlock = f.index := by rw [h.of]
  rw [hindex, h.wellFormed.index_eq]
  refine List.pairwise_map.mpr (h.wellFormed.offsets.imp fun hlt heq => ?_)
  exact absurd (congrArg BlockHandle.offset heq) (ne_of_lt hlt)

theorem Sys.jobMerge_eq (hin : ∀ r ∈ inputs, ∃ f, s.world.disk.Serves r f) :
    jobMerge s.world s.created inputs = (MergeIterator.new (s.jobReads inputs) inputs).map fun m =>
      m.collect (s.jobReads inputs) (mergeFuel (inputRead s.world inputs) inputs) := by
  refine MergeIterator.merge_phased ?_ ?_ _
  · intro i r hr e he
    have := (Sys.opened hin).inOrder.blocks i r hr e (List.mem_of_getElem? he)
    rwa [Sys.jobReads_first hr he, ← inputRead_of_getElem hr] at this
  · intro r hr
    obtain ⟨f, hf⟩ := hin r hr
    exact hf.handles_apart

-- ---------------------------------------------------------------------------
-- What the output accounts for
-- ---------------------------------------------------------------------------

/-- The output holds the newest version of every key of the inputs, but for the
tombstones that are dropped. -/
def Sys.Accounts (s : Sys) (task : CompactionTask) (out : List Entry) : Prop :=
  ∀ key i v, FirstHolder (s.inputFiles task.inputs) key i v →
    stored out key = Compaction.kept task.outputLevel (some v)

/-- The first block of some input cannot be read; or every newest version that
is to be kept comes, by key and then by input, before the last entry that can be
read of every input with a block that cannot. -/
def Sys.MergeInTime (s : Sys) (task : CompactionTask) : Prop :=
  (∃ r ∈ task.inputs, ∃ e err, r.indexBlock[0]? = some e ∧ s.world.readBlock r.file e.2 = .error err) ∨
    ∀ key i v, FirstHolder (s.inputFiles task.inputs) key i v → Compaction.kept task.outputLevel (some v) ≠ none →
      (sources (s.jobReads task.inputs) task.inputs).InTime MergeEntry.rank ⟨⟨key, v⟩, i⟩

theorem scanBlocks_fails_first {read : BlockRead} {index : Index} (hne : BlocksNonempty read index) :
    scanBlocks read index = ⟨[], true⟩ ↔ ∃ e err, index[0]? = some e ∧ read e.2 = .error err := by
  cases index with
  | nil => simp [scanBlocks]
  | cons e index =>
    simp only [scanBlocks, List.getElem?_cons_zero, Option.some.injEq, exists_and_left, exists_eq_left']
    cases hr : read e.2 with
    | error err => simp
    | ok es =>
      have hes : es ≠ [] := fun h => hne e List.mem_cons_self (h ▸ hr)
      simp [hes]

theorem Sys.new_error_iff (hin : ∀ r ∈ inputs, ∃ f, s.world.disk.Serves r f) :
    (∃ err, MergeIterator.new (s.jobReads inputs) inputs = .error err) ↔
      ∃ r ∈ inputs, ∃ e err, r.indexBlock[0]? = some e ∧ s.world.readBlock r.file e.2 = .error err := by
  have hblocks := (Sys.opened hin).inOrder.blocks
  refine (MergeIterator.newFrom_error 0 (by simpa using hblocks)).trans ?_
  constructor
  · rintro ⟨i, r, hr, hscan⟩
    rw [Nat.zero_add, scanBlocks_fails_first (hblocks i r hr)] at hscan
    obtain ⟨e, err, he, hread⟩ := hscan
    rw [Sys.jobReads_first hr he] at hread
    exact ⟨r, List.mem_of_getElem? hr, e, err, he, hread⟩
  · rintro ⟨r, hr, e, err, he, hread⟩
    obtain ⟨i, hi⟩ := List.getElem?_of_mem hr
    refine ⟨i, r, hi, ?_⟩
    rw [Nat.zero_add, scanBlocks_fails_first (hblocks i r hi)]
    exact ⟨e, err, he, by rw [Sys.jobReads_first hi he]; exact hread⟩

theorem Sys.jobEntries_eq (hin : ∀ r ∈ task.inputs, ∃ f, s.world.disk.Serves r f) :
    s.jobEntries task = (MergeIterator.new (s.jobReads task.inputs) task.inputs).map fun m =>
      survivors task.outputLevel none
        (m.collect (s.jobReads task.inputs) (mergeFuel (inputRead s.world task.inputs) task.inputs)) := by
  show (jobMerge s.world s.created task.inputs).map (survivors task.outputLevel none) = _
  rw [Sys.jobMerge_eq hin]
  cases MergeIterator.new (s.jobReads task.inputs) task.inputs <;> rfl

theorem Sys.jobEntries_ascending (hin : ∀ r ∈ task.inputs, ∃ f, s.world.disk.Serves r f)
    (h : s.jobEntries task = .ok es) : Ascending es := by
  rw [Sys.jobEntries_eq hin] at h
  cases hnew : MergeIterator.new (s.jobReads task.inputs) task.inputs with
  | error e => rw [hnew] at h; cases h
  | ok m =>
    rw [hnew] at h
    cases h
    exact (Sys.opened hin).survivors_ascending hnew (mergeFuel_mono (fun _ _ _ => Sys.jobReads_ok) _)

theorem Sys.jobEntries_accounts_iff (hin : ∀ r ∈ task.inputs, ∃ f, s.world.disk.Serves r f) :
    (∀ es, s.jobEntries task = .ok es → s.Accounts task es) ↔ s.MergeInTime task := by
  have hopened := Sys.opened hin
  have hfuel : mergeFuel (s.jobReads task.inputs) task.inputs ≤
      mergeFuel (inputRead s.world task.inputs) task.inputs := mergeFuel_mono (fun _ _ _ => Sys.jobReads_ok) _
  unfold Sys.MergeInTime
  rw [← Sys.new_error_iff hin, Sys.jobEntries_eq hin]
  cases hnew : MergeIterator.new (s.jobReads task.inputs) task.inputs with
  | error e => exact iff_of_true (fun es h => (nomatch h)) (.inl ⟨e, rfl⟩)
  | ok m =>
    have hfrom : From none (m.collect (s.jobReads task.inputs)
        (mergeFuel (inputRead s.world task.inputs) task.inputs)) :=
      ⟨hopened.collect_sorted hnew hfuel, fun _ h => (nomatch h)⟩
    simp only [reduceCtorEq, exists_false, false_or]
    refine Iff.trans (b := s.Accounts task (survivors task.outputLevel none (m.collect (s.jobReads task.inputs)
        (mergeFuel (inputRead s.world task.inputs) task.inputs)))) ?_ ?_
    · exact ⟨fun h => h _ rfl, fun h es hes => by cases hes; exact h⟩
    -- a newest version is handed out exactly when it comes in time
    refine forall_congr' fun key => forall_congr' fun i => forall_congr' fun v =>
      forall_congr' fun hfirst => ?_
    obtain ⟨hin, hlate⟩ := hopened.stored_collect hnew hfuel hfirst
    rw [stored_survivors hfrom (by simp)]
    by_cases htime : (sources (s.jobReads task.inputs) task.inputs).InTime MergeEntry.rank ⟨⟨key, v⟩, i⟩
    · exact iff_of_true (by rw [hin htime]) (fun _ => htime)
    · rw [hlate htime]
      have hnone : Compaction.kept task.outputLevel none = none := by simp [Compaction.kept]
      rw [hnone]
      constructor
      · exact fun h hk => absurd h.symm hk
      · intro h
        by_contra hk
        exact htime (h (Ne.symm hk))

-- ---------------------------------------------------------------------------
-- The job and the compaction
-- ---------------------------------------------------------------------------

def Disk.tableEntries (d : Disk) (n : Nat) : List Entry :=
  match (d.ssts.lookup n).bind fun file => d.files[file]? with
  | some (.complete f) => f.entries
  | _ => []

def Disk.Linked (d : Disk) : Prop := ∀ p ∈ d.ssts.entries, p.2 < d.files.length

instance (d : Disk) : Decidable d.Linked := by unfold Disk.Linked; infer_instance

theorem Disk.Linked.lookup_lt (h : d.Linked) (hl : d.ssts.lookup n = some file) : file < d.files.length :=
  h ⟨n, file⟩ (AList.mem_lookup_iff.mp hl)

theorem Disk.tableEntries_withSst (h : d.Linked) : (d.withSst n f).tableEntries n = f.entries := by
  unfold Disk.withSst Disk.finishSst Disk.createSst
  cases hl : d.ssts.lookup n with
  | none => simp [Disk.tableEntries]
  | some file => simp [Disk.tableEntries, hl, h.lookup_lt hl]

theorem Disk.tableEntries_removeSst : (d.removeSst n).tableEntries n = [] := by
  simp [Disk.tableEntries, Disk.removeSst]

/-- The call ended in this state without a table lost: the tables are where they
were, or the output accounts for the inputs. -/
def Sys.LosesNothing (s : Sys) (task : CompactionTask) (s' : Sys) : Prop :=
  (s'.db.sstables = s.db.sstables ∧ ∀ n ∈ s.world.disk.ssts, n ∈ s'.world.disk.ssts) ∨
    ∃ es, s.jobEntries task = .ok es ∧ s.Accounts task es

/-- A job that returns `Ok` accounts for its inputs, whatever else fails; and a
compaction removes its inputs only after such a job. -/
structure Sys.ReadErrorsSafe (s : Sys) (task : CompactionTask) : Prop where
  run : ∀ faults res w', runJob task.inputs task.outputLevel s.db.options.blockSize s.db.nextFileNumber
      { s.world with faults := faults } = .ok res w' → s.Accounts task (w'.disk.tableEntries s.db.nextFileNumber)
  compact : s.db.nextFileNumber ≠ 0 → s.db.nextFileNumber ∉ s.world.disk.ssts → ∀ faults,
    Triple (AiDb.compact task) { s with world := { s.world with faults := faults } }
      (fun _ => s.LosesNothing task) (fun _ => s.LosesNothing task)

theorem Sys.jobEntries_of_merge {faults : List Fault}
    (h : jobMerge { s.world with faults := faults }
      { s.world with faults := faults, disk := s.world.disk.createSst s.db.nextFileNumber } task.inputs = .ok merged) :
    s.jobEntries task = .ok (survivors task.outputLevel none merged) := by
  have h' : jobMerge s.world s.created task.inputs = .ok merged := h
  show (jobMerge s.world s.created task.inputs).map _ = _
  rw [h']
  rfl

theorem runJob_written (hd : s.world.disk.Linked) {faults : List Fault}
    (h : runJob task.inputs task.outputLevel s.db.options.blockSize s.db.nextFileNumber
      { s.world with faults := faults } = .ok res w') :
    s.jobEntries task = .ok (w'.disk.tableEntries s.db.nextFileNumber) := by
  obtain ⟨merged, hmerge, hres⟩ := (runJob_spec _ _ _ _ (World.At.refl _)).ok h
  rw [Sys.jobEntries_of_merge hmerge]
  rcases hres with ⟨hes, -, hat⟩ | ⟨-, -, f, -, hentries, hat⟩
  · rw [hes, hat.disk_eq, Disk.tableEntries_removeSst]
  · rw [← hentries, hat.disk_eq, Disk.tableEntries_withSst hd]

theorem runJob_returns (hin : ∀ r ∈ task.inputs, ∃ f, s.world.disk.Serves r f)
    (hjob : s.jobEntries task = .ok es) : ∃ res w',
      runJob task.inputs task.outputLevel s.db.options.blockSize s.db.nextFileNumber
        { s.world with faults := [] } = .ok res w' := by
  have hspec := runJob_spec task.inputs task.outputLevel s.db.options.blockSize s.db.nextFileNumber
    (World.At.refl { s.world with faults := [] })
  cases hrun : runJob task.inputs task.outputLevel s.db.options.blockSize s.db.nextFileNumber
      { s.world with faults := [] } with
  | ok res w' => exact ⟨res, w', rfl⟩
  | error e w' =>
    rcases hspec.error hrun with ⟨-, hfail⟩ | ⟨-, merged, hmerge, hasc⟩
    · obtain ⟨err, herr⟩ := hfail rfl
      have herr' : jobMerge s.world s.created task.inputs = .error err := herr
      have hjob' : (jobMerge s.world s.created task.inputs).map (survivors task.outputLevel none) = .ok es := hjob
      rw [herr'] at hjob'
      cases hjob'
    · exact absurd (Sys.jobEntries_ascending hin (Sys.jobEntries_of_merge hmerge)) (hasc rfl)

theorem compact_losesNothing (hn : s.db.nextFileNumber ≠ 0) (hunused : s.db.nextFileNumber ∉ s.world.disk.ssts)
    (h : ∀ es, s.jobEntries task = .ok es → s.Accounts task es) (faults : List Fault) :
    Triple (compact task) { s with world := { s.world with faults := faults } }
      (fun _ => s.LosesNothing task) (fun _ => s.LosesNothing task) := by
  have hdone : ∀ removed s', Sys.Compacted { s with world := { s.world with faults := faults } } task removed s' →
      s.LosesNothing task s' := by
    rintro removed s' ⟨es, f, r, hjob, -⟩
    exact .inr ⟨es, hjob, h es hjob⟩
  refine (compact_spec task { s with world := { s.world with faults := faults } } hn).mono ?_ ?_
  · rintro _ s' (⟨hjob, -, -⟩ | hc)
    · exact .inr ⟨[], hjob, h [] hjob⟩
    · exact hdone _ s' hc
  · rintro _ s' (⟨es, d, hd, ⟨vs, hdb⟩, manifest, hat⟩ | ⟨removed, -, hc⟩)
    · refine .inl ⟨by rw [hdb]; rfl, fun n hn => ?_⟩
      rw [hat.disk_eq]
      rcases hd with ⟨-, hwritten⟩ | rfl
      · cases hwritten with
        | untouched => exact hn
        | created => exact Disk.mem_createSst.mpr (.inr hn)
        | abandoned =>
          refine AList.mem_erase.mpr ⟨?_, Disk.mem_createSst.mpr (.inr hn)⟩
          rintro rfl
          exact hunused hn
        | finished => exact Disk.mem_withSst.mpr (.inr hn)
      · exact hn
    · exact hdone _ s' hc

/-- Read errors lose nothing exactly when the merge hands out in time what is to
be kept, or fails at once. -/
theorem readErrorsSafe_iff (s : Sys) (task : CompactionTask)
    (hin : ∀ r ∈ task.inputs, ∃ f, s.world.disk.Serves r f) (hd : s.world.disk.Linked) :
    s.ReadErrorsSafe task ↔ s.MergeInTime task := by
  rw [← Sys.jobEntries_accounts_iff hin]
  constructor
  · intro h es hjob
    obtain ⟨res, w', hrun⟩ := runJob_returns hin hjob
    have hwritten := runJob_written hd hrun
    rw [hjob] at hwritten
    cases hwritten
    exact h.run [] res w' hrun
  · intro h
    exact ⟨fun faults res w' hrun => h _ (runJob_written hd hrun),
      fun hn hunused faults => compact_losesNothing hn hunused h faults⟩

def oneEntryBlocks (calls : List Call) (unreadable : Nat → Bool) : Option Sys :=
  (Sys.session .unused { Options.plain with blockSize := 1 } calls).map fun s =>
    { s with world := { s.world with unreadable := fun _ => unreadable } }

def Sys.level0Task (s : Sys) : CompactionTask := ⟨s.db.sstables.headD [], 0, 1⟩

theorem oneEntryBlocks_serves (h : oneEntryBlocks calls unreadable = some s) :
    ∀ r ∈ s.level0Task.inputs, ∃ f, s.world.disk.Serves r f := by
  obtain ⟨s0, hs0, rfl⟩ := Option.map_eq_some_iff.mp h
  intro r hr
  refine (Sys.session_sound hs0).serving.serves r ?_
  simp only [Sys.level0Task] at hr
  cases hl : s0.db.sstables with
  | nil => rw [hl] at hr; cases hr
  | cons l ls => rw [hl] at hr; exact List.mem_append_left _ hr

/-- Every entry that is to be kept has a key below the last one that can be read of every
input with an unreadable block. -/
def Sys.keepsBelowLast (s : Sys) (task : CompactionTask) : Bool :=
  let S := sources (s.jobReads task.inputs) task.inputs
  (s.inputFiles task.inputs).all fun f => f.entries.all fun e =>
    (Compaction.kept task.outputLevel (some e.value)).isNone ||
      (List.range task.inputs.length).all fun j => !(S j).fails || (S j).items.getLast?.all fun y => e.key < y.entry.key

theorem Sys.keepsBelowLast_sound (h : s.keepsBelowLast task = true) : s.MergeInTime task := by
  refine .inr fun key i v hfirst hkept j y hfails hlast => ?_
  obtain ⟨f, hf, hstored⟩ := hfirst.1
  have hj : j < task.inputs.length := by
    by_contra hge
    simp [sources, MergeIterator.sourcesFrom, List.getElem?_eq_none (not_lt.mp hge)] at hfails
  simp only [Sys.keepsBelowLast, List.all_eq_true, Bool.or_eq_true] at h
  rcases h f (List.mem_of_getElem? hf) ⟨key, v⟩ (mem_of_stored hstored) with hnone | hbelow
  · exact absurd (Option.isNone_iff_eq_none.mp hnone) hkept
  · have hlt : key < y.entry.key := by simpa [hfails, hlast] using hbelow j (List.mem_range.mpr hj)
    exact Prod.Lex.toLex_lt_toLex.mpr (.inl hlt)

/-- The last of three blocks is unreadable, but the last two hold tombstones, which level 1
does not keep. -/
theorem readErrorsSafe_iff_tombstones : ∃ s : Sys,
    (∀ file, s.world.unreadable file 53 = true) ∧
      (s.inputFiles s.level0Task.inputs).map (fun f => f.blocks.map (·.handle.offset)) = [[0, 27, 53]] ∧
      s.MergeInTime s.level0Task ∧ s.ReadErrorsSafe s.level0Task := by
  have hrun : (oneEntryBlocks [.put [97] [1], .delete [98], .delete [99], .flushTables] fun off => off = 53).map (fun s =>
      (decide s.world.disk.Linked, (s.inputFiles s.level0Task.inputs).map fun f => f.blocks.map (·.handle.offset),
        s.keepsBelowLast s.level0Task)) = some (true, [[0, 27, 53]], true) := by
    decide +kernel
  obtain ⟨s, hs, heq⟩ := Option.map_eq_some_iff.mp hrun
  simp only [Prod.mk.injEq] at heq
  obtain ⟨hd, hblocks, hbelow⟩ := heq
  have htime := Sys.keepsBelowLast_sound hbelow
  refine ⟨s, ?_, hblocks, htime, (readErrorsSafe_iff s _ (oneEntryBlocks_serves hs) (of_decide_eq_true hd)).mpr htime⟩
  obtain ⟨s0, -, rfl⟩ := Option.map_eq_some_iff.mp hs
  exact fun _ => rfl

/-- With the last of three blocks unreadable, the job returns with the first
entry alone. -/
theorem not_readErrorsSafe_lastBlock : ∃ s : Sys,
    (∀ r ∈ s.level0Task.inputs, ∃ f, s.world.disk.Serves r f) ∧ ¬s.ReadErrorsSafe s.level0Task := by
  have hrun : (oneEntryBlocks [.put [97] [1], .put [98] [2], .put [99] [3], .flushTables] fun off => off = 54).map (fun s =>
      ((s.inputFiles s.level0Task.inputs)[0]?.bind fun f => stored f.entries [99],
        match runJob s.level0Task.inputs 1 s.db.options.blockSize s.db.nextFileNumber
          { s.world with faults := [] } with
        | .ok _ w' => some (stored (w'.disk.tableEntries s.db.nextFileNumber) [99])
        | .error _ _ => none)) = some (some ⟨[3], 2⟩, some none) := by
    decide +kernel
  obtain ⟨s, hs, heq⟩ := Option.map_eq_some_iff.mp hrun
  rw [Prod.mk.injEq] at heq
  obtain ⟨f, hf, hst⟩ := Option.bind_eq_some_iff.mp heq.1
  refine ⟨s, oneEntryBlocks_serves hs, fun h => ?_⟩
  have hout := heq.2
  split at hout
  · rename_i res w' hres
    have hfirst : FirstHolder (s.inputFiles s.level0Task.inputs) [99] 0 ⟨[3], 2⟩ :=
      ⟨⟨f, hf, hst⟩, fun j _ hj => absurd hj (Nat.not_lt_zero j)⟩
    have hkept := h.run [] res w' hres [99] 0 ⟨[3], 2⟩ hfirst
    rw [Option.some.inj hout] at hkept
    cases hkept
  · cases hout

end AiDb
