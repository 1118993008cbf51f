import AiDb.Archive
import AiDb.Linear

/-!
# Flushes and compactions of an archive

In the first session the tables are an archive of the writes: a flush adds the table of a
memtable on top of it, and a compaction of level 0 puts one table in the place of several.
Wherever one of them stops, the tables still have what they had.
-/

namespace AiDb

open Library Compaction

variable {s s' : Sys} {ops more : List WriteOp} {d d' d'' : Disk} {db : DB} {w : World}

-- ---------------------------------------------------------------------------
-- What is kept of the directory
-- ---------------------------------------------------------------------------

/-- The tables are an archive of the writes, with all that those of `d` have. -/
structure Disk.Preserved (d : Disk) (ops : List WriteOp) (d' : Disk) : Prop where
  sane : d'.Sane
  archive : d'.Archive ops
  holds : ∀ key stamp, d.TableHolds key stamp → d'.TableHolds key stamp

theorem Disk.Preserved.trans (h : d.Preserved ops d') (h' : d'.Preserved ops d'') : d.Preserved ops d'' :=
  ⟨h'.sane, h'.archive, fun key stamp hold => h'.holds key stamp (h.holds key stamp hold)⟩

theorem Disk.Preserved.covers (h : d.Preserved ops d') (hc : d.Covers ops cut) : d'.Covers ops cut :=
  fun i op hi hop => h.holds _ _ (hc i op hi hop)

theorem Disk.Preserved.congr (h : d.Preserved ops d') (hsane : d''.Sane) (hs : d''.ssts = d'.ssts) (hf : d''.files = d'.files) :
    d.Preserved ops d'' where
  sane := hsane
  archive := h.archive.congr hs hf
  holds key stamp hold := by
    rw [Disk.tableHolds_iff, Disk.stamps_congr hs hf, ← Disk.tableHolds_iff]
    exact h.holds key stamp hold

theorem Disk.tableHolds_congr (hs : d'.ssts = d.ssts) (hf : d'.files = d.files) : d'.TableHolds = d.TableHolds := by
  funext key stamp
  simp only [Disk.tableHolds_iff, Disk.stamps_congr hs hf]

-- ---------------------------------------------------------------------------
-- The invariant
-- ---------------------------------------------------------------------------

/-- The tables of level 0 are in the directory, under the highest numbers there. -/
structure Sys.Level0OnTop (s : Sys) : Prop where
  found : ∀ r ∈ s.db.sstables.headD [], s.world.disk.ssts.lookup r.fileNumber = some r.file
  above : ∀ r ∈ s.db.sstables.headD [], ∀ n e, s.world.disk.Has n e →
    n < r.fileNumber ∨ n ∈ (s.db.sstables.headD []).map SSTableReader.fileNumber

/-- What the memtables and the tables of a first session hold of its writes: every
operation is in one of them, and whatever a memtable has is newer than what is in the
tables. -/
structure Sys.Archiving (s : Sys) (ops : List WriteOp) : Prop where
  alone : s.Alone
  fronted : s.Fronted 0
  readable : ∀ file off, s.world.unreadable file off = false
  lasting : ∀ op ∈ ops, op.Lasting
  writes : s.world.writes = ops.length
  sequence : s.db.sequence = ops.length
  memtables : ∀ m ∈ s.db.memtables, m.Of ops
  archive : s.world.disk.Archive ops
  newer : ∀ m ∈ s.db.memtables, ∀ a ∈ m.versions, ∀ n e, s.world.disk.Has n e → e.key = a.key → e.value.stamp ≤ a.value.stamp
  level0 : s.Level0OnTop
  stored : ∀ (i : Nat) op, ops[i]? = some op → (∃ m ∈ s.db.memtables, op.entry i ∈ m.iter) ∨ s.world.disk.TableHolds op.key i

namespace Sys.Level0OnTop

theorem kept (h : s.Level0OnTop) (hk : s.TablesKept s') : s'.Level0OnTop where
  found := by rw [hk.sstables, hk.ssts]; exact h.found
  above := by
    rw [hk.sstables]
    exact fun r hr n e he => h.above r hr n e (he.congr hk.ssts.symm hk.files.symm)

theorem written (h : s.Level0OnTop) (hn : s.Numbered) (hd : s.world.disk.Sane)
    (hw : s.world.disk.Written s.db.nextFileNumber es s'.world.disk)
    (hl0 : s'.db.sstables.headD [] = s.db.sstables.headD [] ∧ es = [] ∨ ∃ r, s'.db.sstables.headD [] = r :: s.db.sstables.headD [] ∧
      r.fileNumber = s.db.nextFileNumber ∧ s'.world.disk.ssts.lookup s.db.nextFileNumber = some r.file) : s'.Level0OnTop := by
  have hunused := hn.next_unused
  have hfound : ∀ r ∈ s.db.sstables.headD [], s'.world.disk.ssts.lookup r.fileNumber = some r.file := by
    intro r hr
    rw [hw.lookup_ne hunused fun heq => hunused (heq ▸ AList.lookup_isSome.mp (by rw [h.found r hr]; rfl))]
    exact h.found r hr
  rcases hl0 with ⟨hl0, rfl⟩ | ⟨r, hl0, hnumber, hlookup⟩
  · rw [← hl0] at hfound
    refine ⟨hfound, ?_⟩
    rw [hl0]
    refine fun r hr n e he => h.above r hr n e ((hw.of_has hd hunused he).resolve_right fun hnew => ?_)
    exact List.not_mem_nil hnew.2.2
  · refine ⟨?_, ?_⟩
    · rw [hl0]
      exact List.forall_mem_cons.mpr ⟨by rw [hnumber]; exact hlookup, hfound⟩
    · rw [hl0]
      intro x hx n e he
      rcases hw.of_has hd hunused he with he | ⟨hself, -⟩
      · rcases List.mem_cons.mp hx with rfl | hx
        · left
          rw [hnumber]
          exact hn.below n he.mem
        · exact (h.above x hx n e he).imp_right (List.mem_cons_of_mem _)
      · exact .inr (by simp [hself, hnumber])

end Sys.Level0OnTop

namespace Sys.Archiving

theorem sane (h : s.Archiving ops) : s.world.disk.Sane := h.alone.reached.sane

theorem inOrder (h : s.Archiving ops) : s.InOrder 0 := h.fronted.2 h.alone.numbered.unused

theorem serving (h : s.Archiving ops) : s.Serving := h.alone.intact.serving h.alone.numbered h.readable

theorem kept (h : s.Archiving ops) (halone : s'.Alone) (hfronted : s'.Fronted 0) (hk : s.TablesKept s')
    (hm : ∀ m ∈ s'.db.memtables, m.versions = [] ∨ m ∈ s.db.memtables)
    (hmem : ∀ m ∈ s.db.memtables, m ∈ s'.db.memtables) (hseq : s'.db.sequence = s.db.sequence)
    (hwrites : s'.world.writes = s.world.writes) : s'.Archiving ops where
  alone := halone
  fronted := hfronted
  readable := by rw [hk.unreadable]; exact h.readable
  lasting := h.lasting
  writes := hwrites.trans h.writes
  sequence := hseq.trans h.sequence
  memtables m hmem' := (hm m hmem').elim (fun hnil e he => by
    have hmem : (⟨e.1.userKey, e.2⟩ : Entry) ∈ m.versions := List.mem_map_of_mem he
    rw [hnil] at hmem
    cases hmem) (h.memtables m)
  archive := h.archive.congr hk.ssts hk.files
  newer m hmem' a ha n e he := (hm m hmem').elim (fun hnil => by rw [hnil] at ha; cases ha)
    fun hold => h.newer m hold a ha n e (he.congr hk.ssts.symm hk.files.symm)
  level0 := h.level0.kept hk
  stored i op hop := by
    rw [Disk.tableHolds_congr hk.ssts hk.files]
    exact (h.stored i op hop).imp_left fun ⟨m, hm', he⟩ => ⟨m, hmem m hm', he⟩

theorem logs (h : s.Archiving ops) (hl : s.Logs s') : s'.Archiving ops := by
  have hmem : s'.db.memtables = s.db.memtables ∧ s'.db.sequence = s.db.sequence ∧ s'.world.writes = s.world.writes := by
    obtain ⟨wal, n, logs, faults, -, rfl⟩ := hl
    exact ⟨rfl, rfl, rfl⟩
  refine h.kept (h.alone.logs hl) (h.fronted.logs hl) hl.tablesKept ?_ ?_ hmem.2.1 hmem.2.2
  · exact fun m hm => .inr (by rwa [← hmem.1])
  · exact fun m hm => by rwa [hmem.1]

theorem freeze (h : s.Archiving ops) : s.freeze.Archiving ops := by
  have hmem : s.freeze.db.memtables = MemTable.new (s.db.sequence + 1) :: s.db.memtables := by
    simp [DB.memtables, Sys.freeze, DB.freeze]
  refine h.kept h.alone.freeze h.fronted.freeze s.tablesKept_freeze ?_ ?_ rfl rfl
  · rw [hmem]
    exact List.forall_mem_cons.mpr ⟨.inl (MemTable.versions_new _), fun m hm => .inr hm⟩
  · rw [hmem]
    exact fun m hm => List.mem_cons_of_mem _ hm

theorem frozen (h : s.Archiving ops) : s.frozen.Archiving ops := by
  unfold Sys.frozen
  split
  · exact h
  · exact h.freeze

theorem enter (h : Sys.Archiving ⟨db, w⟩ ops) {env : Env} (hread : ∀ file off, env.unreadable file off = false) :
    Sys.Archiving ⟨db, w.enter env⟩ ops :=
  ⟨h.alone.enter env, h.fronted.enter env, hread, h.lasting, h.writes, h.sequence, h.memtables, h.archive, h.newer,
    ⟨h.level0.found, h.level0.above⟩, h.stored⟩

theorem insert (h : s.Archiving ops) (hmore : ∀ op ∈ more, op.Lasting) : (s.insert more).Archiving (ops ++ more) := by
  have hpast := h.fronted.1.2
  have hfronted : (s.insert more).Fronted 0 := h.fronted.kept (h.fronted.1.1.tablesKept (s.tablesKept_insert more) (h.fronted.1.1.bounded.insert more))
    (hpast.insert more) (s.tablesKept_insert more) fun ho => ho.insert hpast more
  have hdrop : more <+: (ops ++ more).drop ops.length := by simp
  have hnew := ((h.memtables _ List.mem_cons_self).append more).applyOps hdrop
  have hactive : (s.insert more).db.memtable = applyOps s.db.memtable ops.length (ops.length + 1) more := by
    simp only [Sys.insert, h.writes, h.sequence]
  have hmem : (s.insert more).db.memtables = (s.insert more).db.memtable :: s.db.immutableMemtables.reverse := rfl
  refine ⟨h.alone.insert more, hfronted, h.readable, ?_, ?_, ?_, ?_, h.archive.append more, ?_,
    h.level0.kept (s.tablesKept_insert more), ?_⟩
  · exact fun op hop => (List.mem_append.mp hop).elim (h.lasting op) (hmore op)
  · simp [Sys.insert, h.writes]
  · simp [Sys.insert, h.sequence]
  · rw [hmem, hactive]
    exact List.forall_mem_cons.mpr ⟨hnew.1, fun m hm => (h.memtables m (List.mem_cons_of_mem _ hm)).append more⟩
  · rw [hmem]
    refine List.forall_mem_cons.mpr ⟨fun a ha n e he hkey => ?_, fun m hm => h.newer m (List.mem_cons_of_mem _ hm)⟩
    obtain ⟨x, hx, rfl⟩ := List.mem_map.mp ha
    -- what the memtable had before, or what is written now
    rcases mem_applyOps hx with hx | ⟨hge, -⟩
    · exact h.newer _ List.mem_cons_self _ (List.mem_map_of_mem hx) n e he hkey
    · obtain ⟨file, f, -, hfile, he⟩ := he
      exact (hpast.files f (List.mem_of_getElem? hfile) e he).trans hge
  · intro i op hop
    rw [hmem, hactive]
    by_cases hi : i < ops.length
    · rw [List.getElem?_append_left hi] at hop
      rcases h.stored i op hop with ⟨m, hm, he⟩ | hT
      · left
        rcases List.mem_cons.mp hm with rfl | hm
        · exact ⟨_, List.mem_cons_self, hnew.2.1 _ he⟩
        · exact ⟨m, List.mem_cons_of_mem _ hm, he⟩
      · exact .inr hT
    · have hlt : i < ops.length + more.length := by
        rw [← List.length_append]
        exact (List.getElem?_eq_some_iff.mp hop).1
      exact .inl ⟨_, List.mem_cons_self, hnew.2.2 i op (not_lt.mp hi) hlt hop⟩

end Sys.Archiving

-- ---------------------------------------------------------------------------
-- Flushing a memtable
-- ---------------------------------------------------------------------------

theorem MemTable.Of.versions {m : MemTable} (h : m.Of ops) (hops : ∀ op ∈ ops, op.Lasting) (he : e ∈ m.versions) :
    ops[e.value.stamp]? = some (.put e.key e.value.bytes) := by
  obtain ⟨x, hx, rfl⟩ := List.mem_map.mp he
  obtain ⟨i, op, hop, rfl⟩ := h x hx
  cases op with
  | put key value => exact hop
  | delete key => exact (hops _ (List.mem_of_getElem? hop)).elim

theorem Sys.Archiving.written (h : s.Archiving ops) (hm : m ∈ s.db.memtables)
    (hw : s.world.disk.Written s.db.nextFileNumber m.table d') (hsane : d'.Sane) : s.world.disk.Preserved ops d' where
  sane := hsane
  archive := h.archive.written h.sane hw h.alone.unused h.alone.numbered.below
    (fun _ he => (h.memtables m hm).versions h.lasting (m.table_subset he))
    fun _ a ha n e he hkey => h.newer m hm a (m.table_subset ha) n e he hkey
  holds _ _ := hw.tableHolds h.alone.unused

theorem Sys.Archiving.newer_of_taken (h : s.Archiving ops) (hmem : s.db.memtables = ms ++ [m]) (hm' : m' ∈ ms)
    (ha : a ∈ m'.versions) (he : e ∈ m.versions) (hkey : e.key = a.key) : e.value.stamp ≤ a.value.stamp := by
  have hlayers : s.flushed = ms.map MemTable.versions ++ m.versions :: s.tables.headD [] := by simp [Sys.flushed, hmem]
  have horder := h.inOrder
  rw [Sys.InOrder, hlayers, layered_append] at horder
  exact horder.2.2 _ (List.mem_map_of_mem hm') _ List.mem_cons_self a ha e he hkey.symm (Nat.zero_le _)

theorem Sys.Archiving.stored_flushed (h : s.Archiving ops) (hmem : s.db.memtables = ms ++ [m])
    (hr : flushMemtableToSstable m (s.popped rest) = .ok n s') (hpre : s.world.disk.Preserved ops s'.world.disk)
    (hop : ops[i]? = some op) : (∃ m' ∈ ms, op.entry i ∈ m'.iter) ∨ s'.world.disk.TableHolds op.key i := by
  have hm : m ∈ s.db.memtables := by simp [hmem]
  rcases h.stored i op hop with ⟨m', hm', he⟩ | hT
  · rw [hmem, List.mem_append, List.mem_singleton] at hm'
    rcases hm' with hleft | rfl
    · exact .inl ⟨m', hleft, he⟩
    · have hserving : (s.popped rest).Serving := h.serving.kept (s.tablesKept_popped rest)
      exact .inr (tableHolds_of_flush hserving hr (h.memtables m' hm) he)
  · exact .inr (hpre.holds _ _ hT)

theorem flushMemtableToSstable_archiving (h : s.Archiving ops) (himm : s.db.immutableMemtables = m :: rest) :
    Triple (flushMemtableToSstable m) (s.popped rest)
      (fun _ s' => s'.Archiving ops ∧ s.world.disk.Preserved ops s'.world.disk)
      (fun _ s' => s.world.disk.Preserved ops s'.world.disk) := by
  have hm : m ∈ s.db.memtables := by simp [DB.memtables, himm]
  have hrun := (flushMemtableToSstable_alone h.alone himm).and
    ((fronted_rule.round s m rest h.fronted himm).and (flushMemtableToSstable_written m (s.popped rest)))
  refine Triple.intro (fun n s' hr => ?_) fun _ s' hr => ?_
  swap
  · obtain ⟨⟨halone, -⟩, -, hw⟩ := hrun.error hr
    exact h.written hm hw halone.reached.sane
  obtain ⟨⟨halone, hkept, -⟩, hfronted, hw⟩ := hrun.ok hr
  have hpre := h.written hm hw halone.reached.sane
  have hmem : s.db.memtables = s'.db.memtables ++ [m] := by
    rw [hkept.memtables_eq]
    simp [DB.memtables, Sys.popped, himm]
  have hsub : ∀ m' ∈ s'.db.memtables, m' ∈ s.db.memtables := by
    rw [hmem]
    exact fun m' hm' => List.mem_append_left _ hm'
  have hread : ∀ file off, s'.world.unreadable file off = false := by
    rw [flushMemtableToSstable_unreadable hr]
    exact h.readable
  have hnewer : ∀ m' ∈ s'.db.memtables, ∀ a ∈ m'.versions, ∀ n e, s'.world.disk.Has n e → e.key = a.key →
      e.value.stamp ≤ a.value.stamp := by
    intro m' hm' a ha n e he hkey
    rcases hw.of_has h.sane h.alone.unused he with he | ⟨-, -, he⟩
    · exact h.newer m' (hsub m' hm') a ha n e he hkey
    · exact h.newer_of_taken hmem hm' ha (m.table_subset he) hkey
  have hof : ∀ m' ∈ s'.db.memtables, m'.Of ops := fun m' hm' => h.memtables m' (hsub m' hm')
  have hseq : s'.db.sequence = ops.length := hkept.sequence.trans h.sequence
  have hwrites : s'.world.writes = ops.length := hkept.writes.trans h.writes
  refine ⟨⟨halone, hfronted, hread, h.lasting, hwrites, hseq, hof, hpre.archive, hnewer, ?_,
    fun _ _ => h.stored_flushed hmem hr hpre⟩, hpre⟩
  refine h.level0.written h.alone.numbered h.sane hw ?_
  rcases (flushMemtableToSstable_spec m (s.popped rest)).ok hr with ⟨hes, hdb, -⟩ | ⟨-, f, r, -, -, hdb, hat, ho⟩
  · exact .inl ⟨by rw [hdb]; rfl, hes⟩
  · refine .inr ⟨r, ?_, by rw [ho.reader]; rfl, by rw [hat.disk_eq]; exact ho.lookup⟩
    obtain ⟨l0, ls, hl⟩ := List.exists_cons_of_ne_nil h.alone.reached.levels
    rw [hdb]
    simp [DB.installFront, Sys.handOut, Sys.popped, hl]

-- ---------------------------------------------------------------------------
-- Compacting level 0
-- ---------------------------------------------------------------------------

theorem Sys.Level0OnTop.has (h : s.Level0OnTop) (hr : r ∈ s.db.sstables.headD []) :
    e ∈ s.world.disk.entriesOf r ↔ s.world.disk.Has r.fileNumber e := by
  have hfound := h.found r hr
  unfold Disk.entriesOf Disk.Has
  rw [hfound]
  constructor
  · intro he
    split at he
    · rename_i f hfile
      exact ⟨r.file, f, rfl, hfile, he⟩
    · cases he
  · rintro ⟨file, f, heq, hfile, he⟩
    cases heq
    rw [hfile]
    exact he

namespace Sys.Archiving

variable {task : CompactionTask}

theorem keepsNewest (h : s.Archiving ops) (hpick : pickCompaction s.db.options.maxLevels s.db.sstables = some (some task))
    (hlevel : task.level = 0) : s.KeepsNewest task :=
  (h.fronted.keepsNewest_iff (s.noOverwrite_handOut.mpr ⟨h.alone.unused, h.alone.numbered.unused⟩) h.readable hpick hlevel).mpr
    fun _ _ _ _ hlt => absurd hlt (Nat.not_lt_zero _)

theorem out_has (h : s.Archiving ops) (hpick : pickCompaction s.db.options.maxLevels s.db.sstables = some (some task))
    (hlevel : task.level = 0) (hjob : s.jobEntries task = .ok es) (he : e ∈ es) :
    ∃ r ∈ s.db.sstables.headD [], s.world.disk.Has r.fileNumber e := by
  obtain ⟨r, hr, he⟩ := Sys.mem_jobEntries hjob he
  rw [level0_inputs hpick hlevel] at hr
  exact ⟨r, hr, (h.level0.has hr).mp he⟩

/-- The output has nothing older than what any table has: the deeper tables have lower
numbers than those it is made of. -/
theorem out_latest (h : s.Archiving ops) (hpick : pickCompaction s.db.options.maxLevels s.db.sstables = some (some task))
    (hlevel : task.level = 0) (hjob : s.jobEntries task = .ok es) (hasc : Ascending es) (ha : a ∈ es)
    (he : s.world.disk.Has n e) (hkey : e.key = a.key) : e.value.stamp ≤ a.value.stamp := by
  obtain ⟨r, hr, har⟩ := h.out_has hpick hlevel hjob ha
  rcases h.level0.above r hr n e he with hlt | hn
  · exact h.archive.ranked ⟨e, he, hkey, rfl⟩ ⟨a, har, rfl, rfl⟩ hlt
  · obtain ⟨r', hr', rfl⟩ := List.mem_map.mp hn
    refine h.keepsNewest hpick hlevel es hjob a.key a.value (hasc.stored_of_mem ha) r' ?_ e ((h.level0.has hr').mpr he) hkey
    rwa [level0_inputs hpick hlevel]

theorem out_written (h : s.Archiving ops) (hpick : pickCompaction s.db.options.maxLevels s.db.sstables = some (some task))
    (hlevel : task.level = 0) (hjob : s.jobEntries task = .ok es) (hw : s.world.disk.Written s.db.nextFileNumber es d')
    (hsane : d'.Sane) : s.world.disk.Preserved ops d' where
  sane := hsane
  archive := h.archive.written h.sane hw h.alone.unused h.alone.numbered.below
    (fun e he => by
      obtain ⟨r, -, hhas⟩ := h.out_has hpick hlevel hjob he
      exact h.archive.genuine _ e hhas)
    fun hasc _ ha _ _ he hkey => h.out_latest hpick hlevel hjob hasc ha he hkey
  holds _ _ := hw.tableHolds h.alone.unused

theorem out_holds (h : s.Archiving ops) (hpick : pickCompaction s.db.options.maxLevels s.db.sstables = some (some task))
    (hlevel : task.level = 0) (hjob : s.jobEntries task = .ok es) (hr : r ∈ s.db.sstables.headD [])
    (he : s.world.disk.Has r.fileNumber e) : ∃ a ∈ es, a.key = e.key ∧ e.value.stamp ≤ a.value.stamp := by
  have hin := level0_inputs hpick hlevel
  obtain ⟨es', hjob', hstored⟩ := h.alone.intact.jobEntries_ok h.readable h.alone.unused (picked_mem hpick)
  obtain rfl : es' = es := by rw [hjob'] at hjob; cases hjob; rfl
  have hentry := (h.level0.has hr).mpr he
  cases hfirst : firstStored (task.inputs.map s.world.disk.entriesOf) e.key with
  | none =>
    -- the key is in one of the inputs
    have hnone := List.findSome?_eq_none_iff.mp hfirst (s.world.disk.entriesOf r) (List.mem_map_of_mem (by rwa [hin]))
    rw [AiDb.stored, Option.map_eq_none_iff, List.find?_eq_none] at hnone
    simp at hnone
    exact absurd rfl (hnone e hentry)
  | some v =>
    obtain ⟨es0, hes0, hv⟩ := List.exists_of_findSome?_eq_some hfirst
    obtain ⟨r', hr', rfl⟩ := List.mem_map.mp hes0
    rw [hin] at hr'
    have hlast := h.archive.lasts h.lasting ((h.level0.has hr').mp (mem_of_stored hv))
    have hout : AiDb.stored es' e.key = some v := by
      rw [hstored, hfirst, Compaction.kept, if_pos (pickCompaction_outputLevel hpick)]
      exact live_eq_some.mpr ⟨hlast, rfl⟩
    refine ⟨⟨e.key, v⟩, mem_of_stored hout, rfl, ?_⟩
    exact h.keepsNewest hpick hlevel es' hjob e.key v hout r (by rwa [hin]) e hentry rfl

theorem compacted (h : s.Archiving ops) (hpick : pickCompaction s.db.options.maxLevels s.db.sstables = some (some task))
    (hlevel : task.level = 0) (hc : s.Compacted task removed s') (hremoved : removed <+: task.inputs) (hsane : s'.world.disk.Sane) :
    s.world.disk.Preserved ops s'.world.disk ∧
      ∀ n e, s'.world.disk.Has n e → ∃ m, s.world.disk.Has m e := by
  obtain ⟨es, f, r, hjob, hes, hwf, hentries, ho, -, -, -, manifest, hat⟩ := hc
  let d := s.world.disk.withSst s.db.nextFileNumber f
  have hdisk : s'.world.disk = { d.removeSsts removed with manifest := manifest } := hat.disk_eq
  have hw : s.world.disk.Written s.db.nextFileNumber es d := .finished hes hwf hentries
  have hunused := h.alone.unused
  have hfrom : ∀ n e, d.Has n e → ∃ m, s.world.disk.Has m e := by
    intro n e he
    rcases hw.of_has h.sane hunused he with he | ⟨-, -, he⟩
    · exact ⟨n, he⟩
    · obtain ⟨r, -, he⟩ := h.out_has hpick hlevel hjob he
      exact ⟨_, he⟩
  have harchive : d.Archive ops := h.archive.written h.sane hw hunused h.alone.numbered.below
    (fun e he => by
      obtain ⟨r, -, hhas⟩ := h.out_has hpick hlevel hjob he
      exact h.archive.genuine _ e hhas)
    fun hasc _ ha _ _ he hkey => h.out_latest hpick hlevel hjob hasc ha he hkey
  have hssts : s'.world.disk.ssts = (d.removeSsts removed).ssts := by rw [hdisk]
  have hfiles : s'.world.disk.files = (d.removeSsts removed).files := by rw [hdisk]
  have hpre : s.world.disk.Preserved ops (d.removeSsts removed) := by
    refine ⟨hsane.of_sub (fun n file => by rw [hssts]; exact id) hfiles.symm, harchive.removeSsts removed, fun key stamp hold => ?_⟩
    -- a version of a table that is gone is in the output
    rw [Disk.tableHolds_iff] at hold ⊢
    refine hold.mono ?_
    rintro n _ ⟨e, he, rfl, rfl⟩
    by_cases hn : n ∈ removed.map SSTableReader.fileNumber
    · obtain ⟨x, hx, rfl⟩ := List.mem_map.mp hn
      have hin : x ∈ s.db.sstables.headD [] := by
        rw [← level0_inputs hpick hlevel]
        exact hremoved.subset hx
      obtain ⟨a, ha, hkey, hle⟩ := h.out_holds hpick hlevel hjob hin he
      have hout : (d.removeSsts removed).Has s.db.nextFileNumber a := by
        refine Disk.has_removeSsts.mpr ⟨Disk.has_withSst hunused (by rwa [hentries]), fun hmem => ?_⟩
        obtain ⟨y, hy, heq⟩ := List.mem_map.mp hmem
        have hfound := h.level0.found y (by rw [← level0_inputs hpick hlevel]; exact hremoved.subset hy)
        exact hunused (heq ▸ AList.lookup_isSome.mp (by rw [hfound]; rfl))
      exact ⟨_, _, ⟨a, hout, hkey, rfl⟩, hle⟩
    · exact ⟨n, _, ⟨e, Disk.has_removeSsts.mpr ⟨hw.has hunused he, hn⟩, rfl, rfl⟩, le_refl _⟩
  refine ⟨hpre.congr hsane hssts hfiles, fun n e he => hfrom n e ?_⟩
  exact (Disk.has_removeSsts.mp (he.congr hssts.symm hfiles.symm)).1

theorem stopped (h : s.Archiving ops) (hpick : pickCompaction s.db.options.maxLevels s.db.sstables = some (some task))
    (hlevel : task.level = 0) (hc : s.CompactionStopped task s') (hsane : s'.world.disk.Sane) :
    s.world.disk.Preserved ops s'.world.disk := by
  obtain ⟨es, d, hd, -, manifest, hat⟩ := hc
  have hssts : s'.world.disk.ssts = d.ssts := by rw [hat.disk_eq]
  have hfiles : s'.world.disk.files = d.files := by rw [hat.disk_eq]
  have hd' : d.Sane := hsane.of_sub (fun n file => by rw [hssts]; exact id) hfiles.symm
  have hpre : s.world.disk.Preserved ops d := by
    rcases hd with ⟨hjob, hw⟩ | rfl
    · exact h.out_written hpick hlevel hjob hw hd'
    · exact ⟨h.sane, h.archive, fun _ _ => id⟩
  exact hpre.congr hsane hssts hfiles

end Sys.Archiving

theorem Sys.Compacted.level0_nil {task : CompactionTask} (hc : s.Compacted task removed s') (harcs : (s.db.sstables.flatten.map SSTableReader.arc).Nodup)
    (hpick : pickCompaction s.db.options.maxLevels s.db.sstables = some (some task)) (hlevel : task.level = 0) :
    s'.db.sstables.headD [] = [] := by
  obtain ⟨es, f, r, -, -, -, -, -, -, hout, ⟨vs, hdb⟩, -⟩ := hc
  have hcompacts := updateLevels_compacts hpick harcs hout r
  rw [hlevel] at hcompacts
  obtain ⟨next, below, -, hlevels⟩ := hcompacts.level0_inv
  rw [hdb]
  show (updateLevels task r s.db.sstables).headD [] = []
  rw [hlevels]
  rfl

/-- A compaction of level 0 keeps the archive, wherever it stops. -/
theorem compact_archiving {task : CompactionTask} (h : s.Archiving ops)
    (hpick : pickCompaction s.db.options.maxLevels s.db.sstables = some (some task)) (hlevel : task.level = 0) :
    Triple (compact task) s (fun _ s' => s'.Archiving ops ∧ s.world.disk.Preserved ops s'.world.disk)
      (fun _ s' => s.world.disk.Preserved ops s'.world.disk) := by
  have hrun := ((compact_spec task s h.alone.next_ne_zero).and (compact_alone h.alone hpick)).and
    ((fronted_rule.compact s task h.fronted hpick).and (compact_intact h.alone.intact h.alone.next_ne_zero h.alone.unused hpick))
  refine Triple.intro (fun u s' hr => ?_) fun _ s' hr => ?_
  swap
  · obtain ⟨⟨hspec, halone, -⟩, -⟩ := hrun.error hr
    rcases hspec with hc | ⟨removed, hremoved, hc⟩
    · exact h.stopped hpick hlevel hc halone.reached.sane
    · exact (h.compacted hpick hlevel hc hremoved halone.reached.sane).1
  obtain ⟨⟨hspec, halone, hkept, -⟩, hfronted, -, -, hread, -⟩ := hrun.ok hr
  have hmem : s'.db.memtables = s.db.memtables := hkept.memtables_eq
  have hsane := halone.reached.sane
  obtain ⟨hpre, hfrom, hlevel0⟩ : s.world.disk.Preserved ops s'.world.disk ∧
      (∀ n e, s'.world.disk.Has n e → ∃ m, s.world.disk.Has m e) ∧ s'.Level0OnTop := by
    rcases hspec with ⟨hjob, hdb, hat⟩ | hc
    · -- nothing was left to write
      have hw : s.world.disk.Written s.db.nextFileNumber [] s'.world.disk := by
        rw [hat.disk_eq]
        exact .abandoned rfl
      refine ⟨h.out_written hpick hlevel hjob hw hsane, fun n e he => ⟨n, ?_⟩, ?_⟩
      · exact (hw.of_has h.sane h.alone.unused he).resolve_right fun hnew => List.not_mem_nil hnew.2.2
      · exact h.level0.written h.alone.numbered h.sane hw (.inl ⟨by rw [hdb]; rfl, rfl⟩)
    · obtain ⟨hpre, hfrom⟩ := h.compacted hpick hlevel hc (List.prefix_refl _) hsane
      have hnil := hc.level0_nil h.alone.intact.arcs hpick hlevel
      refine ⟨hpre, hfrom, ?_, ?_⟩
      · rw [hnil]
        exact List.forall_mem_nil _
      · rw [hnil]
        exact List.forall_mem_nil _
  refine ⟨?_, hpre⟩
  exact {
    alone := halone
    fronted := hfronted
    readable := by rw [hread]; exact h.readable
    lasting := h.lasting
    writes := hkept.writes.trans h.writes
    sequence := hkept.sequence.trans h.sequence
    memtables := by rw [hmem]; exact h.memtables
    archive := hpre.archive
    newer := fun m hm a ha n e he hkey => by
      rw [hmem] at hm
      obtain ⟨n', he'⟩ := hfrom n e he
      exact h.newer m hm a ha n' e he' hkey
    level0 := hlevel0
    stored := fun i op hop => by
      rw [hmem]
      exact (h.stored i op hop).imp_right (hpre.holds _ _) }

end AiDb
