import AiDb.Compacting
import AiDb.Files

/-!
# The calls of a session

What every call that returns does to the memtables and to the contents of the
tables. Writes change the active memtable only, and may freeze it. A flush puts
the tables of all memtables in front of level 0, the newest first.
-/

namespace AiDb

open Library Compaction

structure Sys.Sound (s : Sys) : Prop where
  serving : s.Serving
  bounded : s.Bounded

variable {s s' : Sys}

-- ---------------------------------------------------------------------------
-- Writes
-- ---------------------------------------------------------------------------

/-- The active memtable with the operations, in front of the frozen ones; and
an empty one in front of it when it was full. -/
structure Sys.Wrote (s : Sys) (ops : List WriteOp) (s' : Sys) : Prop where
  sound : s'.Sound
  tables : s'.tables = s.tables
  writes : s'.world.writes = s.world.writes + ops.length
  find : ∀ (key : Bytes) (g : Option (ValueType × Value) → Option Value), g none = none →
    (s'.db.memtables.findSome? fun m => g (m.version key)) =
      (g ((lastVersion key s.world.writes ops).or (s.db.memtable.version key))).or
        (s.db.immutableMemtables.reverse.findSome? fun m => g (m.version key))

theorem MemTable.version_new : (MemTable.new start).version key = none := rfl

theorem Sys.Sound.insert (hs : s.Sound) (ops : List WriteOp) : s.Wrote ops (s.insert ops) := by
  obtain ⟨hbounded, hversion⟩ := applyOps_spec s.world.writes ops (hs.bounded _ List.mem_cons_self)
  refine ⟨⟨hs.serving.kept (s.tablesKept_insert ops), ?_⟩, (s.tablesKept_insert ops).tables_eq, rfl, ?_⟩
  · intro m hm
    rcases List.mem_cons.mp hm with rfl | hm
    · exact hbounded
    · exact (hs.bounded m (List.mem_cons_of_mem _ hm)).mono (Nat.le_add_right _ _)
  · intro key g _
    rw [DB.memtables, List.findSome?_cons, ← hversion key]
    show _ = (g ((s.insert ops).db.memtable.version key)).or _
    cases g ((s.insert ops).db.memtable.version key) <;> rfl

theorem Sys.Wrote.freezeIfFull (h : s.Wrote ops s') : s.Wrote ops s'.freezeIfFull := by
  unfold Sys.freezeIfFull
  split
  · refine ⟨⟨h.sound.serving.kept s'.tablesKept_freeze, ?_⟩, s'.tablesKept_freeze.tables_eq.trans h.tables,
      h.writes, fun key g hg => ?_⟩
    · intro m hm
      rcases List.mem_cons.mp hm with rfl | hm
      · exact MemTable.bounded_new
      · rcases List.mem_append.mp hm with hm | hm
        · exact h.sound.bounded m (List.mem_cons_of_mem _ hm)
        · rw [List.mem_singleton.mp hm]
          exact h.sound.bounded _ List.mem_cons_self
    · rw [← h.find key g hg]
      simp [DB.memtables, Sys.freeze, DB.freeze, MemTable.version_new, hg]
  · exact h

theorem Sys.Wrote.logs (h : s.Wrote ops s') (hl : s'.Logs s'') : s.Wrote ops s'' := by
  have hk := hl.tablesKept
  obtain ⟨wal, n, logs, faults, -, rfl⟩ := hl
  exact ⟨⟨h.sound.serving.kept hk, h.sound.bounded⟩, hk.tables_eq.trans h.tables, h.writes, h.find⟩

theorem Call.run_wrote {c : Call} (hc : c.IsWrite) (hs : s.Sound) (h : c.run s = .ok () s') :
    s.Wrote c.ops s' := by
  cases c with
  | put key value => exact (hs.insert _).freezeIfFull.logs ((put_spec key value s).ok h)
  | delete key => exact (hs.insert _).logs ((delete_spec key s).ok h)
  | write batch =>
    by_cases hb : batch = []
    · subst hb
      cases h
      exact hs.insert []
    · exact (hs.insert _).freezeIfFull.logs ((write_spec batch hb s).ok h)
  | _ => exact hc.elim

-- ---------------------------------------------------------------------------
-- Flush
-- ---------------------------------------------------------------------------

def tablesOf (ms : List MemTable) : List (List Entry) := (ms.map MemTable.table).filter (· ≠ [])

theorem tablesOf_append (ms ms' : List MemTable) : tablesOf (ms ++ ms') = tablesOf ms ++ tablesOf ms' := by
  simp [tablesOf]

theorem findSome_tablesOf (ms : List MemTable) (key : Bytes) :
    ((tablesOf ms).findSome? fun es => stored es key) =
      ms.findSome? fun m => (m.version key).map Prod.snd := by
  induction ms with
  | nil => rfl
  | cons m ms ih =>
    rw [List.findSome?_cons, ← ih, ← m.stored_table key]
    by_cases hm : m.table = []
    · simp [tablesOf, hm, stored]
    · simp only [tablesOf, List.map_cons]
      rw [List.filter_cons_of_pos (by simpa using hm), List.findSome?_cons]

theorem modify_modify (as bs : List α) (levels : List (List α)) (i : Nat) :
    (levels.modify i (as ++ ·)).modify i (bs ++ ·) = levels.modify i (bs ++ as ++ ·) := by
  induction levels generalizing i with
  | nil => simp
  | cons l ls ih => cases i <;> simp [ih]

theorem modify_nil_append (levels : List (List α)) (i : Nat) : levels.modify i ([] ++ ·) = levels := by
  induction levels generalizing i with
  | nil => simp
  | cons l ls ih => cases i <;> simp_all

/-- All memtables are written to level 0 and the active one is empty. -/
structure Sys.Flushed (s s' : Sys) : Prop where
  sound : s'.Sound
  tables : s'.tables = s.tables.modify 0 (tablesOf s.db.memtables ++ ·)
  memtables : ∃ m, s'.db.memtables = [m] ∧ m.isEmpty = true
  options : s'.db.options = s.db.options
  writes : s'.world.writes = s.world.writes

theorem flushImmutables_intact (rounds : Nat) (hr : s.db.immutableMemtables.length = rounds) :
    Triple (flushImmutables rounds) s
      (fun _ s' => (s.popped []).MemtablesKept s' ∧ s'.world.unreadable = s.world.unreadable ∧ (s'.world.NoOverwrite → s.world.NoOverwrite ∧ (s.Intact →
        s'.Intact ∧ s'.tables = s.tables.modify 0 (tablesOf s.db.immutableMemtables.reverse ++ ·))))
      (fun _ _ => True) := by
  induction rounds generalizing s with
  | zero =>
    rw [List.length_eq_zero_iff] at hr
    refine Triple.pure ⟨⟨rfl, hr, rfl, rfl, rfl⟩, rfl, fun hno => ⟨hno, fun hs => ⟨hs, ?_⟩⟩⟩
    rw [hr]
    exact (modify_nil_append s.tables 0).symm
  | succ rounds ih =>
    unfold flushImmutables
    refine Triple.get_bind ?_
    cases hm : s.db.immutableMemtables with
    | nil => rw [hm] at hr; cases hr
    | cons m rest =>
      refine Triple.modify_bind ?_
      refine (Triple.returns fun n s1 h1 =>
        (⟨(flushMemtableToSstable_step m (s.popped rest)).ok h1, h1⟩ : _ ∧ _)).bind ?_
      rintro n s1 ⟨hstep, h1⟩
      have himm1 : s1.db.immutableMemtables = rest := hstep.kept.immutableMemtables
      refine (ih (by rw [himm1]; rw [hm] at hr; simpa using hr)).mono ?_ (fun _ _ => id)
      rintro _ s2 ⟨hkept, hread, htables⟩
      refine ⟨⟨hkept.memtable.trans hstep.kept.memtable, hkept.immutableMemtables,
        hkept.sequence.trans hstep.kept.sequence, hkept.options.trans hstep.kept.options,
        hkept.writes.trans hstep.kept.writes⟩, hread.trans hstep.unreadable, fun hno => ?_⟩
      obtain ⟨hno1, hintact⟩ := htables hno
      obtain ⟨hunused, hno0⟩ := hstep.unused hno1
      refine ⟨hno0, fun hs => ?_⟩
      obtain ⟨hs1, htables1, -⟩ := flushMemtableToSstable_intact m (hs.kept (s.tablesKept_popped rest)) hunused h1
      obtain ⟨hs2, htables2⟩ := hintact hs1
      refine ⟨hs2, ?_⟩
      rw [htables2, htables1, himm1, List.reverse_cons, tablesOf_append]
      by_cases ht : m.table = []
      · simp [ht, tablesOf, (s.tablesKept_popped rest).tables_eq]
      · rw [if_neg ht, (s.tablesKept_popped rest).tables_eq]
        have hone : tablesOf [m] = [m.table] := by simp [tablesOf, ht]
        rw [hone]
        exact modify_modify [m.table] _ _ _

/-- All memtables were written to level 0, if no file was written over. -/
structure Sys.Emptied (s s' : Sys) : Prop where
  memtables : ∃ m, s'.db.memtables = [m] ∧ m.isEmpty = true
  sequence : s'.db.sequence = s.db.sequence
  options : s'.db.options = s.db.options
  writes : s'.world.writes = s.world.writes
  unreadable : s'.world.unreadable = s.world.unreadable
  noOverwrite : s'.world.NoOverwrite → s.world.NoOverwrite
  tables : s'.world.NoOverwrite → s.Intact →
    s'.Intact ∧ s'.tables = s.tables.modify 0 (tablesOf s.db.memtables ++ ·)

theorem flushMemtables_emptied (s : Sys) :
    Triple flushMemtables s (fun _ => s.Emptied) (fun _ _ => True) := by
  refine flushMemtables_eq ((flushImmutables_intact _ rfl).mono ?_ fun _ _ => id)
  rintro _ s1 ⟨hkept, hread, htables⟩
  have hmem : s1.db.memtables = [s1.db.memtable] := by
    rw [DB.memtables, hkept.immutableMemtables]
    rfl
  unfold Sys.frozen at hkept hread htables
  split at hkept
  · rename_i hempty
    rw [if_pos hempty] at hread htables
    refine ⟨⟨_, hmem, by rw [hkept.memtable]; exact hempty⟩, hkept.sequence, hkept.options, hkept.writes,
      hread, fun hno => (htables hno).1, fun hno hs => ?_⟩
    obtain ⟨hs1, htables1⟩ := (htables hno).2 hs
    refine ⟨hs1, ?_⟩
    rw [htables1, DB.memtables]
    simp [tablesOf, MemTable.table_eq_nil.mpr hempty]
  · rename_i hempty
    rw [if_neg hempty] at hread htables
    refine ⟨⟨_, hmem, by rw [hkept.memtable]; rfl⟩, hkept.sequence, hkept.options, hkept.writes,
      hread, fun hno => (htables hno).1, fun hno hs => ?_⟩
    obtain ⟨hs1, htables1⟩ := (htables hno).2 (hs.kept s.tablesKept_freeze)
    refine ⟨hs1, ?_⟩
    rw [htables1, s.tablesKept_freeze.tables_eq]
    simp [Sys.freeze, DB.freeze, DB.memtables]

theorem Sys.Emptied.logs (h : s.Emptied s1) (hl : s1.Logs s') : s.Emptied s' := by
  have hk := hl.tablesKept
  obtain ⟨wal, n, logs, faults, -, rfl⟩ := hl
  refine ⟨h.memtables, h.sequence, h.options, h.writes, h.unreadable, h.noOverwrite, fun hno hs => ?_⟩
  obtain ⟨hs1, htables1⟩ := h.tables hno hs
  exact ⟨hs1.kept hk, hk.tables_eq.trans htables1⟩

theorem flushTables_emptied (h : flushTables s = .ok () s') : s.Emptied s' := by
  have hrun : Triple flushTables s (fun _ => s.Emptied) (fun _ _ => True) := by
    refine (flushMemtables_emptied s).bind fun _ s1 h1 => ?_
    exact (rotateWal_logs s1 (.refl s1)).mono (fun _ s2 hl => h1.logs hl) fun _ _ _ => trivial
  exact hrun.ok h

theorem flushTables_flushed (hs : s.Sound) (h : flushTables s = .ok () s') : s.Flushed s' := by
  have hn : s'.Numbered := (flushTables_numbered s hs.serving.numbered).ok h
  have he := flushTables_emptied h
  obtain ⟨hs', htables⟩ := he.tables hn.unused hs.serving.intact
  refine ⟨⟨hs'.serving hn (by rw [he.unreadable]; exact hs.serving.readable), ?_⟩, htables, he.memtables, he.options, he.writes⟩
  obtain ⟨m, hm, hempty⟩ := he.memtables
  intro m' hm'
  have : m' ∈ s'.db.memtables := by simpa [DB.memtables] using hm'
  rw [hm, List.mem_singleton] at this
  rw [this]
  exact MemTable.bounded_of_isEmpty hempty

-- ---------------------------------------------------------------------------
-- Compaction
-- ---------------------------------------------------------------------------

/-- What the compaction after a flush does to the contents. With nothing to
write, the inputs of the task stay where they are. -/
inductive Merges : List (List (List Entry)) → List (List (List Entry)) → Prop
  | idle : ((t.headD []).length < maxLevel0Files ∨ ∀ key, live (firstStored (t.headD []) key) = none) →
      Merges t t
  | level0 : maxLevel0Files ≤ inputs.length → es ≠ [] →
      (∀ key, stored es key = live (firstStored inputs key)) →
      Merges (inputs :: next :: below) ([] :: (next ++ [es]) :: below)
  | deeper : l0.length < maxLevel0Files → (∀ key, stored es key = live (stored x key)) →
      Merges (l0 :: (above ++ (x :: rest) :: next :: below)) (l0 :: (above ++ rest :: (next ++ [es]) :: below))

theorem Sys.length_level0 (s : Sys) : (s.tables.headD []).length = (s.db.sstables.headD []).length := by
  unfold Sys.tables
  cases s.db.sstables <;> simp

theorem Sys.Intact.merges (hs : s.Intact) (hread : ∀ file off, s.world.unreadable file off = false)
    (hunused : s.db.nextFileNumber ∉ s.world.disk.ssts)
    (hpick : pickCompaction s.db.options.maxLevels s.db.sstables = some (some task))
    (hjob : s.jobEntries task = .ok es)
    (htables : if es = [] then s'.tables = s.tables
      else Compacts (task.inputs.map s.world.disk.entriesOf) es task.level s.tables s'.tables) :
    Merges s.tables s'.tables := by
  obtain ⟨es', hjob', hstored⟩ := hs.jobEntries_ok hread hunused (picked_mem hpick)
  obtain rfl : es' = es := by rw [hjob'] at hjob; cases hjob; rfl
  simp only [Compaction.kept, if_pos (pickCompaction_outputLevel hpick)] at hstored
  rcases pickCompaction_cases hpick with ⟨l, ls, hl, hfiles, rfl⟩ | ⟨hfiles, i, x, rest, hi, hx, rfl⟩
  · have hl0 : s.tables.headD [] = l.map s.world.disk.entriesOf := by rw [Sys.tables, hl]; rfl
    split_ifs at htables with hes
    · rw [htables]
      refine .idle (.inr fun key => ?_)
      rw [hl0]
      refine (hstored key).symm.trans ?_
      rw [hes]
      rfl
    · obtain ⟨next, below, ht, ht'⟩ := htables.level0_inv
      rw [ht, ht']
      exact .level0 (by simpa using hfiles) hes hstored
  · have hlt : (s.tables.headD []).length < maxLevel0Files := by rw [s.length_level0]; exact hfiles
    split_ifs at htables with hes
    · rw [htables]
      exact .idle (.inl hlt)
    · obtain ⟨l0, above, rest, next, below, ht, ht'⟩ := htables.deeper_inv hi
      rw [ht] at hlt
      rw [ht, ht']
      refine .deeper hlt fun key => ?_
      refine (hstored key).trans ?_
      simp [firstStored]

theorem compact_merges (hs : s.Sound)
    (hpick : pickCompaction s.db.options.maxLevels s.db.sstables = some (some task))
    (h : compact task s = .ok () s') : s'.Sound ∧ s.MemtablesKept s' ∧ Merges s.tables s'.tables := by
  have hne : s.db.nextFileNumber ≠ 0 := by have := hs.serving.numbered.two_le; omega
  have hunused := hs.serving.numbered.next_unused
  have hn : s'.Numbered := (compact_numbered task s hs.serving.numbered).ok h
  obtain ⟨hs', hkept, hread, es, hjob, htables⟩ := (compact_intact hs.serving.intact hne hunused hpick).ok h
  refine ⟨⟨hs'.serving hn (by rw [hread]; exact hs.serving.readable), ?_⟩, hkept,
    hs.serving.intact.merges hs.serving.readable hunused hpick hjob htables⟩
  intro m hm
  rw [hkept.memtable, hkept.immutableMemtables] at hm
  rw [hkept.sequence]
  exact hs.bounded m hm

theorem maybeTriggerCompaction_merges (hs : s.Sound) (h : maybeTriggerCompaction s = .ok () s') :
    s'.Sound ∧ s.MemtablesKept s' ∧ Merges s.tables s'.tables := by
  have hrun : Triple maybeTriggerCompaction s
      (fun _ s' => s'.Sound ∧ s.MemtablesKept s' ∧ Merges s.tables s'.tables) (fun _ _ => True) := by
    unfold maybeTriggerCompaction
    refine Triple.get_bind ?_
    dsimp only
    split
    · exact Triple.throw trivial
    · rename_i hpick
      refine Triple.pure ⟨hs, ⟨rfl, rfl, rfl, rfl, rfl⟩, .idle (.inl ?_)⟩
      rw [s.length_level0]
      exact pickCompaction_none hpick
    · rename_i task hpick
      exact Triple.returns fun _ s' h => compact_merges hs hpick h
  exact hrun.ok h

-- ---------------------------------------------------------------------------
-- Whole calls
-- ---------------------------------------------------------------------------

theorem flush_cases (h : flush s = .ok () s') :
    ∃ s1, flushTables s = .ok () s1 ∧ maybeTriggerCompaction s1 = .ok () s' := by
  have heq : flush = flushTables >>= fun _ => maybeTriggerCompaction := by
    unfold flush flushTables
    rw [bind_assoc]
  rw [heq] at h
  obtain ⟨_, s1, h1, h2⟩ := bind_eq_ok h
  exact ⟨s1, h1, h2⟩

/-- The log writer apart, `close` is `flush`. -/
theorem close_cases (h : close s = .ok () s') : ∃ s1, flush s = .ok () s1 ∧ s1.Logs s' := by
  obtain ⟨_, s1, h1, h2⟩ := bind_eq_ok h
  refine ⟨s1, h1, ?_⟩
  have hsync : Keeps s1.Logs (do if (← get).db.options.useWal then walSync : M Unit) :=
    Keeps.get.bind fun s => Keeps.ite walSync_logs Keeps.pure
  exact (hsync s1 (.refl s1)).ok h2

theorem Sys.Sound.logs (hs : s.Sound) (hl : s.Logs s') : s'.Sound := by
  have hk := hl.tablesKept
  obtain ⟨wal, n, logs, faults, -, rfl⟩ := hl
  exact ⟨hs.serving.kept hk, hs.bounded⟩

theorem Call.run_rule {I : Sys → Prop} (hflush : ∀ s s', s.Sound → I s → s.Flushed s' → I s')
    (hmerge : ∀ s s', s.Sound → I s → s.MemtablesKept s' → Merges s.tables s'.tables → I s')
    (hlogs : ∀ s s', I s → s.Logs s' → I s') {c : Call} (hc : ¬c.IsWrite) (hs : s.Sound) (hI : I s)
    (h : c.run s = .ok () s') : s'.Sound ∧ I s' := by
  have hcompact : ∀ s s', s.Sound → I s → AiDb.maybeTriggerCompaction s = .ok () s' →
      s'.Sound ∧ I s' := by
    intro s s' hs hI h
    obtain ⟨hs', hkept, hmerges⟩ := maybeTriggerCompaction_merges hs h
    exact ⟨hs', hmerge s s' hs hI hkept hmerges⟩
  have hfull : ∀ s', AiDb.flush s = .ok () s' → s'.Sound ∧ I s' := by
    intro s' h
    obtain ⟨s1, h1, h2⟩ := flush_cases h
    have hf := flushTables_flushed hs h1
    exact hcompact s1 s' hf.sound (hflush s s1 hs hI hf) h2
  cases c with
  | flushTables =>
    have hf := flushTables_flushed hs h
    exact ⟨hf.sound, hflush s s' hs hI hf⟩
  | maybeTriggerCompaction => exact hcompact s s' hs hI h
  | flush => exact hfull s' h
  | close =>
    obtain ⟨s1, h1, hl⟩ := close_cases h
    obtain ⟨hs1, hI1⟩ := hfull s1 h1
    exact ⟨hs1.logs hl, hlogs s1 s' hI1 hl⟩
  | _ => exact absurd trivial hc

theorem Call.run_sound {c : Call} (hs : s.Sound) (h : c.run s = .ok () s') : s'.Sound := by
  by_cases hc : c.IsWrite
  · exact (Call.run_wrote hc hs h).sound
  · exact (Call.run_rule (I := fun _ => True) (fun _ _ _ _ _ => trivial) (fun _ _ _ _ _ _ => trivial)
      (fun _ _ _ _ => trivial) hc hs trivial h).1

-- ---------------------------------------------------------------------------
-- Sessions
-- ---------------------------------------------------------------------------

theorem Sys.fresh_sound (h : Sys.fresh len o = some s) :
    s.Sound ∧ s.db.memtables = [MemTable.new 1] ∧ s.tables = [] :: List.replicate (o.maxLevels - 1) [] ∧
      s.db.options = o ∧ s.world.writes = 0 := by
  unfold Sys.fresh at h
  split at h
  · rename_i db w hrun
    cases h
    obtain ⟨hsame, recovered, tables, vs, lo, hi, rfl, hrec, hloads, -, -, -⟩ := (openDb_spec o _).ok hrun
    obtain ⟨dir, logs, manifest, faults, arcs, -, -, rfl⟩ := hsame
    have hnil : (World.empty len).disk.replayedLog = ⟨[], []⟩ := rfl
    rw [hnil, Wal.recoverAll_nil] at hrec
    cases hrec
    obtain rfl : tables = [] := by
      cases tables with
      | nil => rfl
      | cons r rs =>
        obtain ⟨n, hn, -⟩ := hloads.mem List.mem_cons_self
        simp [sortedSsts, World.empty] at hn
    refine ⟨⟨(Sys.Intact.of_empty (by simp [openedDb])).serving ⟨le_refl 2, ?_, ?_⟩ fun _ _ => rfl, ?_⟩, rfl, ?_, rfl, rfl⟩
    · exact fun n hn => absurd hn (AList.notMem_empty n)
    · simp [World.empty]
    · intro m hm
      rw [List.mem_singleton.mp hm]
      exact MemTable.bounded_new
    · simp [Sys.tables, openedDb]
  · cases h

theorem Sys.session_sound (h : Sys.session len o cs = some s) : s.Sound :=
  Sys.session_induction (I := fun _ s => s.Sound) (fun _ h => (Sys.fresh_sound h).1)
    (fun _ _ _ _ _ hs h => Call.run_sound hs h) h

end AiDb
