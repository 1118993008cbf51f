import AiDb.Reached
import AiDb.Visibility

/-!
# Snapshots in one thread

A snapshot reads the memtables at its sequence number, and the tables as they are
when it reads. A table has no sequence numbers: of a key it holds what was newest
when the memtable was flushed.
-/

namespace AiDb

open Library Compaction

variable {s s' : Sys} {w w' start : World} {view : Bytes → Option Bytes}

-- ---------------------------------------------------------------------------
-- What a snapshot reads
-- ---------------------------------------------------------------------------

def Sys.memSeen (s : Sys) (seq : Nat) (key : Bytes) : Option Value := s.db.memtables.findSome? (·.get key seq)

def Sys.seen (s : Sys) (seq : Nat) (key : Bytes) : Option Bytes :=
  ((s.memSeen seq key).or (firstLive (scanOrder s.tables) key)).map Value.bytes

theorem Sys.Intact.getAtSequence_eq (hs : s.Intact) (hread : ∀ file off, s.world.unreadable file off = false)
    (seq : Nat) (key : Bytes) : s.db.getAtSequence s.world key seq = .ok (s.seen seq key) := by
  unfold DB.getAtSequence Sys.seen Sys.memSeen DB.memtables
  rw [hs.firstAnswer_eq hread]
  cases List.findSome? _ _ <;> rfl

theorem Sys.seen_congr (hmem : s'.memSeen seq key = s.memSeen seq key) (htables : s'.tables = s.tables) :
    s'.seen seq key = s.seen seq key := by
  simp only [Sys.seen, hmem, htables]

theorem Sys.MemtablesKept.memSeen_eq (h : s.MemtablesKept s') (seq : Nat) (key : Bytes) :
    s'.memSeen seq key = s.memSeen seq key := by
  simp only [Sys.memSeen, DB.memtables, h.memtable, h.immutableMemtables]

-- ---------------------------------------------------------------------------
-- Writes
-- ---------------------------------------------------------------------------

theorem WriteOp.get_apply {key : Bytes} {bound sequence : Nat} (op : WriteOp) (h : bound < sequence) :
    (op.apply m stamp sequence).get key bound = m.get key bound := by
  have hnewest : (op.apply m stamp sequence).newest key bound = m.newest key bound := by
    cases op <;> exact MemTable.newest_insert_above h rfl
  rw [MemTable.get_eq, MemTable.get_eq, hnewest]

theorem applyOps_get {bound sequence : Nat} (ops : List WriteOp) (h : bound < sequence) :
    (applyOps m stamp sequence ops).get key bound = m.get key bound := by
  induction ops generalizing m stamp sequence with
  | nil => rfl
  | cons op ops ih => rw [applyOps, ih (Nat.lt_succ_of_lt h), op.get_apply h]

theorem Sys.memSeen_insert (ops : List WriteOp) (h : seq ≤ s.db.sequence) :
    (s.insert ops).memSeen seq key = s.memSeen seq key := by
  simp only [Sys.memSeen, DB.memtables, Sys.insert, List.findSome?_cons, applyOps_get ops (Nat.lt_succ_of_le h)]

theorem Sys.memSeen_freeze (s : Sys) (seq : Nat) (key : Bytes) : s.freeze.memSeen seq key = s.memSeen seq key := by
  have hnew : (MemTable.new (s.db.sequence + 1)).get key seq = none := rfl
  simp [Sys.memSeen, DB.memtables, Sys.freeze, DB.freeze, hnew]

/-- A snapshot that was taken in the world `start` shows `view`, as long as no table
file is written over. -/
structure Sys.Showing (seq : Nat) (start : World) (view : Bytes → Option Bytes) (s : Sys) : Prop where
  reached : s.Reached
  le : seq ≤ s.db.sequence
  noOverwrite : s.world.NoOverwrite → start.NoOverwrite
  seen : s.world.NoOverwrite → ∀ key, s.seen seq key = view key

theorem Sys.Showing.kept (h : s.Showing seq start view) (hs : s'.Reached) (hk : s.TablesKept s')
    (hle : s.db.sequence ≤ s'.db.sequence) (hmem : ∀ key, s'.memSeen seq key = s.memSeen seq key) :
    s'.Showing seq start view := by
  have hpast : s'.world.NoOverwrite → s.world.NoOverwrite := by
    unfold World.NoOverwrite
    rw [hk.handed]
    exact id
  refine ⟨hs, h.le.trans hle, fun hno => h.noOverwrite (hpast hno), fun hno key => ?_⟩
  rw [Sys.seen_congr (hmem key) hk.tables_eq, h.seen (hpast hno) key]

theorem Sys.Showing.logs (h : s.Showing seq start view) (hl : s.Logs s') : s'.Showing seq start view := by
  refine h.kept (h.reached.logs hl) hl.tablesKept ?_ fun key => ?_
  all_goals
    obtain ⟨wal, n, logs, faults, -, rfl⟩ := hl
    rfl

theorem Call.run_write_showing {c : Call} (hc : c.IsWrite) : Keeps (Sys.Showing seq start view) c.run := by
  refine Call.write_rule ?_ ?_ ?_ (fun _ _ h hl => h.logs hl) hc
  · intro s n h
    exact h.kept (h.reached.tablesKept (s.tablesKept_bump n) (h.reached.bounded.bump n)) (s.tablesKept_bump n)
      (Nat.le_add_right _ _) fun _ => rfl
  · intro s ops h
    exact h.kept (h.reached.tablesKept (s.tablesKept_insert ops) (h.reached.bounded.insert ops))
      (s.tablesKept_insert ops) (Nat.le_add_right _ _) fun _ => Sys.memSeen_insert ops h.le
  · intro s h
    exact h.kept (h.reached.tablesKept s.tablesKept_freeze h.reached.bounded.freeze) s.tablesKept_freeze
      (le_refl _) fun key => s.memSeen_freeze seq key

-- ---------------------------------------------------------------------------
-- Flushes
-- ---------------------------------------------------------------------------

theorem firstLive_tablesOf (ms : List MemTable) (key : Bytes) :
    firstLive (tablesOf ms) key = ms.findSome? fun m => live ((m.version key).map Prod.snd) := by
  induction ms with
  | nil => rfl
  | cons m ms ih =>
    have hcons : tablesOf (m :: ms) = tablesOf [m] ++ tablesOf ms := tablesOf_append [m] ms
    have hone : firstLive (tablesOf [m]) key = live ((m.version key).map Prod.snd) := by
      rw [← m.stored_table key]
      by_cases hm : m.table = []
      · simp [tablesOf, firstLive, stored, hm]
      · simp [tablesOf, firstLive, hm]
    rw [hcons, firstLive_append, hone, ih, List.findSome?_cons]
    cases live ((m.version key).map Prod.snd) <;> rfl

theorem tablesOf_reverse (ms : List MemTable) : (tablesOf ms).reverse = tablesOf ms.reverse := by
  simp [tablesOf]

/-- What readers find once all memtables are tables: level 0 answers first, from its
oldest table on, then the memtables from the oldest on, by their newest versions. -/
def Sys.seenFlushed (s : Sys) (key : Bytes) : Option Bytes :=
  ((firstLive (s.tables.headD []).reverse key).or
    ((s.db.memtables.reverse.findSome? fun m => live ((m.version key).map Prod.snd)).or
      (firstLive (scanOrder s.tables.tail) key))).map Value.bytes

theorem MemTable.get_of_isEmpty {m : MemTable} (h : m.isEmpty = true) (key : Bytes) (seq : Sequence) :
    m.get key seq = none := by
  have hnil : m.iter = [] := by simpa [MemTable.isEmpty, MemTable.iter] using h
  rw [MemTable.get_eq, MemTable.newest, hnil]
  rfl

theorem Sys.Emptied.seen_eq (h : s.Emptied s') (hno : s'.world.NoOverwrite) (hs : s.Reached) (key : Bytes) :
    s'.seen seq key = s.seenFlushed key := by
  obtain ⟨-, htables⟩ := h.tables hno (hs.intact (h.noOverwrite hno))
  obtain ⟨m, hm, hempty⟩ := h.memtables
  have hmem : s'.memSeen seq key = none := by
    simp only [Sys.memSeen, hm, List.findSome?_cons, m.get_of_isEmpty hempty, List.findSome?_nil]
  have hlevels : s.tables ≠ [] := by
    rw [Sys.tables, Ne, List.map_eq_nil_iff]
    exact hs.levels
  obtain ⟨l0, below, hl⟩ := List.exists_cons_of_ne_nil hlevels
  have hscan : scanOrder s'.tables = l0.reverse ++ (tablesOf s.db.memtables.reverse ++ scanOrder below) := by
    rw [htables, hl, ← tablesOf_reverse]
    simp [scanOrder]
  rw [Sys.seen, Sys.seenFlushed, hmem, hscan, hl, firstLive_append, firstLive_append, firstLive_tablesOf]
  rfl

structure Sys.FlushesUnseen (seq : Nat) (s : Sys) : Prop where
  calm : s.world.faults = []
  keys : ∀ m ∈ s.db.memtables, ∀ e ∈ m.iter, e.1.userKey ≠ []
  same : ∀ key, s.seenFlushed key = s.seen seq key

theorem flushMemtables_showing (h : s.Showing seq start view) (hc : s.FlushesUnseen seq) :
    Triple flushMemtables s (fun _ => Sys.Showing seq start view) (fun _ _ => False) := by
  have hreached := flushMemtables_eq (flushImmutables_rule reached_rule.round _ h.reached.frozen)
  have hcalm := flushMemtables_calm h.reached.sane hc.calm hc.keys
  refine ((hcalm.and (flushMemtables_emptied s)).and hreached).mono ?_ (fun _ _ hf => hf.1.1)
  rintro _ s1 ⟨⟨-, hempty⟩, hs1⟩
  refine ⟨hs1, by rw [hempty.sequence]; exact h.le, fun hno => h.noOverwrite (hempty.noOverwrite hno),
    fun hno key => ?_⟩
  rw [hempty.seen_eq hno h.reached, hc.same, h.seen (hempty.noOverwrite hno)]

/-- The log is of no concern to readers, so its rotation may fail. -/
theorem rotateWal_showing : Keeps (Sys.Showing seq start view) rotateWal := by
  intro s h
  exact (rotateWal_logs s (.refl s)).mono (fun _ _ hl => h.logs hl) (fun _ _ hl => h.logs hl)

theorem flushTables_showing (h : s.Showing seq start view) (hc : s.FlushesUnseen seq) :
    Triple flushTables s (fun _ => Sys.Showing seq start view) (fun _ => Sys.Showing seq start view) :=
  ((flushMemtables_showing h hc).mono (fun _ _ => id) fun _ _ => False.elim).bind fun _ s1 h1 => rotateWal_showing s1 h1

-- ---------------------------------------------------------------------------
-- Compactions
-- ---------------------------------------------------------------------------

/-- What a compaction has to meet: of the keys that the memtables leave open at the
sequence number, readers get the same from level 0 and from the merge of level 0. -/
structure Sys.CompactsUnseenAt (seq : Nat) (s : Sys) : Prop where
  readable : ∀ file off, s.world.unreadable file off = false
  same : ∀ task, pickCompaction s.db.options.maxLevels s.db.sstables = some (some task) →
    0 < task.level ∨ (∀ key, live (firstStored (s.tables.headD []) key) = none) ∨
      ∀ key, s.memSeen seq key = none →
        ((firstLive (s.tables.headD []).reverse key).or (firstLive (scanOrder s.tables.tail) key)).map Value.bytes =
          ((live (firstStored (s.tables.headD []) key)).or (firstLive (scanOrder s.tables.tail) key)).map Value.bytes

theorem Sys.CompactsUnseenAt.seen_eq (hc : s.CompactsUnseenAt seq)
    (hpick : pickCompaction s.db.options.maxLevels s.db.sstables = some (some task)) (hkept : s.MemtablesKept s')
    (hm : Merges s.tables s'.tables) (key : Bytes) : s'.seen seq key = s.seen seq key := by
  have hunseen := hm.unseen_iff.mpr (by rw [← Sys.task_level_pos hpick]; exact hc.same task hpick) key
  rw [Sys.seen, Sys.seen, hkept.memSeen_eq]
  cases hmem : s.memSeen seq key with
  | some v => rfl
  | none => exact hunseen hmem

theorem Sys.Showing.compaction (h : s.Showing seq start view) (hc : s.CompactsUnseenAt seq)
    (hpick : pickCompaction s.db.options.maxLevels s.db.sstables = some (some task)) (hs' : s'.Reached)
    (hstep : s.TableStep s') (htables : s.Intact → s.db.nextFileNumber ∉ s.world.disk.ssts →
      s'.tables = s.tables ∨ Merges s.tables s'.tables) : s'.Showing seq start view := by
  refine ⟨hs', by rw [hstep.kept.sequence]; exact h.le, fun hno => h.noOverwrite (hstep.unused hno).2, fun hno key => ?_⟩
  obtain ⟨hunused, hno0⟩ := hstep.unused hno
  rw [← h.seen hno0 key]
  rcases htables (h.reached.intact hno0) hunused with htables | hmerges
  · exact Sys.seen_congr (hstep.kept.memSeen_eq seq key) htables
  · exact hc.seen_eq hpick hstep.kept hmerges key

-- ---------------------------------------------------------------------------
-- Calls
-- ---------------------------------------------------------------------------

/-- What a call has to meet in the state it starts from; a flush also in the state
in which it looks for a compaction. -/
def Sys.LeavesSnapshot (seq : Nat) (s : Sys) : Call → Prop
  | .put .. | .delete _ | .write _ => True
  | .flushTables => s.FlushesUnseen seq
  | .maybeTriggerCompaction => s.CompactsUnseenAt seq
  | .flush | .close => s.FlushesUnseen seq ∧ ∀ s1, flushTables s = .ok () s1 → s1.CompactsUnseenAt seq

theorem Sys.Showing.enter {db : DB} (h : Sys.Showing seq start view ⟨db, w⟩) (env : Env) :
    Sys.Showing seq start view ⟨db, w.enter env⟩ := ⟨h.reached.enter env, h.le, h.noOverwrite, h.seen⟩

theorem Sys.seenFlushed_first (hb : s.Bounded) (himm : s.db.immutableMemtables = []) (hl : s.db.sstables.flatten = [])
    (hv : ∀ e ∈ s.db.memtable.iter, e.2.bytes ≠ []) (key : Bytes) :
    s.seenFlushed key = s.seen s.db.sequence key := by
  have hnil : ∀ l ∈ s.tables, l = [] := by
    intro l hl'
    obtain ⟨rs, hrs, rfl⟩ := List.mem_map.mp hl'
    rw [List.flatten_eq_nil_iff.mp hl rs hrs]
    rfl
  have hscan : scanOrder s.tables = [] := by
    simpa [scanOrder, List.flatMap_eq_nil_iff] using hnil
  have htail : scanOrder s.tables.tail = [] := by
    simpa [scanOrder, List.flatMap_eq_nil_iff] using fun l hl => hnil l (List.mem_of_mem_tail hl)
  have hhead : s.tables.headD [] = [] := by
    cases ht : s.tables with
    | nil => rfl
    | cons l ls => exact hnil l (by rw [ht]; exact List.mem_cons_self)
  have hm : s.db.memtable.Bounded s.db.sequence := hb _ List.mem_cons_self
  have hlive : live ((s.db.memtable.version key).map Prod.snd) = MemTable.answer (s.db.memtable.version key) := by
    unfold MemTable.version
    cases hn : s.db.memtable.newest key ⊤ with
    | none => rfl
    | some e =>
      have he := (MemTable.newest_eq_some.mp hn).1
      have hvalue : e.1.valueType = .value := by
        cases ht : e.1.valueType with
        | value => rfl
        | deletion => exact absurd (hm.deletion e he ht) (hv e he)
      simp [hvalue, MemTable.answer, hv e he]
  rw [Sys.seenFlushed, hhead]
  simp [Sys.seen, Sys.memSeen, DB.memtables, himm, hscan, htail, firstLive, hlive, MemTable.get_eq_answer hm]

end AiDb
