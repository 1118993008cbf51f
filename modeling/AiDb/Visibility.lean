import AiDb.LastWrite

/-!
# Compaction and readers

A compaction keeps the newest version of level 0, while `DB::get` answers from
its oldest table that has a value. A compaction of a deeper level moves one
table and no reader sees it.
-/

namespace AiDb

open Library Compaction

variable {s s' : Sys}

-- ---------------------------------------------------------------------------
-- Reading the tables
-- ---------------------------------------------------------------------------

def firstLive (tables : List (List Entry)) (key : Bytes) : Option Value :=
  tables.findSome? fun es => live (stored es key)

theorem firstLive_append (as bs : List (List Entry)) (key : Bytes) :
    firstLive (as ++ bs) key = (firstLive as key).or (firstLive bs key) := by
  simp [firstLive, List.findSome?_append]

theorem firstLive_cons (es : List Entry) (bs : List (List Entry)) (key : Bytes) :
    firstLive (es :: bs) key = (live (stored es key)).or (firstLive bs key) := by
  rw [firstLive, List.findSome?_cons, firstLive]
  cases live (stored es key) <;> rfl

def Sys.memAnswer (s : Sys) (key : Bytes) : Option Value :=
  s.db.memtables.findSome? fun m => MemTable.answer (m.version key)

theorem Sys.answer_eq (s : Sys) (key : Bytes) :
    s.answer key = (s.memAnswer key).or (firstLive (scanOrder s.tables) key) := rfl

theorem Sys.MemtablesKept.memAnswer_eq (h : s.MemtablesKept s') (key : Bytes) :
    s'.memAnswer key = s.memAnswer key := by
  rw [Sys.memAnswer, DB.memtables, h.memtable, h.immutableMemtables]
  rfl

theorem firstLive_moved (hstored : ∀ key, stored es key = live (stored x key)) (key : Bytes) :
    firstLive (scanOrder (l0 :: (above ++ rest :: (next ++ [es]) :: below))) key =
      firstLive (scanOrder (l0 :: (above ++ (x :: rest) :: next :: below))) key := by
  simp [scanOrder, firstLive_append, firstLive_cons, hstored key, live_live]

theorem firstLive_merged (hstored : ∀ key, stored es key = live (firstStored inputs key)) (key : Bytes) :
    firstLive (scanOrder ([] :: (next ++ [es]) :: below)) key =
      (live (firstStored inputs key)).or (firstLive (scanOrder (next :: below)) key) := by
  simp [scanOrder, firstLive_append, firstLive_cons, hstored key, live_live]

-- ---------------------------------------------------------------------------
-- The condition
-- ---------------------------------------------------------------------------

/-- What a task has to meet in the state it is picked in: it is of a level below
0; or level 0 has only tombstones for newest versions; or, for every key the
memtables leave open, asking level 0 from its oldest table and then the deeper
levels gives the bytes of the newest version of level 0, or what the deeper
levels have if that is none or a tombstone. -/
def Sys.CompactsUnseen (s : Sys) (task : CompactionTask) : Prop :=
  0 < task.level ∨ (∀ key, live (firstStored (s.tables.headD []) key) = none) ∨
    ∀ key, s.memAnswer key = none →
      ((firstLive (s.tables.headD []).reverse key).or (firstLive (scanOrder s.tables.tail) key)).map Value.bytes =
        ((live (firstStored (s.tables.headD []) key)).or (firstLive (scanOrder s.tables.tail) key)).map
          Value.bytes

theorem exists_stored (h : es ≠ []) : ∃ key v, stored es key = some v := by
  obtain ⟨e, es, rfl⟩ := List.exists_cons_of_ne_nil h
  exact ⟨e.key, e.value, by simp [stored]⟩

theorem Merges.unseen_iff {P : Bytes → Prop} (h : Merges t t') :
    (∀ key, P key → (firstLive (scanOrder t') key).map Value.bytes = (firstLive (scanOrder t) key).map Value.bytes) ↔
      (t.headD []).length < maxLevel0Files ∨ (∀ key, live (firstStored (t.headD []) key) = none) ∨
        ∀ key, P key →
          ((firstLive (t.headD []).reverse key).or (firstLive (scanOrder t.tail) key)).map Value.bytes =
            ((live (firstStored (t.headD []) key)).or (firstLive (scanOrder t.tail) key)).map Value.bytes := by
  cases h with
  | idle hidle => exact ⟨fun _ => hidle.imp_right .inl, fun _ _ _ => rfl⟩
  | @level0 es inputs next below hlen hes hstored =>
    obtain ⟨k, v, hkv⟩ := exists_stored hes
    have hwritten : ¬∀ key, live (firstStored inputs key) = none := by
      intro h
      rw [hstored k, h k] at hkv
      cases hkv
    simp only [List.headD_cons, List.tail_cons, not_lt.mpr hlen, hwritten, false_or]
    refine forall_congr' fun key => imp_congr_right fun _ => ?_
    rw [firstLive_merged hstored, show scanOrder (inputs :: next :: below) =
      inputs.reverse ++ scanOrder (next :: below) from rfl, firstLive_append]
    exact eq_comm
  | deeper hlt hstored =>
    refine ⟨fun _ => .inl hlt, fun _ key _ => ?_⟩
    rw [firstLive_moved hstored key]

theorem Sys.task_level_pos (hpick : pickCompaction s.db.options.maxLevels s.db.sstables = some (some task)) :
    0 < task.level ↔ (s.tables.headD []).length < maxLevel0Files := by
  rw [s.length_level0]
  rcases pickCompaction_cases hpick with ⟨l, ls, hl, hlen, rfl⟩ | ⟨hlen, i, _, _, hi, -, rfl⟩
  · rw [hl]
    exact ⟨fun h => absurd h (lt_irrefl 0), fun h => absurd h (not_lt.mpr hlen)⟩
  · exact ⟨fun _ => hlen, fun _ => hi⟩

theorem compact_unseen_iff (hs : s.Sound)
    (hpick : pickCompaction s.db.options.maxLevels s.db.sstables = some (some task))
    (hrun : compact task s = .ok () s') : (∀ key, s'.get key = s.get key) ↔ s.CompactsUnseen task := by
  obtain ⟨hs', hkept, hmerges⟩ := compact_merges hs hpick hrun
  have hget : (∀ key, s'.get key = s.get key) ↔ ∀ key, s.memAnswer key = none →
      (firstLive (scanOrder s'.tables) key).map Value.bytes =
        (firstLive (scanOrder s.tables) key).map Value.bytes := by
    refine forall_congr' fun key => ?_
    rw [Sys.get_eq hs'.serving hs'.bounded, Sys.get_eq hs.serving hs.bounded, Except.ok.injEq, Sys.answer_eq,
      Sys.answer_eq, hkept.memAnswer_eq]
    cases s.memAnswer key <;> simp
  rw [hget, Sys.CompactsUnseen, Sys.task_level_pos hpick]
  exact hmerges.unseen_iff

-- ---------------------------------------------------------------------------
-- Sessions
-- ---------------------------------------------------------------------------

/-- In every state a session reaches, a compaction that returns is unseen by
readers exactly when the task met the condition. -/
theorem session_compact_unseen_iff (hs : Sys.session len o cs = some s)
    (hpick : pickCompaction s.db.options.maxLevels s.db.sstables = some (some task))
    (hrun : compact task s = .ok () s') : (∀ key, s'.get key = s.get key) ↔ s.CompactsUnseen task :=
  compact_unseen_iff (Sys.session_sound hs) hpick hrun

def fourTables (value : UInt8 → Bytes) : List Call :=
  [0, 1, 2, 3].flatMap fun i => [.put [97] (value i), .flushTables]

def Sys.compactPicked (s : Sys) : Option (CompactionTask × Sys) :=
  match pickCompaction s.db.options.maxLevels s.db.sstables with
  | some (some task) =>
    match compact task s with
    | .ok () s' => some (task, s')
    | .error _ _ => none
  | _ => none

theorem Sys.compactPicked_eq (h : s.compactPicked = some (task, s')) :
    pickCompaction s.db.options.maxLevels s.db.sstables = some (some task) ∧ compact task s = .ok () s' := by
  unfold Sys.compactPicked at h
  split at h
  · rename_i task' hpick
    split at h
    · rename_i s1 hrun
      cases h
      exact ⟨hpick, hrun⟩
    · cases h
  · cases h

theorem session_compact_unseen_sameValue : ∃ s task s',
    Sys.session .unused .plain (fourTables fun _ => [1]) = some s ∧
      pickCompaction s.db.options.maxLevels s.db.sstables = some (some task) ∧ compact task s = .ok () s' ∧
      ((∀ key, s'.get key = s.get key) ↔ s.CompactsUnseen task) := by
  have hrun : ((Sys.session .unused .plain (fourTables fun _ => [1])).bind Sys.compactPicked).isSome := by
    decide +kernel
  obtain ⟨⟨task, s'⟩, hres⟩ := Option.isSome_iff_exists.mp hrun
  obtain ⟨s, hs, hcompact⟩ := Option.bind_eq_some_iff.mp hres
  obtain ⟨hpick, hok⟩ := Sys.compactPicked_eq hcompact
  exact ⟨s, task, s', hs, hpick, hok, session_compact_unseen_iff hs hpick hok⟩

/-- Four versions of a key in level 0: `get` answers with the oldest before the
compaction, and with the newest after it. -/
theorem not_compact_unseen_fourVersions :
    ¬∀ s task s', Sys.session .unused .plain (fourTables fun i => [i]) = some s →
      pickCompaction s.db.options.maxLevels s.db.sstables = some (some task) → compact task s = .ok () s' →
      ∀ key, s'.get key = s.get key := by
  intro h
  have hrun : ((Sys.session .unused .plain (fourTables fun i => [i])).bind fun s =>
      s.compactPicked.map fun r => (s.get [97], r.2.get [97])) = some (.ok (some [0]), .ok (some [3])) := by
    decide +kernel
  obtain ⟨s, hs, hres⟩ := Option.bind_eq_some_iff.mp hrun
  obtain ⟨⟨task, s'⟩, hcompact, hgets⟩ := Option.map_eq_some_iff.mp hres
  obtain ⟨hpick, hok⟩ := Sys.compactPicked_eq hcompact
  have := h s task s' hs hpick hok [97]
  simp only [Prod.mk.injEq] at hgets
  rw [hgets.1, hgets.2] at this
  cases this

end AiDb
