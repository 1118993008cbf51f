import AiDb.Layers

/-!
# Deleted keys

`MemTable::get` and `SSTableReader::get` report a deleted key and an absent key
alike, so `DB::get` goes on past a tombstone to the older layers. A deleted key
stays deleted exactly when no older layer had an answer for it.
-/

namespace AiDb

open Library Compaction

variable {s s' : Sys}

-- ---------------------------------------------------------------------------
-- The last operation on a key
-- ---------------------------------------------------------------------------

theorem lastVersion_eq (key : Bytes) (stamp : Nat) (ops : List WriteOp) :
    match lastOp key ops with
    | none => lastVersion key stamp ops = none
    | some op => ∃ st, stamp ≤ st ∧ st < stamp + ops.length ∧ lastVersion key stamp ops = some (op.version st) := by
  induction ops generalizing stamp with
  | nil => rfl
  | cons op ops ih =>
    have ih := ih (stamp + 1)
    simp only [lastOp, lastVersion]
    cases hops : lastOp key ops with
    | some op' =>
      rw [hops] at ih
      obtain ⟨st, hge, hlt, hst⟩ := ih
      exact ⟨st, by omega, by simp only [List.length_cons]; omega, by rw [hst]; rfl⟩
    | none =>
      rw [hops] at ih
      rw [show lastVersion key (stamp + 1) ops = none from ih]
      by_cases hk : op.key = key
      · simp only [hk, ↓reduceIte, Option.none_or]
        exact ⟨stamp, le_refl _, by simp, rfl⟩
      · simp [hk]

theorem Call.isWrite_of_ops {c : Call} (h : c.ops ≠ []) : c.IsWrite := by
  cases c with
  | put | delete | write => trivial
  | _ => exact absurd rfl h

-- ---------------------------------------------------------------------------
-- No layer answers
-- ---------------------------------------------------------------------------

/-- What `get` finds below the active memtable. -/
def Sys.getBelow (s : Sys) (key : Bytes) : Except Error (Option Bytes) :=
  ({ s.db with memtable := MemTable.new 1 } : DB).get s.world key

/-- No memtable and no table answers for the key. -/
structure Sys.Quiet (s : Sys) (key : Bytes) : Prop where
  memtables : ∀ m ∈ s.db.memtables, MemTable.answer (m.version key) = none
  tables : ∀ es ∈ s.tables.flatten, live (stored es key) = none

theorem mem_scanOrder {levels : List (List α)} : x ∈ scanOrder levels ↔ x ∈ levels.flatten := by
  simp [scanOrder, List.mem_flatten]

theorem Sys.quiet_iff {key : Bytes} : s.Quiet key ↔ s.answer key = none := by
  unfold Sys.answer
  rw [Option.or_eq_none_iff, List.findSome?_eq_none_iff, List.findSome?_eq_none_iff]
  refine ⟨fun h => ⟨h.memtables, fun es hes => h.tables es (mem_scanOrder.mp hes)⟩, fun h => ⟨h.1, ?_⟩⟩
  exact fun es hes => h.2 es (mem_scanOrder.mpr hes)

theorem Sys.Sound.get_none (hs : s.Sound) {key : Bytes} : s.get key = .ok none ↔ s.Quiet key := by
  rw [Sys.get_eq hs.serving hs.bounded, Sys.quiet_iff]
  simp

theorem Sys.Sound.getBelow_none (hs : s.Sound) {key : Bytes} : s.getBelow key = .ok none ↔
    (s.db.immutableMemtables.reverse.findSome? fun m => MemTable.answer (m.version key)) = none ∧
      ∀ es ∈ s.tables.flatten, live (stored es key) = none := by
  have hs' : Sys.Sound { s with db := { s.db with memtable := MemTable.new 1 } } := by
    refine ⟨hs.serving.kept ⟨rfl, rfl, rfl, rfl, rfl, rfl, rfl, rfl⟩, fun m hm => ?_⟩
    rcases List.mem_cons.mp hm with rfl | hm
    · exact MemTable.bounded_new
    · exact hs.bounded m (List.mem_cons_of_mem _ hm)
  refine hs'.get_none.trans ?_
  rw [List.findSome?_eq_none_iff]
  constructor
  · exact fun h => ⟨fun m hm => h.memtables m (List.mem_cons_of_mem _ hm), h.tables⟩
  · rintro ⟨hmem, htables⟩
    refine ⟨fun m hm => ?_, htables⟩
    rcases List.mem_cons.mp hm with rfl | hm
    · rfl
    · exact hmem m hm

theorem Sys.Wrote.quiet_iff (h : s.Wrote ops s') {key : Bytes} : s'.Quiet key ↔
    MemTable.answer ((lastVersion key s.world.writes ops).or (s.db.memtable.version key)) = none ∧
      (s.db.immutableMemtables.reverse.findSome? fun m => MemTable.answer (m.version key)) = none ∧
      ∀ es ∈ s.tables.flatten, live (stored es key) = none := by
  have hfind := h.find key MemTable.answer rfl
  constructor
  · intro hq
    have hnone := List.findSome?_eq_none_iff.mpr hq.memtables
    rw [hfind, Option.or_eq_none_iff] at hnone
    exact ⟨hnone.1, hnone.2, by rw [← h.tables]; exact hq.tables⟩
  · rintro ⟨hlast, hold, htables⟩
    refine ⟨List.findSome?_eq_none_iff.mp ?_, by rw [h.tables]; exact htables⟩
    rw [hfind, hlast, hold]
    rfl

theorem MemTable.live_stored_table {m : MemTable} (hb : m.Bounded bound)
    (h : MemTable.answer (m.version key) = none) : live (stored m.table key) = none := by
  rw [m.stored_table key]
  unfold MemTable.version at h ⊢
  cases hn : m.newest key ⊤ with
  | none => rfl
  | some e =>
    rw [hn] at h
    obtain ⟨⟨u, sq, t⟩, v⟩ := e
    cases t with
    | value => cases h
    | deletion =>
      have hbytes : v.bytes = [] := hb.deletion _ (MemTable.newest_eq_some.mp hn).1 rfl
      simp [hbytes]

theorem Sys.Flushed.quiet (hs : s.Sound) (h : s.Flushed s') {key : Bytes} (hq : s.Quiet key) : s'.Quiet key := by
  constructor
  · obtain ⟨m, hm, hempty⟩ := h.memtables
    intro m' hm'
    rw [hm, List.mem_singleton] at hm'
    have hnil : m.iter = [] := by simpa [MemTable.isEmpty, MemTable.iter] using hempty
    simp [hm', MemTable.version, MemTable.newest, hnil, MemTable.answer]
  · intro es hes
    rw [h.tables] at hes
    obtain ⟨l, hl, hesl⟩ := List.mem_flatten.mp hes
    cases ht : s.tables with
    | nil => rw [ht] at hl; simp at hl
    | cons l0 ls =>
      rw [ht] at hl
      have hold : ∀ es ∈ l0 ++ ls.flatten, live (stored es key) = none := by
        intro es hes
        refine hq.tables es ?_
        rw [ht]
        exact hes
      rcases List.mem_cons.mp hl with rfl | hl
      · rcases List.mem_append.mp hesl with hnew | hesl
        · obtain ⟨m, hm, rfl⟩ := List.mem_map.mp (List.mem_filter.mp hnew).1
          refine MemTable.live_stored_table (hs.bounded m ?_) (hq.memtables m hm)
          simpa [DB.memtables] using hm
        · exact hold es (List.mem_append_left _ hesl)
      · exact hold es (List.mem_append_right _ (List.mem_flatten.mpr ⟨l, hl, hesl⟩))

theorem live_firstStored {inputs : List (List Entry)} (h : ∀ es ∈ inputs, live (stored es key) = none) :
    live (firstStored inputs key) = none := by
  unfold firstStored
  induction inputs with
  | nil => rfl
  | cons es inputs ih =>
    rw [List.findSome?_cons]
    have hes := h es List.mem_cons_self
    cases hst : stored es key with
    | none => exact ih fun x hx => h x (List.mem_cons_of_mem _ hx)
    | some v => rwa [hst] at hes

theorem live_live (v : Option Value) : live (live v) = live v := by
  cases v with
  | none => rfl
  | some v =>
    rw [live_some]
    split
    · rfl
    · rename_i h
      rw [live_some, if_neg h]

theorem Merges.quiet (h : Merges t t') (hq : ∀ es ∈ t.flatten, live (stored es key) = none) :
    ∀ es ∈ t'.flatten, live (stored es key) = none := by
  cases h with
  | idle => exact hq
  | level0 _ _ hstored =>
    intro es hes
    simp only [List.flatten_cons, List.nil_append, List.mem_append, List.mem_singleton] at hes hq
    rcases hes with (hes | rfl) | hes
    · exact hq es (.inr (.inl hes))
    · rw [hstored key, live_live]
      exact live_firstStored fun x hx => hq x (.inl hx)
    · exact hq es (.inr (.inr hes))
  | @deeper es' x l0 above rest next below _ hstored =>
    intro es hes
    simp only [List.flatten_cons, List.flatten_append, List.mem_append, List.mem_cons,
      List.not_mem_nil, or_false] at hes hq
    have hout : live (stored es' key) = none := by
      rw [hstored key, live_live]
      exact hq x (.inr (.inr (.inl (.inl rfl))))
    rcases hes with hes | hes | hes | ((hes | rfl) | hes)
    · exact hq es (.inl hes)
    · exact hq es (.inr (.inl hes))
    · exact hq es (.inr (.inr (.inl (.inr hes))))
    · exact hq es (.inr (.inr (.inr (.inl hes))))
    · exact hout
    · exact hq es (.inr (.inr (.inr (.inr hes))))

theorem Call.run_quiet {c : Call} {key : Bytes} (hs : s.Sound) (hq : s.Quiet key)
    (hops : lastOp key c.ops = none) (h : c.run s = .ok () s') : s'.Quiet key := by
  by_cases hc : c.IsWrite
  · have hw := Call.run_wrote hc hs h
    have hlast := lastVersion_eq key s.world.writes c.ops
    rw [hops] at hlast
    rw [hw.quiet_iff, show lastVersion key s.world.writes c.ops = none from hlast, Option.none_or]
    refine ⟨hq.memtables _ List.mem_cons_self, ?_, hq.tables⟩
    exact List.findSome?_eq_none_iff.mpr fun m hm => hq.memtables m (List.mem_cons_of_mem _ hm)
  · refine (Call.run_rule (I := fun s => s.Quiet key) ?_ ?_ ?_ hc hs hq h).2
    · exact fun s s' hs hq hf => hf.quiet hs hq
    · intro s s' _ hq hkept hmerges
      refine ⟨?_, hmerges.quiet hq.tables⟩
      rw [DB.memtables, hkept.memtable, hkept.immutableMemtables]
      exact hq.memtables
    · intro s s' hq hl
      have htables := hl.tablesKept.tables_eq
      obtain ⟨wal, n, logs, faults, -, rfl⟩ := hl
      exact ⟨hq.memtables, by rw [htables]; exact hq.tables⟩

-- ---------------------------------------------------------------------------
-- Sessions
-- ---------------------------------------------------------------------------

/-- At every point of the session, a key whose last operation is a delete reads
as absent. -/
def DeletesFinal (len : CompressedLen) (o : Options) (cs : List Call) : Prop :=
  ∀ pre, pre <+: cs → ∀ s, Sys.session len o pre = some s →
    ∀ key, lastOp key (pre.flatMap Call.ops) = some (.delete key) → s.get key = .ok none

/-- Every delete finds the key unanswered by the frozen memtables and the
tables. -/
def DeletesHideNothing (len : CompressedLen) (o : Options) (cs : List Call) : Prop :=
  ∀ pre c, pre ++ [c] <+: cs → ∀ s s', Sys.session len o pre = some s → c.run s = .ok () s' →
    ∀ key, lastOp key c.ops = some (.delete key) → s.getBelow key = .ok none

theorem deletesFinal_iff (len : CompressedLen) (o : Options) (cs : List Call) :
    DeletesFinal len o cs ↔ DeletesHideNothing len o cs := by
  constructor
  · intro h pre c hpre s s' hs hrun key hlast
    have hsound := Sys.session_sound hs
    have hw := Call.run_wrote (Call.isWrite_of_ops (by rintro hnil; rw [hnil] at hlast; cases hlast)) hsound hrun
    have hget := h _ hpre s' (Sys.session_snoc.mpr ⟨s, hs, hrun⟩) key (by
      rw [List.flatMap_append, List.flatMap_singleton, lastOp_append, hlast]
      rfl)
    exact hsound.getBelow_none.mpr (hw.quiet_iff.mp (hw.sound.get_none.mp hget)).2
  · intro h pre hpre s hs
    -- along the session every deleted key is quiet
    have hquiet : pre <+: cs → ∀ key, lastOp key (pre.flatMap Call.ops) = some (.delete key) → s.Quiet key := by
      refine Sys.session_induction (I := fun pre s => pre <+: cs →
        ∀ key, lastOp key (pre.flatMap Call.ops) = some (.delete key) → s.Quiet key) ?_ ?_ hs
      · intro s _ _ key hlast
        cases hlast
      · intro pre c s s' hs ih hrun hpre key hlast
        have hsound := Sys.session_sound hs
        rw [List.flatMap_append, List.flatMap_singleton, lastOp_append] at hlast
        cases hc : lastOp key c.ops with
        | none =>
          rw [hc, Option.none_or] at hlast
          exact Call.run_quiet hsound (ih ((List.prefix_append _ _).trans hpre) key hlast) hc hrun
        | some op =>
          rw [hc, Option.some_or, Option.some.injEq] at hlast
          subst hlast
          have hw := Call.run_wrote (Call.isWrite_of_ops (by rintro hnil; rw [hnil] at hc; cases hc)) hsound hrun
          refine hw.quiet_iff.mpr ⟨?_, hsound.getBelow_none.mp (h pre c hpre s s' hs hrun key hc)⟩
          have hver := lastVersion_eq key s.world.writes c.ops
          rw [hc] at hver
          obtain ⟨st, -, -, hst⟩ := hver
          rw [hst]
          rfl
    intro key hlast
    exact (Sys.session_sound hs).get_none.mpr (hquiet hpre key hlast)

/-- A delete of a key that lies in a table has no effect on `get`. -/
theorem not_deletesFinal_flushed :
    ¬DeletesFinal .unused .plain [.put [97] [1], .flush, .delete [97]] := by
  intro h
  have hget : (Sys.session .unused .plain [.put [97] [1], .flush, .delete [97]]).map (·.get [97]) =
      some (.ok (some [1])) := by decide +kernel
  obtain ⟨s, hs, hs'⟩ := Option.map_eq_some_iff.mp hget
  have := h _ (List.prefix_refl _) s hs [97] (by decide)
  rw [hs'] at this
  cases this

end AiDb
