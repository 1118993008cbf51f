import AiDb.Library.Layering
import AiDb.OneSession
import AiDb.ReadErrors

/-!
# Levels 1 and deeper

A compaction of level 0 appends its output to level 1; one of a deeper level moves
the first table of the level to the end of the next. Either way the output takes a
place in the order of `get` right behind what is newer than it. Where its keys lie
is not looked at.
-/

namespace AiDb

open Library Compaction

variable {s s' : Sys}

-- ---------------------------------------------------------------------------
-- The output of a compaction
-- ---------------------------------------------------------------------------

theorem World.readBlock_yields (w : World) (r : SSTableReader) :
    Yields (fun e => e ∈ w.disk.entriesOf r) (w.readBlock r.file) := by
  intro handle es h e he
  unfold World.readBlock at h
  split_ifs at h
  split at h
  · rename_i f hf
    split at h
    · rename_i b hb
      cases h
      have hentries : w.disk.entriesOf r = f.entries := by
        unfold Disk.entriesOf
        rw [hf]
      rw [hentries]
      exact List.mem_flatMap.mpr ⟨b, List.mem_of_find?_eq_some hb, he⟩
    · cases h
  · cases h

theorem inputRead_yields (w : World) (inputs : List SSTableReader) (i : Nat) :
    Yields (fun e => ∃ r ∈ inputs, e ∈ w.disk.entriesOf r) (inputRead w inputs i) := by
  intro handle es h e he
  unfold inputRead at h
  cases hr : inputs[i]? with
  | none => rw [hr] at h; cases h
  | some r =>
    rw [hr] at h
    exact ⟨r, List.mem_of_getElem? hr, w.readBlock_yields r handle es h e he⟩

theorem Sys.mem_jobMerge (h : jobMerge s.world s.created inputs = .ok merged) (he : e ∈ merged) :
    ∃ r ∈ inputs, e ∈ s.world.disk.entriesOf r := by
  let P : Entry → Prop := fun e => ∃ r ∈ inputs, e ∈ s.world.disk.entriesOf r
  have hbefore : ∀ i, Yields P (inputRead s.world inputs i) := inputRead_yields s.world inputs
  have hafter : ∀ i, Yields P (inputRead s.created inputs i) := by
    intro i handle es h
    refine hbefore i handle es ?_
    unfold inputRead at h ⊢
    cases hi : inputs[i]? with
    | none => rw [hi] at h; cases h
    | some r => rw [hi] at h; exact World.readBlock_created h
  unfold jobMerge at h
  cases hnew : MergeIterator.new (inputRead s.world inputs) inputs with
  | error x => simp [hnew, Except.map] at h
  | ok m =>
    simp only [hnew, Except.map, Except.ok.injEq] at h
    subst h
    exact MergeIterator.collect_all _ hafter (MergeIterator.newFrom_all hbefore hnew) he

theorem Sys.mem_jobEntries (h : s.jobEntries task = .ok es) (he : e ∈ es) :
    ∃ r ∈ task.inputs, e ∈ s.world.disk.entriesOf r := by
  have h : (jobMerge s.world s.created task.inputs).map (survivors task.outputLevel none) = .ok es := h
  cases hmerge : jobMerge s.world s.created task.inputs with
  | error x =>
    rw [hmerge] at h
    cases h
  | ok merged =>
    rw [hmerge] at h
    cases h
    exact Sys.mem_jobMerge hmerge (mem_survivors he).1

theorem Compacts.scanOrder_tail (h : Compacts inputs out level levels levels') :
    ∃ before after, scanOrder levels'.tail = before ++ out :: after ∧
      (levels.headD [] = inputs ∧ levels'.headD [] = [] ∧ before = [] ∧ scanOrder levels.tail = after ∨
        ∃ x, inputs = [x] ∧ levels'.headD [] = levels.headD [] ∧ scanOrder levels.tail = before ++ x :: after) := by
  cases h with
  | @level0 next below =>
    exact ⟨[], scanOrder (next :: below), by simp [scanOrder], .inl ⟨rfl, rfl, rfl, rfl⟩⟩
  | @deeper x l0 above rest next below hx =>
    exact ⟨scanOrder (above ++ [rest]), scanOrder (next :: below), by simp [scanOrder],
      .inr ⟨x, hx, rfl, by simp [scanOrder]⟩⟩

-- ---------------------------------------------------------------------------
-- Recency
-- ---------------------------------------------------------------------------

/-- A version of the same key is an older one. -/
def Entry.Newer (a b : Entry) : Prop := a.key = b.key → b.value.stamp < a.value.stamp

def MemTable.versions (m : MemTable) : List Entry := m.iter.map fun e => ⟨e.1.userKey, e.2⟩

theorem MemTable.table_subset (m : MemTable) : m.table ⊆ m.versions := by
  intro e he
  rw [MemTable.table, MemTable.latestVersions_eq] at he
  exact (mem_survivors he).1

def Sys.deepTables (s : Sys) : List (List Entry) := scanOrder s.tables.tail

/-- All versions, from the active memtable down: level 0 is one layer, whatever the
order in it. -/
def Sys.layers (s : Sys) : List (List Entry) :=
  s.db.memtables.map MemTable.versions ++ (s.tables.headD []).flatten :: s.deepTables

/-- The later a version was written, the higher it lies. -/
structure Sys.Recent (s : Sys) : Prop where
  stamp_lt : ∀ es ∈ s.layers, ∀ e ∈ es, e.value.stamp < s.world.writes
  layered : Layered Entry.Newer s.layers

theorem Sys.Recent.congr (h : s.Recent) (hlayers : s'.layers = s.layers) (hwrites : s.world.writes ≤ s'.world.writes) :
    s'.Recent := by
  refine ⟨fun es hes e he => ?_, by rw [hlayers]; exact h.layered⟩
  rw [hlayers] at hes
  exact lt_of_lt_of_le (h.stamp_lt es hes e he) hwrites

theorem Sys.layers_congr (hmem : s'.db.memtables = s.db.memtables) (htables : s'.tables = s.tables) :
    s'.layers = s.layers := by
  simp [Sys.layers, Sys.deepTables, hmem, htables]

theorem Sys.MemtablesKept.memtables_eq (h : s.MemtablesKept s') : s'.db.memtables = s.db.memtables := by
  simp [DB.memtables, h.memtable, h.immutableMemtables]

-- ---------------------------------------------------------------------------
-- Recency of writes
-- ---------------------------------------------------------------------------

theorem mem_applyOps {m : MemTable} {stamp sequence : Nat} {ops : List WriteOp} (he : e ∈ (applyOps m stamp sequence ops).iter) :
    e ∈ m.iter ∨ stamp ≤ e.2.stamp ∧ e.2.stamp < stamp + ops.length := by
  induction ops generalizing m stamp sequence with
  | nil => exact .inl he
  | cons op ops ih =>
    rcases ih he with he | ⟨hge, hlt⟩
    · have hop : e ∈ m.iter ∨ e.2.stamp = stamp := by
        cases op with
        | put key value =>
          rcases (SkipMap.mem_insert _).mp he with rfl | ⟨he, -⟩
          · exact .inr rfl
          · exact .inl he
        | delete key =>
          rcases (SkipMap.mem_insert _).mp he with rfl | ⟨he, -⟩
          · exact .inr rfl
          · exact .inl he
      refine hop.imp_right fun heq => ?_
      simp [heq]
    · refine .inr ⟨Nat.le_of_succ_le hge, ?_⟩
      rw [List.length_cons]
      omega

theorem Sys.Recent.insert (h : s.Recent) (ops : List WriteOp) : (s.insert ops).Recent := by
  have hold : s.layers = s.db.memtable.versions ::
      (s.db.immutableMemtables.reverse.map MemTable.versions ++ (s.tables.headD []).flatten :: s.deepTables) := rfl
  have htables : (s.insert ops).tables = s.tables := (s.tablesKept_insert ops).tables_eq
  have hnew : (s.insert ops).layers = (s.insert ops).db.memtable.versions ::
      (s.db.immutableMemtables.reverse.map MemTable.versions ++ (s.tables.headD []).flatten :: s.deepTables) := by
    rw [Sys.layers, Sys.deepTables, htables]
    rfl
  have hwrites : (s.insert ops).world.writes = s.world.writes + ops.length := rfl
  have hmem : ∀ e ∈ (s.insert ops).db.memtable.versions, e ∈ s.db.memtable.versions ∨
      s.world.writes ≤ e.value.stamp ∧ e.value.stamp < s.world.writes + ops.length := by
    intro e he
    obtain ⟨x, hx, rfl⟩ := List.mem_map.mp he
    exact (mem_applyOps hx).imp_left fun hx => List.mem_map_of_mem hx
  have hlt := h.stamp_lt
  have hlayered := h.layered
  rw [hold] at hlt hlayered
  rw [layered_cons] at hlayered
  refine ⟨?_, ?_⟩
  · rw [hnew, hwrites]
    intro es hes e he
    rcases List.mem_cons.mp hes with rfl | hes
    · rcases hmem e he with he | ⟨-, hlt⟩
      · exact Nat.lt_add_right _ (hlt _ List.mem_cons_self e he)
      · exact hlt
    · exact Nat.lt_add_right _ (hlt es (List.mem_cons_of_mem _ hes) e he)
  · rw [hnew, layered_cons]
    refine ⟨fun bs hbs a ha b hb hk => ?_, hlayered.2⟩
    rcases hmem a ha with ha | ⟨hge, -⟩
    · exact hlayered.1 bs hbs a ha b hb hk
    · exact lt_of_lt_of_le (hlt bs (List.mem_cons_of_mem _ hbs) b hb) hge

theorem Sys.Recent.freeze (h : s.Recent) : s.freeze.Recent := by
  have hmem : s.freeze.db.memtables = MemTable.new (s.db.sequence + 1) :: s.db.memtables := by
    simp [DB.memtables, Sys.freeze, DB.freeze]
  have hlayers : s.freeze.layers = [] ++ [] :: s.layers := by
    rw [Sys.layers, Sys.deepTables, s.tablesKept_freeze.tables_eq, hmem]
    rfl
  refine ⟨?_, ?_⟩
  · have hwrites : s.freeze.world.writes = s.world.writes := rfl
    rw [hlayers, hwrites]
    simpa using h.stamp_lt
  · rw [hlayers]
    exact Layered.insert_nil (by simpa using h.layered)

theorem Sys.Recent.frozen (h : s.Recent) : s.frozen.Recent := by
  unfold Sys.frozen
  split
  · exact h
  · exact h.freeze

-- ---------------------------------------------------------------------------
-- Recency of tables
-- ---------------------------------------------------------------------------

theorem Sys.Recent.of_sub (h : s.Recent) (hsub : ∀ es ∈ s'.layers, ∀ e ∈ es, ∃ es' ∈ s.layers, e ∈ es')
    (hlayered : Layered Entry.Newer s'.layers) (hwrites : s'.world.writes = s.world.writes) : s'.Recent := by
  refine ⟨fun es hes e he => ?_, hlayered⟩
  obtain ⟨es', hes', he⟩ := hsub es hes e he
  rw [hwrites]
  exact h.stamp_lt es' hes' e he

theorem Sys.Recent.flushed (h : s.Recent) (himm : s.db.immutableMemtables = m :: rest)
    (hkept : (s.popped rest).MemtablesKept s') (hl0 : (s'.tables.headD []).flatten ⊆ m.versions ++ (s.tables.headD []).flatten)
    (hdeep : s'.deepTables = s.deepTables) : s'.Recent := by
  let upper := (s.db.memtable :: rest.reverse).map MemTable.versions
  have hold : s.layers = upper ++ m.versions :: (s.tables.headD []).flatten :: s.deepTables := by
    simp [upper, Sys.layers, DB.memtables, himm]
  have hnew : s'.layers = upper ++ (s'.tables.headD []).flatten :: s.deepTables := by
    rw [Sys.layers, hkept.memtables_eq, hdeep]
    rfl
  have hlayered := h.layered
  rw [hold] at hlayered
  refine h.of_sub (fun es hes e he => ?_) (by rw [hnew]; exact hlayered.join.shrink hl0) hkept.writes
  rw [hnew] at hes
  rw [hold]
  simp only [List.mem_append, List.mem_cons] at hes ⊢
  rcases hes with hes | rfl | hes
  · exact ⟨es, .inl hes, he⟩
  · rcases List.mem_append.mp (hl0 he) with he | he
    · exact ⟨_, .inr (.inl rfl), he⟩
    · exact ⟨_, .inr (.inr (.inl rfl)), he⟩
  · exact ⟨es, .inr (.inr (.inr hes)), he⟩

theorem Sys.Recent.compacted (h : s.Recent) (hkept : s.MemtablesKept s') (hsub : es ⊆ inputs.flatten)
    (hc : Compacts inputs es level s.tables s'.tables) : s'.Recent := by
  let upper := s.db.memtables.map MemTable.versions
  obtain ⟨before, after, hdeep', hcases⟩ := hc.scanOrder_tail
  have hnew : s'.layers = upper ++ (s'.tables.headD []).flatten :: (before ++ es :: after) := by
    rw [Sys.layers, hkept.memtables_eq, Sys.deepTables, hdeep']
  have hlayered := h.layered
  rcases hcases with ⟨hl0, hl0', rfl, hdeep⟩ | ⟨x, rfl, hl0, hdeep⟩
  · have hold : s.layers = upper ++ inputs.flatten :: after := by rw [Sys.layers, Sys.deepTables, hdeep, hl0]
    rw [hl0', List.flatten_nil, List.nil_append] at hnew
    rw [hold] at hlayered
    refine h.of_sub ?_ (by rw [hnew]; exact (hlayered.shrink hsub).insert_nil) hkept.writes
    rw [hnew, hold]
    intro es' hes' e he
    simp only [List.mem_append, List.mem_cons] at hes' ⊢
    rcases hes' with hes' | rfl | rfl | hes'
    · exact ⟨es', .inl hes', he⟩
    · cases he
    · exact ⟨_, .inr (.inl rfl), hsub he⟩
    · exact ⟨es', .inr (.inr hes'), he⟩
  · have hold : s.layers = (upper ++ (s.tables.headD []).flatten :: before) ++ x :: after := by
      rw [Sys.layers, Sys.deepTables, hdeep]
      simp [upper]
    rw [hl0, ← List.cons_append, ← List.append_assoc] at hnew
    rw [List.flatten_singleton] at hsub
    rw [hold] at hlayered
    refine h.of_sub ?_ (by rw [hnew]; exact hlayered.shrink hsub) hkept.writes
    rw [hnew, hold]
    intro es' hes' e he
    simp only [List.mem_append, List.mem_cons] at hes' ⊢
    rcases hes' with hes' | rfl | hes'
    · exact ⟨es', .inl hes', he⟩
    · exact ⟨x, .inr (.inl rfl), hsub he⟩
    · exact ⟨es', .inr (.inr hes'), he⟩

-- ---------------------------------------------------------------------------
-- The order of the deep levels
-- ---------------------------------------------------------------------------

theorem headD_modify_zero (levels : List (List α)) (a : α) :
    ((levels.modify 0 (a :: ·)).headD []) ⊆ a :: levels.headD [] ∧ (levels.modify 0 (a :: ·)).tail = levels.tail := by
  cases levels <;> simp

theorem flushMemtableToSstable_recent (h : s.Alone) (hr : s.Recent) (himm : s.db.immutableMemtables = m :: rest) :
    Triple (flushMemtableToSstable m) (s.popped rest) (fun _ s' => s'.Alone ∧ s'.Recent)
      (fun _ s' => s'.Alone ∧ s'.Recent) := by
  refine (flushMemtableToSstable_alone h himm).mono ?_ ?_
  · rintro _ s' ⟨h', hkept, htables⟩
    refine ⟨h', hr.flushed himm hkept ?_ ?_⟩
    · rw [htables]
      split
      · exact List.subset_append_right _ _
      · intro e he
        obtain ⟨es, hes, he⟩ := List.mem_flatten.mp he
        rcases List.mem_cons.mp ((headD_modify_zero s.tables m.table).1 hes) with rfl | hes
        · exact List.mem_append_left _ (m.table_subset he)
        · exact List.mem_append_right _ (List.mem_flatten.mpr ⟨es, hes, he⟩)
    · rw [Sys.deepTables, htables]
      split
      · rfl
      · rw [(headD_modify_zero s.tables m.table).2, Sys.deepTables]
  · rintro _ s' ⟨h', hkept, htables⟩
    refine ⟨h', hr.flushed himm hkept ?_ (by rw [Sys.deepTables, htables, Sys.deepTables])⟩
    rw [htables]
    exact List.subset_append_right _ _

theorem compact_recent (h : s.Alone) (hr : s.Recent)
    (hpick : pickCompaction s.db.options.maxLevels s.db.sstables = some (some task)) :
    Triple (compact task) s (fun _ s' => s'.Alone ∧ s'.Recent) (fun _ s' => s'.Alone ∧ s'.Recent) := by
  have hdone : ∀ s', s'.Alone ∧ s.MemtablesKept s' ∧ (s'.tables = s.tables ∨ ∃ es, s.jobEntries task = .ok es ∧
      Compacts (task.inputs.map s.world.disk.entriesOf) es task.level s.tables s'.tables) → s'.Alone ∧ s'.Recent := by
    rintro s' ⟨h', hkept, htables | ⟨es, hjob, hc⟩⟩
    · exact ⟨h', hr.congr (Sys.layers_congr hkept.memtables_eq htables) (le_of_eq hkept.writes.symm)⟩
    · refine ⟨h', hr.compacted hkept (fun e he => ?_) hc⟩
      obtain ⟨r, hr, he⟩ := Sys.mem_jobEntries hjob he
      exact List.mem_flatten.mpr ⟨_, List.mem_map_of_mem hr, he⟩
  exact (compact_alone h hpick).mono (fun _ => hdone) (fun _ => hdone)

theorem recent_rule : CallRule (fun s => s.Alone ∧ s.Recent) (fun s => s.Alone ∧ s.Recent) where
  weaken _ := id
  logs s s' h hl := by
    refine ⟨h.1.logs hl, ?_⟩
    have htables := hl.tablesKept.tables_eq
    obtain ⟨wal, n, logs, faults, -, rfl⟩ := hl
    exact h.2.congr (Sys.layers_congr rfl htables) (le_refl _)
  round s m rest h himm := flushMemtableToSstable_recent h.1 h.2 himm
  compact s task h hpick := compact_recent h.1 h.2 hpick

theorem Call.run_recent (c : Call) : Keeps (fun s => s.Alone ∧ s.Recent) c.run := by
  by_cases hc : c.IsWrite
  · refine Call.write_rule ?_ ?_ ?_ recent_rule.logs hc
    · exact fun s n h => ⟨h.1.bump n, h.2.congr (Sys.layers_congr rfl (s.tablesKept_bump n).tables_eq) (Nat.le_add_right _ n)⟩
    · exact fun s ops h => ⟨h.1.insert ops, h.2.insert ops⟩
    · exact fun s h => ⟨h.1.freeze, h.2.freeze⟩
  · exact fun s h => recent_rule.call hc h ⟨h.1.frozen, h.2.frozen⟩

theorem Sys.Blank.recent (h : s.Blank o) : s.Recent := by
  have hl0 : s.tables.headD [] = [] := by simp [Sys.tables, h.tables]
  have hdeep : s.deepTables = [] := by
    have hscan : ∀ n, scanOrder (List.replicate n ([] : List (List Entry))) = [] := by simp [scanOrder]
    rw [Sys.deepTables, Sys.tables, h.tables, List.map_cons, List.tail_cons, List.map_replicate]
    exact hscan _
  have hlayers : s.layers = [[], []] := by
    rw [Sys.layers, h.memtables, hl0, hdeep]
    rfl
  refine ⟨?_, ?_⟩
  · simp [hlayers]
  · rw [hlayers]
    simp [Layered, Above]

/-- In one session, whatever fails in it: of two tables at levels 1 and deeper that hold
a key, the one that `get` asks first has the version that was written later. -/
theorem deepLevels_newest_first (len : CompressedLen) (env : Env) (o : Options) (calls : List (Env × Call)) (db : DB)
    (w : World) (hrun : (State.init len).runs (oneSession env o calls) = ⟨some db, w⟩) :
    (scanOrder db.sstables.tail).Pairwise fun r r' => ∀ key v v', stored (w.disk.entriesOf r) key = some v →
      stored (w.disk.entriesOf r') key = some v' → v'.stamp < v.stamp := by
  have hJ := oneSession_rule (J := fun s => s.Alone ∧ s.Recent) (P := fun _ _ _ => True)
    (fun env o => (openDb_alone len env o).mono (fun db w h => ⟨h.1, h.2.recent⟩) (fun _ _ _ => trivial))
    (fun db w env h => ⟨h.1.enter env, h.2.congr rfl (le_refl _)⟩)
    (fun db w env c h _ => Call.run_recent c _ ⟨h.1.enter env, h.2.congr rfl (le_refl _)⟩)
    (State.along_true _) (by rw [hrun])
  rw [hrun] at hJ
  have hdeep : Sys.deepTables ⟨db, w⟩ = (scanOrder db.sstables.tail).map w.disk.entriesOf := by
    simp [Sys.deepTables, Sys.tables, scanOrder, List.flatMap_map, List.map_flatMap, ← List.map_tail]
  have hlayered := (layered_append.mp hJ.2.layered).2.1
  have hordered : Layered Entry.Newer (Sys.deepTables ⟨db, w⟩) := (layered_cons.mp hlayered).2
  rw [hdeep] at hordered
  refine (List.pairwise_map.mp hordered).imp ?_
  intro r r' h key v v' hv hv'
  exact h _ (mem_of_stored hv) _ (mem_of_stored hv') rfl

def eightFlushes : List (Env × Action) :=
  oneSession .calm .plain
    (List.replicate 8 [(.calm, .put [97] [1]), (.calm, .flush)]).flatten

def State.deepStamps (st : State) (key : Bytes) : Option (List (Option Nat)) :=
  st.db.map fun db => (scanOrder db.sstables.tail).map fun r => (stored (st.world.disk.entriesOf r) key).map Value.stamp

theorem deepLevels_newest_first_eightFlushes : ∃ db w, (State.init .unused).runs eightFlushes = ⟨some db, w⟩ ∧
    (scanOrder db.sstables.tail).map (fun r => (stored (w.disk.entriesOf r) [97]).map Value.stamp) = [some 7, some 3] ∧
    (scanOrder db.sstables.tail).Pairwise fun r r' => ∀ key v v', stored (w.disk.entriesOf r) key = some v →
      stored (w.disk.entriesOf r') key = some v' → v'.stamp < v.stamp := by
  have hstamps : ((State.init .unused).runs eightFlushes).deepStamps [97] = some [some 7, some 3] := by decide +kernel
  obtain ⟨db, hdb, hstamps⟩ := Option.map_eq_some_iff.mp hstamps
  have hrun : (State.init .unused).runs eightFlushes = ⟨some db, ((State.init .unused).runs eightFlushes).world⟩ := by
    rw [← hdb]
  exact ⟨db, _, hrun, hstamps, deepLevels_newest_first .unused .calm .plain _ db _ hrun⟩

end AiDb
