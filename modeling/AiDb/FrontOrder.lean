import AiDb.Dated

/-!
# The order of level 0

A merge takes the first table that holds a key. A flush puts its table in front, so
what was written since the database was opened stands in the order of the writes,
from the newest on. The tables that were there at the open stand in the order of
their names, from the oldest on.
-/

namespace AiDb

open Library Compaction

variable {s s' : Sys} {db : DB} {w w' : World}

-- ---------------------------------------------------------------------------
-- Newest first
-- ---------------------------------------------------------------------------

/-- A version of the same key is no newer, if the first was written from `n` on. -/
def Entry.NoOlder (n : Nat) (a b : Entry) : Prop := a.key = b.key → n ≤ a.value.stamp → b.value.stamp ≤ a.value.stamp

/-- The memtables and the tables of level 0, each in front of what was flushed before it. -/
def Sys.flushed (s : Sys) : List (List Entry) := s.db.memtables.map MemTable.versions ++ s.tables.headD []

/-- What was written from `n` on stands in front of what is older. -/
def Sys.InOrder (n : Nat) (s : Sys) : Prop := Layered (Entry.NoOlder n) s.flushed

theorem Sys.InOrder.congr (h : s.InOrder n) (hmem : s'.db.memtables = s.db.memtables) (htables : s'.tables = s.tables) :
    s'.InOrder n := by
  unfold Sys.InOrder Sys.flushed
  rw [hmem, htables]
  exact h

theorem Sys.Past.of_flushed (h : s.Past) (hes : es ∈ s.flushed) (he : e ∈ es) : e.value.stamp ≤ s.world.writes := by
  rcases List.mem_append.mp hes with hes | hes
  · obtain ⟨m, hm, rfl⟩ := List.mem_map.mp hes
    exact h.memtables m hm e he
  · have hes : es ∈ s.tables.flatten := by
      cases hl : s.tables with
      | nil => rw [hl] at hes; cases hes
      | cons l ls => rw [hl] at hes; exact List.mem_append_left _ hes
    obtain ⟨level, hlevel, hes⟩ := List.mem_flatten.mp hes
    obtain ⟨rs, -, rfl⟩ := List.mem_map.mp hlevel
    obtain ⟨r, -, rfl⟩ := List.mem_map.mp hes
    exact h.files.entriesOf he

theorem Sys.InOrder.insert (h : s.InOrder n) (hp : s.Past) (ops : List WriteOp) : (s.insert ops).InOrder n := by
  have hold : s.flushed = s.db.memtable.versions ::
      (s.db.immutableMemtables.reverse.map MemTable.versions ++ s.tables.headD []) := rfl
  have hnew : (s.insert ops).flushed = (s.insert ops).db.memtable.versions ::
      (s.db.immutableMemtables.reverse.map MemTable.versions ++ s.tables.headD []) := by
    rw [Sys.flushed, (s.tablesKept_insert ops).tables_eq]
    rfl
  unfold Sys.InOrder at h ⊢
  rw [hold, layered_cons] at h
  rw [hnew, layered_cons]
  refine ⟨fun bs hbs a ha b hb hk hn => ?_, h.2⟩
  obtain ⟨x, hx, rfl⟩ := List.mem_map.mp ha
  rcases mem_applyOps hx with hx | ⟨hge, -⟩
  · exact h.1 bs hbs _ (List.mem_map_of_mem hx) b hb hk hn
  · exact (hp.of_flushed (by rw [hold]; exact List.mem_cons_of_mem _ hbs) hb).trans hge

theorem Sys.InOrder.freeze (h : s.InOrder n) : s.freeze.InOrder n := by
  have hmem : s.freeze.db.memtables = MemTable.new (s.db.sequence + 1) :: s.db.memtables := by
    simp [DB.memtables, Sys.freeze, DB.freeze]
  have hnew : s.freeze.flushed = [] ++ [] :: s.flushed := by
    rw [Sys.flushed, s.tablesKept_freeze.tables_eq, hmem]
    rfl
  unfold Sys.InOrder
  rw [hnew]
  exact Layered.insert_nil h

theorem Sys.InOrder.flush (h : s.InOrder n) (himm : s.db.immutableMemtables = m :: rest)
    (hkept : (s.popped rest).MemtablesKept s')
    (hl0 : s'.tables.headD [] = s.tables.headD [] ∨ s'.tables.headD [] = m.table :: s.tables.headD []) : s'.InOrder n := by
  let upper := (s.db.memtable :: rest.reverse).map MemTable.versions
  have hold : s.flushed = upper ++ m.versions :: s.tables.headD [] := by
    simp [upper, Sys.flushed, DB.memtables, himm]
  have hnew : s'.flushed = upper ++ s'.tables.headD [] := by
    rw [Sys.flushed, hkept.memtables_eq]
    rfl
  unfold Sys.InOrder at h ⊢
  rw [hold] at h
  rw [hnew]
  rcases hl0 with hl0 | hl0
  · rw [hl0]
    exact h.sublist ((List.sublist_cons_self _ _).append_left upper)
  · rw [hl0]
    exact h.shrink m.table_subset

theorem Sys.InOrder.compacted (h : s.InOrder n) (hkept : s.MemtablesKept s')
    (hc : Compacts inputs es level s.tables s'.tables) : s'.InOrder n := by
  unfold Sys.InOrder Sys.flushed at h ⊢
  rw [hkept.memtables_eq]
  obtain ⟨before, after, -, ⟨-, hl0, -⟩ | ⟨x, -, hl0, -⟩⟩ := hc.scanOrder_tail
  · rw [hl0]
    exact h.sublist ((List.nil_sublist _).append_left _)
  · rwa [hl0]

-- ---------------------------------------------------------------------------
-- Sessions
-- ---------------------------------------------------------------------------

def Sys.Fronted (n : Nat) (s : Sys) : Prop := (s.Reached ∧ s.Past) ∧ (s.world.NoOverwrite → s.InOrder n)

theorem Sys.Fronted.kept (h : s.Fronted n) (hr : s'.Reached) (hp : s'.Past) (hk : s.TablesKept s')
    (ho : s.InOrder n → s'.InOrder n) : s'.Fronted n := by
  refine ⟨⟨hr, hp⟩, fun hno => ho (h.2 ?_)⟩
  unfold World.NoOverwrite at hno ⊢
  rwa [← hk.handed]

theorem Sys.Fronted.logs (h : s.Fronted n) (hl : s.Logs s') : s'.Fronted n := by
  refine h.kept (h.1.1.logs hl) (h.1.2.logs hl) hl.tablesKept fun ho => ho.congr ?_ hl.tablesKept.tables_eq
  obtain ⟨wal, m, logs, faults, -, rfl⟩ := hl
  rfl

theorem Sys.Fronted.freeze (h : s.Fronted n) : s.freeze.Fronted n :=
  h.kept (h.1.1.tablesKept s.tablesKept_freeze h.1.1.bounded.freeze) h.1.2.freeze s.tablesKept_freeze fun ho => ho.freeze

theorem fronted_rule : CallRule (Sys.Fronted n) (Sys.Fronted n) where
  weaken _ := id
  logs _ _ h hl := h.logs hl
  round s m rest h himm := by
    have hrun := (reached_rule.round s m rest h.1.1 himm).and (flushMemtableToSstable_past h.1.2 himm)
    have hstep := flushMemtableToSstable_step m (s.popped rest)
    have htables : (s.popped rest).tables = s.tables := (s.tablesKept_popped rest).tables_eq
    have hp := h.1.1.popped himm
    refine Triple.intro (fun k s' hr => ⟨hrun.ok hr, fun hno => ?_⟩) (fun e s' hr => ⟨hrun.error hr, fun hno => ?_⟩)
    · obtain ⟨hunused, hno⟩ := (hstep.ok hr).unused hno
      obtain ⟨-, ht, hkept⟩ := flushMemtableToSstable_intact m (hp.intact hno) hunused hr
      refine (h.2 hno).flush himm hkept ?_
      rw [ht, htables]
      split
      · exact .inl rfl
      · right
        have hne : s.tables ≠ [] := by simpa [Sys.tables] using h.1.1.levels
        obtain ⟨l, ls, hl⟩ := List.exists_cons_of_ne_nil hne
        simp [hl]
    · obtain ⟨hunused, hno⟩ := (hstep.error hr).unused hno
      obtain ⟨-, ht, hkept, -⟩ := flushMemtableToSstable_intact_error m (hp.intact hno) hunused hr
      exact (h.2 hno).flush himm hkept (.inl (by rw [ht, htables]))
  compact s task h hpick := by
    have hne : s.db.nextFileNumber ≠ 0 := by have := h.1.1.two_le; omega
    have hrun := (reached_rule.compact s task h.1.1 hpick).and (compact_past h.1.2 hne)
    have hstep := compact_step task s hne
    refine Triple.intro (fun k s' hr => ⟨hrun.ok hr, fun hno => ?_⟩) (fun e s' hr => ⟨hrun.error hr, fun hno => ?_⟩)
    · obtain ⟨hunused, hno⟩ := (hstep.ok hr).unused hno
      obtain ⟨-, hkept, -, es, -, ht⟩ := (compact_intact (h.1.1.intact hno) hne hunused hpick).ok hr
      split at ht
      · exact (h.2 hno).congr hkept.memtables_eq ht
      · exact (h.2 hno).compacted hkept ht
    · obtain ⟨hunused, hno⟩ := (hstep.error hr).unused hno
      obtain ⟨-, hkept, -, ht⟩ := (compact_intact (h.1.1.intact hno) hne hunused hpick).error hr
      rcases ht with ht | ⟨es, -, -, ht⟩
      · exact (h.2 hno).congr hkept.memtables_eq ht
      · exact (h.2 hno).compacted hkept ht

theorem Call.run_fronted (c : Call) : Keeps (Sys.Fronted n) c.run := by
  by_cases hc : c.IsWrite
  · refine Call.write_rule ?_ ?_ ?_ (fun _ _ h hl => h.logs hl) hc
    · exact fun s k h => h.kept (h.1.1.tablesKept (s.tablesKept_bump k) (h.1.1.bounded.bump k)) (h.1.2.bump k) (s.tablesKept_bump k)
        fun ho => ho.congr rfl (s.tablesKept_bump k).tables_eq
    · exact fun s ops h => h.kept (h.1.1.tablesKept (s.tablesKept_insert ops) (h.1.1.bounded.insert ops)) (h.1.2.insert ops)
        (s.tablesKept_insert ops) fun ho => ho.insert h.1.2 ops
    · exact fun s h => h.freeze
  · intro s h
    refine fronted_rule.call hc h ?_
    unfold Sys.frozen
    split
    · exact h
    · exact h.freeze

theorem Sys.Fronted.enter (h : Sys.Fronted n ⟨db, w⟩) (env : Env) : Sys.Fronted n ⟨db, w.enter env⟩ :=
  ⟨⟨h.1.1.enter env, h.1.2.memtables, h.1.2.files⟩, h.2⟩

theorem State.Holds.imp {J J' J'' : Sys → Prop} {K K' K'' : World → Prop} {s : State} (h : s.Holds J K) (h' : s.Holds J' K')
    (hopen : ∀ s, J s → J' s → J'' s) (hclosed : ∀ w, K w → K' w → K'' w) : s.Holds J'' K'' := by
  obtain ⟨db, w⟩ := s
  cases db with
  | none => exact hclosed w h h'
  | some db => exact hopen ⟨db, w⟩ h h'

theorem State.holds_calls {J : Sys → Prop} (henter : ∀ db w env, J ⟨db, w⟩ → J ⟨db, w.enter env⟩)
    (hcall : ∀ c : Call, Keeps J c.run) {s : State} (h : s.Holds J fun _ => True) (calls : List (Env × Call)) :
    (s.runs (calls.map fun c => (c.1, .call c.2))).Holds J fun _ => True := by
  induction calls generalizing s with
  | nil => exact h
  | cons c calls ih =>
    refine ih ?_
    obtain ⟨db, w⟩ := s
    cases db with
    | none => trivial
    | some db => exact State.holds_after (fun _ _ => trivial) (hcall c.2 _ (henter db w c.1 h))

/-- The database was opened on `closed`, and `st` was reached by calls since then. -/
structure State.InSession (len : CompressedLen) (closed : State) (env : Env) (o : Options) (st : State) : Prop where
  reachable : closed.Reachable len
  closed_db : closed.db = none
  runs : ∃ calls, closed.runs (oneSession env o calls) = st

theorem oneSession_append (env : Env) (o : Options) (calls more : List (Env × Call)) :
    oneSession env o (calls ++ more) = oneSession env o calls ++ more.map fun c => (c.1, .call c.2) := by
  simp [oneSession]

theorem State.inSession {st : State} (h : st.Reachable len) (hdb : st.db = some db) :
    ∃ (closed : State) (env : Env) (o : Options), closed.InSession len env o st := by
  obtain ⟨run, rfl⟩ := h
  induction run using List.reverseRecOn generalizing db with
  | nil => cases hdb
  | append_singleton run a ih =>
    obtain ⟨env, a⟩ := a
    let before := (State.init len).runs run
    have hbefore : before.Reachable len := ⟨run, rfl⟩
    have hlast : (State.init len).runs (run ++ [(env, a)]) = (before.exec env a).2 := runs_append _ run _
    rw [hlast] at hdb ⊢
    cases hopen : before.db with
    | none =>
      cases a with
      | openDb o => exact ⟨before, env, o, hbefore, hopen, [], rfl⟩
      | call c => simp [State.exec, hopen] at hdb
      | drop => simp [State.exec, hopen] at hdb
      | crash => simp [State.exec, hopen] at hdb
    | some db' =>
      obtain ⟨closed, env0, o, hclosed, hnone, calls, hruns⟩ := ih hopen
      cases a with
      | openDb o' =>
        have hsame : (before.exec env (.openDb o')).2 = before := by simp [State.exec, hopen]
        rw [hsame]
        exact ⟨closed, env0, o, hclosed, hnone, calls, hruns⟩
      | call c =>
        refine ⟨closed, env0, o, hclosed, hnone, calls ++ [(env, c)], ?_⟩
        rw [oneSession_append, runs_append, hruns]
        rfl
      | drop =>
        cases hrun : dropDb ⟨db', before.world.enter env⟩ with
        | ok u s => simp [State.exec, hopen, hrun] at hdb
        | error e s => simp [State.exec, hopen, hrun] at hdb
      | crash => simp [State.exec, hopen] at hdb

theorem State.InSession.fronted {closed st : State} (h : closed.InSession len env o st) (hdb : st.db = some db)
    (hopen : (closed.runs [(env, .openDb o)]).Holds (Sys.InOrder n) fun _ => True) : Sys.Fronted n ⟨db, st.world⟩ := by
  obtain ⟨calls, rfl⟩ := h.runs
  let opened := closed.runs [(env, .openDb o)]
  have hreach : opened.Reachable len := by
    obtain ⟨run, hrun⟩ := h.reachable
    exact ⟨run ++ [(env, .openDb o)], by rw [runs_append, hrun]⟩
  have hstart : opened.Holds (Sys.Fronted n) fun _ => True :=
    (State.dated hreach).imp hopen (fun _ hdated ho => ⟨hdated.1, fun _ => ho⟩) fun _ _ _ => trivial
  have hend := State.holds_calls (fun _ _ _ h => h.enter _) Call.run_fronted hstart calls
  have hrun : closed.runs (oneSession env o calls) = opened.runs (calls.map fun c => (c.1, .call c.2)) := rfl
  rw [hrun] at hdb ⊢
  unfold State.Holds at hend
  rwa [hdb] at hend

theorem Sys.Past.inOrder (h : s.Past) : s.InOrder s.world.writes :=
  List.pairwise_of_forall_mem_list fun _ _ _ hbs _ _ _ hb _ hn => (h.of_flushed hbs hb).trans hn

theorem State.InSession.inOrder {closed st : State} (h : closed.InSession len env o st) :
    (closed.runs [(env, .openDb o)]).Holds (Sys.InOrder closed.world.writes) fun _ => True := by
  obtain ⟨db, w⟩ := closed
  obtain rfl : db = none := h.closed_db
  have hdated : World.Dated (w.enter env) := by
    have hd := State.dated h.reachable
    exact ⟨hd.sane, hd.files, hd.logs⟩
  have hopen := (openDb_dated o hdated).and (openDb_spec o (w.enter env))
  show (State.exec ⟨none, w⟩ env (.openDb o)).2.Holds _ _
  cases hr : AiDb.openDb o (w.enter env) with
  | error e w' =>
    simp only [State.exec, hr]
    trivial
  | ok db w' =>
    obtain ⟨hd, hsame, -⟩ := hopen.ok hr
    have hwrites : w'.writes = w.writes := by
      obtain ⟨dir, logs, manifest, faults, arcs, -, -, rfl⟩ := hsame
      rfl
    simp only [State.exec, hr]
    show Sys.InOrder w.writes ⟨db, w'⟩
    rw [← hwrites]
    exact hd.1.2.inOrder

-- ---------------------------------------------------------------------------
-- Compactions of level 0
-- ---------------------------------------------------------------------------

/-- Of every key that the output of the task holds, it holds the version that was written
last among those of the inputs. -/
def Sys.KeepsNewest (s : Sys) (task : CompactionTask) : Prop :=
  ∀ es, s.jobEntries task = .ok es → ∀ key v, stored es key = some v →
    ∀ r ∈ task.inputs, ∀ e ∈ s.world.disk.entriesOf r, e.key = key → e.value.stamp ≤ v.stamp

/-- The version that the merge takes was written before `n`, or is the newest. -/
theorem Sys.InOrder.first_newest (h : s.InOrder n) (hasc : ∀ es ∈ s.tables.headD [], Ascending es)
    (hfirst : firstStored (s.tables.headD []) key = some v) (hn : n ≤ v.stamp) :
    ∀ es ∈ s.tables.headD [], ∀ e ∈ es, e.key = key → e.value.stamp ≤ v.stamp := by
  obtain ⟨newer, es, older, hsplit, hv, hnone⟩ := List.findSome?_eq_some_iff.mp hfirst
  intro es' hes' e he hkey
  have hstored : stored es' key = some e.value := by
    rw [← hkey]
    exact (hasc es' hes').stored_of_mem he
  have hlayered : Layered (Entry.NoOlder n) (newer ++ es :: older) := by
    rw [← hsplit]
    exact (layered_append.mp h).2.1
  rw [hsplit] at hes'
  rcases List.mem_append.mp hes' with hes' | hes'
  · rw [hnone es' hes'] at hstored
    cases hstored
  · rcases List.mem_cons.mp hes' with rfl | hes'
    · rw [hv] at hstored
      cases hstored
      exact le_refl _
    · have habove := (layered_cons.mp (layered_append.mp hlayered).2.1).1 es' hes'
      exact habove _ (mem_of_stored hv) e he hkey.symm hn

theorem level0_inputs (hpick : pickCompaction maxLevels levels = some (some task)) (hlevel : task.level = 0) :
    task.inputs = levels.headD [] := by
  rcases pickCompaction_cases hpick with ⟨l, ls, rfl, -, rfl⟩ | ⟨-, i, r, rest, hi, -, rfl⟩
  · rfl
  · exact absurd hlevel (Nat.ne_of_gt hi)

theorem Sys.Fronted.keepsNewest_iff (h : s.Fronted n) (hno : s.handOut.world.NoOverwrite)
    (hread : ∀ file off, s.world.unreadable file off = false)
    (hpick : pickCompaction s.db.options.maxLevels s.db.sstables = some (some task)) (hlevel : task.level = 0) :
    s.KeepsNewest task ↔ ∀ key v, firstStored (task.inputs.map s.world.disk.entriesOf) key = some v → v.bytes ≠ [] →
      v.stamp < n → ∀ r ∈ task.inputs, ∀ e ∈ s.world.disk.entriesOf r, e.key = key → e.value.stamp ≤ v.stamp := by
  obtain ⟨hunused, hno⟩ := s.noOverwrite_handOut.mp hno
  have hs := h.1.1.intact hno
  obtain ⟨es, hjob, hstored⟩ := hs.jobEntries_ok hread hunused (picked_mem hpick)
  have hkept : ∀ key v, stored es key = some v ↔
      firstStored (task.inputs.map s.world.disk.entriesOf) key = some v ∧ v.bytes ≠ [] := by
    intro key v
    rw [hstored, Compaction.kept, if_pos (pickCompaction_outputLevel hpick)]
    exact live_eq_some.trans and_comm
  have hhead : task.inputs.map s.world.disk.entriesOf = s.tables.headD [] := by
    rw [level0_inputs hpick hlevel, Sys.tables]
    cases s.db.sstables <;> rfl
  have hasc : ∀ es ∈ s.tables.headD [], Ascending es := by
    rw [← hhead]
    intro es hes
    obtain ⟨r, hr, rfl⟩ := List.mem_map.mp hes
    obtain ⟨f, hf⟩ := hs.serves r (picked_mem hpick r hr)
    rw [hf.entriesOf_eq]
    exact hf.wellFormed.ascending
  constructor
  · intro hkeeps key v hfirst hlive _
    exact hkeeps es hjob key v ((hkept key v).mpr ⟨hfirst, hlive⟩)
  · intro hcond es' hjob' key v hv r hr e he hkey
    rw [hjob] at hjob'
    cases hjob'
    obtain ⟨hfirst, hlive⟩ := (hkept key v).mp hv
    rcases Nat.lt_or_ge v.stamp n with hlt | hge
    · exact hcond key v hfirst hlive hlt r hr e he hkey
    · rw [hhead] at hfirst
      refine (h.2 hno).first_newest hasc hfirst hge _ ?_ e he hkey
      rw [← hhead]
      exact List.mem_map_of_mem hr

/-- In every state of every run, as long as no table file was written over and every block
can be read: if the tables that the last open found were in the order of their writes,
newest first, a compaction of level 0 keeps the newest version of every key it keeps.
It does so just if every key whose first table in level 0 has a live version from before
that open has no later one there. -/
theorem level0_keeps_newest_iff {st : State} (h : st.Reachable len) (hdb : st.db = some db) :
    (∃ (closed : State) (env : Env) (o : Options), closed.InSession len env o st) ∧
      ∀ (closed : State) (env : Env) (o : Options), closed.InSession len env o st →
        (Sys.handOut ⟨db, st.world⟩).world.NoOverwrite → ∀ (now : Env) (task : CompactionTask),
          (∀ file off, now.unreadable file off = false) →
          pickCompaction db.options.maxLevels db.sstables = some (some task) → task.level = 0 →
          ((closed.runs [(env, .openDb o)]).Holds (Sys.InOrder 0) (fun _ => True) →
              Sys.KeepsNewest ⟨db, st.world.enter now⟩ task) ∧
            (Sys.KeepsNewest ⟨db, st.world.enter now⟩ task ↔ ∀ key v,
              firstStored ((db.sstables.headD []).map st.world.disk.entriesOf) key = some v → v.bytes ≠ [] →
                v.stamp < closed.world.writes → ∀ r ∈ db.sstables.headD [], ∀ e ∈ st.world.disk.entriesOf r,
                  e.key = key → e.value.stamp ≤ v.stamp) := by
  refine ⟨State.inSession h hdb, fun closed env o hsession hno now task hread hpick hlevel => ?_⟩
  have hno : (Sys.handOut ⟨db, st.world.enter now⟩).world.NoOverwrite := hno
  rw [← level0_inputs hpick hlevel]
  constructor
  · intro hopen
    have hfront := (hsession.fronted hdb hopen).enter now
    exact (hfront.keepsNewest_iff hno hread hpick hlevel).mpr fun _ _ _ _ hlt => absurd hlt (Nat.not_lt_zero _)
  · exact ((hsession.fronted hdb hsession.inOrder).enter now).keepsNewest_iff hno hread hpick hlevel

def flushedTwice : List (Env × Call) :=
  [.put [97] [1], .flush, .put [97] [2], .flush, .put [98] [1], .flush, .put [98] [2], .flushTables].map (Env.calm, ·)

theorem level0_keeps_newest_flushedTwice : ∃ (st : State) (db : DB) (task : CompactionTask), st.Reachable .unused ∧ st.db = some db ∧
    pickCompaction db.options.maxLevels db.sstables = some (some task) ∧ task.level = 0 ∧ task.inputs.length = 4 ∧
    Sys.KeepsNewest ⟨db, st.world.enter .calm⟩ task := by
  obtain ⟨st, hst⟩ : ∃ st, st = (State.init .unused).runs (oneSession .calm .plain flushedTwice) := ⟨_, rfl⟩
  have hrun : st.db.bind (fun db => (pickCompaction db.options.maxLevels db.sstables).join.map fun task =>
      (task.level, task.inputs.length, (Sys.handOut ⟨db, st.world⟩).world.handed.all (!·.2))) = some (0, 4, true) := by
    rw [hst]
    decide +kernel
  obtain ⟨db, hdb, hrun⟩ := Option.bind_eq_some_iff.mp hrun
  obtain ⟨task, hpick, hrun⟩ := Option.map_eq_some_iff.mp hrun
  simp only [Prod.mk.injEq, List.all_eq_true, Bool.not_eq_true'] at hrun
  obtain ⟨hlevel, hinputs, hno⟩ := hrun
  have hpick := Option.join_eq_some_iff.mp hpick
  have hreach : st.Reachable .unused := ⟨_, hst.symm⟩
  have hsession : State.InSession .unused (State.init .unused) .calm .plain st := ⟨⟨[], rfl⟩, rfl, _, hst.symm⟩
  refine ⟨st, db, task, hreach, hdb, hpick, hlevel, hinputs, ?_⟩
  exact ((level0_keeps_newest_iff hreach hdb).2 _ _ _ hsession hno .calm task (fun _ _ => rfl) hpick hlevel).2.mpr
    fun _ _ _ _ hlt => absurd hlt (Nat.not_lt_zero _)

def State.keepsOlder (st : State) (key : Bytes) : Bool :=
  st.db.any fun db => (pickCompaction db.options.maxLevels db.sstables).join.any fun task =>
    task.level = 0 && match Sys.jobEntries ⟨db, st.world.enter .calm⟩ task with
      | .ok es => (stored es key).any fun v =>
          task.inputs.any fun r => (st.world.disk.entriesOf r).any fun e => e.key = key && v.stamp < e.value.stamp
      | .error _ => false

theorem State.keepsOlder_sound {st : State} (h : st.keepsOlder key = true) : ∃ db task, st.db = some db ∧
    pickCompaction db.options.maxLevels db.sstables = some (some task) ∧ task.level = 0 ∧
    ¬Sys.KeepsNewest ⟨db, st.world.enter .calm⟩ task := by
  obtain ⟨db, hdb, h⟩ := (Option.any_eq_true _ _).mp h
  obtain ⟨task, hpick, h⟩ := (Option.any_eq_true _ _).mp h
  rw [Bool.and_eq_true] at h
  obtain ⟨hlevel, h⟩ := h
  refine ⟨db, task, hdb, Option.join_eq_some_iff.mp hpick, of_decide_eq_true hlevel, fun hkeeps => ?_⟩
  cases hjob : Sys.jobEntries ⟨db, st.world.enter .calm⟩ task with
  | error e =>
    rw [hjob] at h
    cases h
  | ok es =>
    rw [hjob] at h
    obtain ⟨v, hv, h⟩ := (Option.any_eq_true _ _).mp h
    obtain ⟨r, hr, h⟩ := List.any_eq_true.mp h
    obtain ⟨e, he, h⟩ := List.any_eq_true.mp h
    rw [Bool.and_eq_true] at h
    exact Nat.not_lt.mpr (hkeeps es hjob key v hv r hr e he (of_decide_eq_true h.1)) (of_decide_eq_true h.2)

/-- The last two flushes leave two tables of one key in level 0, under numbers that the
next session does not reach. -/
def rewrittenAtEnd : List (Env × Call) :=
  (List.replicate 4 [(.calm, .put [98] [1]), (.calm, .flush)]).flatten ++
    [(.calm, .put [97] [1]), (.calm, .flush), (.calm, .put [97] [2]), (.calm, .flush)]

theorem not_level0_keeps_newest : ∃ (st : State) (db : DB) (task : CompactionTask), st.Reachable .unused ∧ st.db = some db ∧
    pickCompaction db.options.maxLevels db.sstables = some (some task) ∧ task.level = 0 ∧
    ¬Sys.KeepsNewest ⟨db, st.world.enter .calm⟩ task := by
  obtain ⟨st, hst⟩ : ∃ st, st = (State.init .unused).runs (oneSession .calm .plain rewrittenAtEnd ++ (.calm, .drop) ::
      oneSession .calm .plain [(.calm, .put [98] [2]), (.calm, .flushTables)]) := ⟨_, rfl⟩
  have hrun : st.keepsOlder [97] = true := by
    rw [hst]
    decide +kernel
  obtain ⟨db, task, hdb, hpick, hlevel, hnot⟩ := State.keepsOlder_sound hrun
  exact ⟨st, db, task, ⟨_, hst.symm⟩, hdb, hpick, hlevel, hnot⟩

end AiDb
