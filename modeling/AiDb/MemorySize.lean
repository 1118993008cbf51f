import AiDb.Batches
import AiDb.Reached

/-!
# The size of the active memtable

A memtable counts what is put into it. `put` and `write` freeze a memtable that has
become full; `delete` and the replay of the log in `open` put into it as well, and do not
look at its size.
-/

namespace AiDb

open Library Compaction

def entrySize (e : InternalKey × Value) : Nat := e.1.userKey.length + e.2.bytes.length + 16

def WriteOp.entrySize : WriteOp → Nat
  | .put key value => key.length + value.length + 16
  | .delete key => key.length + 16

def MemTable.Accounted (m : MemTable) : Prop := m.approximateSize = (m.iter.map AiDb.entrySize).sum

-- ---------------------------------------------------------------------------
-- Memtables
-- ---------------------------------------------------------------------------

namespace MemTable

theorem accounted_new (start : Nat) : (MemTable.new start).Accounted := rfl

theorem Bounded.fresh {m : MemTable} (h : m.Bounded bound) (key : Bytes) (t : ValueType) :
    ∀ e ∈ m.data.entries, e.1 ≠ ⟨key, ((bound + 1 : Nat) : Sequence), t⟩ := by
  intro e he heq
  have hle : ((bound + 1 : Nat) : Sequence) ≤ (bound : Nat) := by
    have hseq := h.sequence_le e he
    rwa [heq] at hseq
  exact absurd hle (not_le.mpr (by exact_mod_cast Nat.lt_succ_self bound))

theorem Accounted.insert {m m' : MemTable} {key : Bytes} {t : ValueType} {v : Value} (h : m.Accounted)
    (hb : m.Bounded bound) (hdata : m'.data = m.data.insert ⟨key, ((bound + 1 : Nat) : Sequence), t⟩ v)
    (hsize : m'.size = m.size + AiDb.entrySize (⟨key, ((bound + 1 : Nat) : Sequence), t⟩, v)) : m'.Accounted := by
  have hperm := (m.data.insert_perm (v := v) (hb.fresh key t)).map AiDb.entrySize
  unfold Accounted approximateSize iter at h ⊢
  rw [hsize, hdata, hperm.sum_eq, List.map_cons, List.sum_cons, h, Nat.add_comm]

end MemTable

theorem WriteOp.apply_size (op : WriteOp) (m : MemTable) (stamp sequence : Nat) :
    (op.apply m stamp sequence).size = m.size + op.entrySize := by
  cases op <;> rfl

theorem WriteOp.apply_accounted {m : MemTable} (op : WriteOp) (stamp : Nat) (h : m.Accounted) (hb : m.Bounded bound) :
    (op.apply m stamp (bound + 1)).Accounted := by
  cases op with
  | put key value => exact h.insert hb rfl rfl
  | delete key => exact h.insert hb rfl (by simp [WriteOp.apply, MemTable.delete, AiDb.entrySize])

theorem applyOps_size (m : MemTable) (stamp sequence : Nat) (ops : List WriteOp) :
    (applyOps m stamp sequence ops).size = m.size + (ops.map WriteOp.entrySize).sum := by
  induction ops generalizing m stamp sequence with
  | nil => rfl
  | cons op ops ih => rw [applyOps, ih, WriteOp.apply_size, List.map_cons, List.sum_cons, Nat.add_assoc]

theorem applyOps_accounted {m : MemTable} (stamp : Nat) (ops : List WriteOp) (h : m.Accounted) (hb : m.Bounded bound) :
    (applyOps m stamp (bound + 1) ops).Accounted := by
  induction ops generalizing m stamp bound with
  | nil => exact h
  | cons op ops ih => exact ih (stamp + 1) (op.apply_accounted stamp h hb) (op.apply_spec stamp hb).1

theorem replay_size {m : MemTable} {es : List Bytes} (h : m.Accounted) (hb : m.Bounded bound) (hlen : es.length ≤ stamps.length) :
    (replay m bound (es.zip stamps)).Accounted ∧
      (replay m bound (es.zip stamps)).size = m.size + ((es.filterMap parseEntry).map WriteOp.entrySize).sum := by
  induction es generalizing m bound stamps with
  | nil => exact ⟨h, rfl⟩
  | cons e es ih =>
    obtain ⟨stamp, stamps, rfl⟩ : ∃ stamp rest, stamps = stamp :: rest :=
      List.exists_cons_of_length_pos (by simp only [List.length_cons] at hlen; omega)
    have hrest : es.length ≤ stamps.length := by simpa using hlen
    rw [List.zip_cons_cons, replay]
    cases hp : parseEntry e with
    | none =>
      rw [List.filterMap_cons_none hp]
      exact ih h (hb.mono (Nat.le_succ bound)) hrest
    | some op =>
      rw [List.filterMap_cons_some hp, List.map_cons, List.sum_cons, ← Nat.add_assoc, ← op.apply_size m stamp (bound + 1)]
      exact ih (op.apply_accounted stamp h hb) (op.apply_spec stamp hb).1 hrest

-- ---------------------------------------------------------------------------
-- The handle
-- ---------------------------------------------------------------------------

structure Sys.HasRoom (s : Sys) : Prop where
  reached : s.Reached
  accounted : s.db.memtable.Accounted
  small : s.db.memtable.approximateSize < s.db.options.memtableSize

variable {s s' : Sys}

theorem Sys.HasRoom.kept (h : s.HasRoom) (hr : s'.Reached) (hm : s'.db.memtable = s.db.memtable)
    (ho : s'.db.options = s.db.options) : s'.HasRoom where
  reached := hr
  accounted := hm ▸ h.accounted
  small := by rw [hm, ho]; exact h.small

theorem Sys.HasRoom.logs (h : s.HasRoom) (hl : s.Logs s') : s'.HasRoom := by
  refine h.kept (h.reached.logs hl) ?_ hl.tablesKept.options
  obtain ⟨wal, n, logs, faults, -, rfl⟩ := hl
  rfl

theorem Sys.Reached.freeze (h : s.Reached) : s.freeze.Reached := h.tablesKept s.tablesKept_freeze h.bounded.freeze

theorem Sys.Reached.insert (h : s.Reached) (ops : List WriteOp) : (s.insert ops).Reached :=
  h.tablesKept (s.tablesKept_insert ops) (h.bounded.insert ops)

theorem Sys.HasRoom.of_freeze (h : s.Reached) (hsize : 0 < s.db.options.memtableSize) : s.freeze.HasRoom where
  reached := h.freeze
  accounted := MemTable.accounted_new _
  small := hsize

theorem Sys.HasRoom.frozen (h : s.HasRoom) : s.frozen.HasRoom := by
  unfold Sys.frozen
  split
  · exact h
  · exact .of_freeze h.reached (lt_of_le_of_lt (Nat.zero_le _) h.small)

theorem Sys.HasRoom.insert_accounted (h : s.HasRoom) (ops : List WriteOp) : (s.insert ops).db.memtable.Accounted :=
  applyOps_accounted _ ops h.accounted (h.reached.bounded _ List.mem_cons_self)

theorem Sys.HasRoom.insertFreeze (h : s.HasRoom) (ops : List WriteOp) : (s.insert ops).freezeIfFull.HasRoom := by
  unfold Sys.freezeIfFull
  split
  · exact .of_freeze (h.reached.insert ops) (lt_of_le_of_lt (Nat.zero_le _) h.small)
  · rename_i hfull
    exact ⟨h.reached.insert ops, h.insert_accounted ops, not_le.mp hfull⟩

theorem hasRoom_rule : CallRule Sys.HasRoom Sys.HasRoom where
  weaken _ := id
  logs _ _ h hl := h.logs hl
  round s m rest h himm := by
    have hpopped : (s.popped rest).HasRoom := h.kept (h.reached.popped himm) rfl rfl
    refine ((reached_rule.round s m rest h.reached himm).and (flushMemtableToSstable_step m (s.popped rest))).mono ?_ ?_
    · exact fun _ _ h' => hpopped.kept h'.1 h'.2.kept.memtable h'.2.kept.options
    · exact fun _ _ h' => hpopped.kept h'.1 h'.2.kept.memtable h'.2.kept.options
  compact s task h hpick := by
    have hne : s.db.nextFileNumber ≠ 0 := by have := h.reached.two_le; omega
    refine ((reached_rule.compact s task h.reached hpick).and (compact_step task s hne)).mono ?_ ?_
    · exact fun _ _ h' => h.kept h'.1 h'.2.kept.memtable h'.2.kept.options
    · exact fun _ _ h' => h.kept h'.1 h'.2.kept.memtable h'.2.kept.options

-- ---------------------------------------------------------------------------
-- Deletes and opens
-- ---------------------------------------------------------------------------

theorem delete_memtable {key : Bytes} (h : delete key s = .ok () s') :
    s'.db.memtable.approximateSize = s.db.memtable.approximateSize + (key.length + 16) ∧
      s'.db.options = s.db.options ∧ (s.HasRoom → s'.Reached ∧ s'.db.memtable.Accounted) := by
  have hlogs := (delete_spec key s).ok h
  have hmemtable : s'.db.memtable = (s.insert [.delete key]).db.memtable := by
    obtain ⟨wal, n, logs, faults, -, rfl⟩ := hlogs
    rfl
  refine ⟨?_, hlogs.tablesKept.options.trans rfl, fun hs => ⟨(hs.reached.insert _).logs hlogs, ?_⟩⟩
  · rw [hmemtable]
    exact (applyOps_size _ _ _ _).trans (by simp [WriteOp.entrySize, MemTable.approximateSize])
  · rw [hmemtable]
    exact hs.insert_accounted _

theorem openDb_memtable {w w' : World} {o : Options} {db : DB} (h : openDb o w = .ok db w') :
    db.memtable.approximateSize = (w.disk.loggedOps.map WriteOp.entrySize).sum ∧ db.memtable.Accounted ∧
      db.options = o := by
  obtain ⟨-, recovered, tables, vs, lo, hi, rfl, hrecovered, -⟩ := (openDb_spec o w).ok h
  have hops : w.disk.loggedOps = recovered.filterMap parseEntry := by
    rw [Disk.loggedOps, hrecovered]
  have hlen : recovered.length ≤ (w.disk.replayedLog.stamps ++ List.replicate recovered.length w.writes).length := by simp
  have hnew : (MemTable.new 1).Bounded 0 := MemTable.bounded_new
  obtain ⟨haccounted, hsize⟩ := replay_size (MemTable.accounted_new 1) hnew hlen
  refine ⟨?_, haccounted, rfl⟩
  rw [hops]
  exact hsize.trans (Nat.zero_add _)

-- ---------------------------------------------------------------------------
-- Runs
-- ---------------------------------------------------------------------------

def State.MemoryBounded (s : State) : Prop :=
  ∀ db, s.db = some db → db.memtable.approximateSize = (db.memtable.iter.map entrySize).sum ∧
    db.memtable.approximateSize < db.options.memtableSize

def Action.PutsIn : Action → Prop
  | .openDb _ => True
  | .call (.put ..) | .call (.delete _) | .call (.write _) => True
  | _ => False

/-- There is room for the tombstone of a delete that goes through, and for the log that
an open replays. -/
def State.RoomFor (s : State) (env : Env) : Action → Prop
  | .call (.delete key) => ∀ db, s.db = some db → (s.exec env (.call (.delete key))).1 = .ok () →
      db.memtable.approximateSize + (key.length + 16) < db.options.memtableSize
  | .openDb o => s.db = none → (s.exec env (.openDb o)).1 = .ok () →
      (s.world.disk.loggedOps.map WriteOp.entrySize).sum < o.memtableSize
  | _ => True

theorem Sys.HasRoom.enter {db : DB} {w : World} (h : Sys.HasRoom ⟨db, w⟩) (env : Env) : Sys.HasRoom ⟨db, w.enter env⟩ :=
  ⟨h.reached.enter env, h.accounted, h.small⟩

theorem hasRoom_called {db : DB} {w : World} {env : Env} {c : Call} (h : Sys.HasRoom ⟨db, w⟩)
    (hroom : State.RoomFor ⟨some db, w⟩ env (.call c)) :
    Triple c.run ⟨db, w.enter env⟩ (fun _ => Sys.HasRoom) (fun _ => Sys.HasRoom) := by
  have h := h.enter env
  have hfailed : ∀ n s', (Sys.bump ⟨db, w.enter env⟩ n).Logs s' → s'.HasRoom := fun n s' hl =>
    (h.kept (h.reached.tablesKept (Sys.tablesKept_bump _ n) (h.reached.bounded.bump n)) rfl rfl : Sys.HasRoom _).logs hl
  by_cases hc : c.IsWrite
  · cases c with
    | put key value =>
      exact (put_spec key value _).mono (fun _ _ hl => (h.insertFreeze _).logs hl) fun _ s' hl => hfailed 1 s' hl
    | delete key =>
      refine Triple.intro (fun _ s' hr => ?_) fun _ s' hr => hfailed 1 s' ((delete_spec key _).error hr)
      obtain ⟨hsize, hoptions, hkept⟩ := delete_memtable hr
      have hok : (State.exec ⟨some db, w⟩ env (.call (.delete key))).1 = .ok () := by
        have hrun : Call.run (.delete key) ⟨db, w.enter env⟩ = .ok () s' := hr
        simp only [State.exec, hrun, State.after]
      refine ⟨(hkept h).1, (hkept h).2, ?_⟩
      rw [hsize, hoptions]
      exact hroom db rfl hok
    | write batch =>
      by_cases hb : batch = []
      · subst hb
        exact Triple.pure h
      · exact (write_spec batch hb _).mono (fun _ _ hl => (h.insertFreeze _).logs hl) fun _ s' hl => hfailed _ s' hl
    | _ => exact hc.elim
  · exact hasRoom_rule.call hc h h.frozen

theorem hasRoom_invariant : Invariant Sys.HasRoom (·.disk.Sane) State.RoomFor where
  leave h := h.reached.sane
  enterOpen h := h.enter _
  enterClosed h := h
  opened := by
    intro w env o hsane hroom
    have hreached : Triple (AiDb.openDb o) (w.enter env) (fun db w' => Sys.Reached ⟨db, w'⟩) (fun _ w' => w'.disk.Sane) :=
      reached_invariant.opened hsane trivial
    refine Triple.intro (fun db w' hr => ?_) fun e w' hr => hreached.error hr
    obtain ⟨hsize, haccounted, hoptions⟩ := openDb_memtable hr
    have hok : (State.exec ⟨none, w⟩ env (.openDb o)).1 = .ok () := by simp only [State.exec, hr]
    refine ⟨hreached.ok hr, haccounted, ?_⟩
    rw [hsize, hoptions]
    exact hroom rfl hok
  called h hroom := hasRoom_called h hroom
  dropped h _ := (hasRoom_rule.dropDb (h.enter _).frozen).mono (fun _ _ h => h.reached.sane) fun _ _ h => h.reached.sane

theorem State.runs_append_singleton (s : State) (done : List (Env × Action)) (env : Env) (a : Action) :
    s.runs (done ++ [(env, a)]) = ((s.runs done).exec env a).2 := by
  induction done generalizing s with
  | nil => rfl
  | cons x done ih => exact ih _

theorem roomFor_of_memoryBounded {st : State} {env : Env} {a : Action}
    (h : a.PutsIn → (st.exec env a).1 = .ok () → (st.exec env a).2.MemoryBounded) : st.RoomFor env a := by
  cases a with
  | openDb o =>
    intro hnone hok
    obtain ⟨db, w⟩ := st
    obtain rfl : db = none := hnone
    have h := h trivial hok
    simp only [State.exec] at hok h
    cases hr : AiDb.openDb o (w.enter env) with
    | ok db w' =>
      rw [hr] at h
      obtain ⟨hsize, -, hoptions⟩ := openDb_memtable hr
      have hsmall := (h db rfl).2
      rwa [hsize, hoptions] at hsmall
    | error e w' =>
      rw [hr] at hok
      cases hok
  | call c =>
    cases c with
    | delete key =>
      intro db hdb hok
      obtain ⟨db', w⟩ := st
      obtain rfl : db' = some db := hdb
      have h := h trivial hok
      simp only [State.exec] at hok h
      cases hr : Call.run (.delete key) ⟨db, w.enter env⟩ with
      | ok u s' =>
        rw [hr] at h
        obtain ⟨hsize, hoptions, -⟩ := delete_memtable hr
        have hsmall := (h s'.db rfl).2
        rwa [hsize, hoptions] at hsmall
      | error e s' =>
        rw [hr] at hok
        cases e <;> cases hok
    | _ => trivial
  | _ => trivial

/-- Every action that puts into the memtable and returns leaves it below the limit
exactly when there is room for every delete and every open of the run. -/
theorem memory_bounded_iff (len : CompressedLen) (run : List (Env × Action)) :
    (∀ done env a, done ++ [(env, a)] <+: run → a.PutsIn → (((State.init len).runs done).exec env a).1 = .ok () →
        (((State.init len).runs done).exec env a).2.MemoryBounded) ↔
      (State.init len).Along State.RoomFor run := by
  constructor
  · intro h
    induction run using List.reverseRecOn with
    | nil => trivial
    | append_singleton run x ih =>
      obtain ⟨env, a⟩ := x
      have hrun := ih fun done env' a' hpre => h done env' a' (hpre.trans (List.prefix_append _ _))
      exact State.along_append hrun ⟨roomFor_of_memoryBounded (h run env a List.prefix_rfl), trivial⟩
  · intro halong done env a hpre _ _ db hdb
    have hinit : (State.init len).Holds Sys.HasRoom (·.disk.Sane) := Disk.sane_empty
    have hrun := hasRoom_invariant.runs hinit (State.along_isPrefix halong hpre)
    rw [State.runs_append_singleton] at hrun
    unfold State.Holds at hrun
    rw [hdb] at hrun
    exact ⟨hrun.accounted, hrun.small⟩

/-- A memtable of sixteen bytes, into which a tombstone of seventeen goes. -/
def afterOneOpen : State :=
  (State.init .unused).runs [(.calm, .openDb { Options.plain with memtableSize := 16 })]

theorem not_memory_bounded_delete : (afterOneOpen.exec .calm (.call (.delete [97]))).1 = .ok () ∧
    (afterOneOpen.exec .calm (.call (.delete [97]))).2.db.map
      (fun db => (db.memtable.approximateSize, db.options.memtableSize)) = some (17, 16) := by
  decide +kernel

end AiDb
