import AiDb.Layers
import AiDb.Reached

/-!
# One session

A session on an empty directory: one open, then calls, each with whatever the
operating system does during it. File numbers only go up, so no table is written
over and every reader serves its table to the end.
-/

namespace AiDb

open Library Compaction

variable {s s' : Sys} {db : DB} {w : World}

structure Sys.Alone (s : Sys) : Prop where
  reached : s.Reached
  numbered : s.Numbered

namespace Sys.Alone

theorem intact (h : s.Alone) : s.Intact := h.reached.intact h.numbered.unused

theorem unused (h : s.Alone) : s.db.nextFileNumber ∉ s.world.disk.ssts := h.numbered.next_unused

theorem next_ne_zero (h : s.Alone) : s.db.nextFileNumber ≠ 0 := by have := h.numbered.two_le; omega

theorem enter (h : Sys.Alone ⟨db, w⟩) (env : Env) : Sys.Alone ⟨db, w.enter env⟩ :=
  ⟨h.reached.enter env, h.numbered.two_le, h.numbered.below, h.numbered.unused⟩

theorem kept (h : s.Alone) (hk : s.TablesKept s') (hb : s'.Bounded) : s'.Alone :=
  ⟨h.reached.tablesKept hk hb, h.numbered.kept hk⟩

theorem logs (h : s.Alone) (hl : s.Logs s') : s'.Alone := ⟨h.reached.logs hl, h.numbered.kept hl.tablesKept⟩

theorem popped (h : s.Alone) (himm : s.db.immutableMemtables = m :: rest) : (s.popped rest).Alone :=
  ⟨h.reached.popped himm, h.numbered.kept (s.tablesKept_popped rest)⟩

theorem frozen (h : s.Alone) : s.frozen.Alone := ⟨h.reached.frozen, h.numbered.kept s.tablesKept_frozen⟩

theorem bump (h : s.Alone) (n : Nat) : (s.bump n).Alone := h.kept (s.tablesKept_bump n) (h.reached.bounded.bump n)

theorem insert (h : s.Alone) (ops : List WriteOp) : (s.insert ops).Alone :=
  h.kept (s.tablesKept_insert ops) (h.reached.bounded.insert ops)

theorem freeze (h : s.Alone) : s.freeze.Alone := h.kept s.tablesKept_freeze h.reached.bounded.freeze

end Sys.Alone

theorem flushMemtableToSstable_alone (h : s.Alone) (himm : s.db.immutableMemtables = m :: rest) :
    Triple (flushMemtableToSstable m) (s.popped rest)
      (fun _ s' => s'.Alone ∧ (s.popped rest).MemtablesKept s' ∧
        s'.tables = if m.table = [] then s.tables else s.tables.modify 0 (m.table :: ·))
      (fun _ s' => s'.Alone ∧ (s.popped rest).MemtablesKept s' ∧ s'.tables = s.tables) := by
  have hp := h.popped himm
  have htables : (s.popped rest).tables = s.tables := (s.tablesKept_popped rest).tables_eq
  have hreached := reached_rule.round s m rest h.reached himm
  have hnumbered := flushMemtableToSstable_numbered m _ hp.numbered
  refine Triple.intro (fun n s' hr => ?_) (fun e s' hr => ?_)
  · obtain ⟨-, ht, hkept⟩ := flushMemtableToSstable_intact m hp.intact hp.unused hr
    exact ⟨⟨hreached.ok hr, hnumbered.ok hr⟩, hkept, by rw [ht, htables]⟩
  · obtain ⟨-, ht, hkept, -⟩ := flushMemtableToSstable_intact_error m hp.intact hp.unused hr
    exact ⟨⟨hreached.error hr, hnumbered.error hr⟩, hkept, ht.trans htables⟩

theorem compact_alone (h : s.Alone) (hpick : pickCompaction s.db.options.maxLevels s.db.sstables = some (some task)) :
    Triple (compact task) s
      (fun _ s' => s'.Alone ∧ s.MemtablesKept s' ∧ (s'.tables = s.tables ∨ ∃ es, s.jobEntries task = .ok es ∧
        Compacts (task.inputs.map s.world.disk.entriesOf) es task.level s.tables s'.tables))
      (fun _ s' => s'.Alone ∧ s.MemtablesKept s' ∧ (s'.tables = s.tables ∨ ∃ es, s.jobEntries task = .ok es ∧
        Compacts (task.inputs.map s.world.disk.entriesOf) es task.level s.tables s'.tables)) := by
  have hreached := reached_rule.compact s task h.reached hpick
  have hnumbered := compact_numbered task s h.numbered
  have hrun := compact_intact h.intact h.next_ne_zero h.unused hpick
  refine Triple.intro (fun u s' hr => ?_) (fun e s' hr => ?_)
  · obtain ⟨-, hkept, -, es, hjob, ht⟩ := hrun.ok hr
    refine ⟨⟨hreached.ok hr, hnumbered.ok hr⟩, hkept, ?_⟩
    split_ifs at ht
    · exact .inl ht
    · exact .inr ⟨es, hjob, ht⟩
  · obtain ⟨-, hkept, -, ht⟩ := hrun.error hr
    refine ⟨⟨hreached.error hr, hnumbered.error hr⟩, hkept, ?_⟩
    rcases ht with ht | ⟨es, hjob, -, ht⟩
    · exact .inl ht
    · exact .inr ⟨es, hjob, ht⟩

-- ---------------------------------------------------------------------------
-- The run of a session
-- ---------------------------------------------------------------------------

def oneSession (env : Env) (o : Options) (calls : List (Env × Call)) : List (Env × Action) :=
  (env, .openDb o) :: calls.map fun c => (c.1, .call c.2)

structure Sys.Blank (s : Sys) (o : Options) : Prop where
  memtables : s.db.memtables = [MemTable.new 1]
  tables : s.db.sstables = [] :: List.replicate (o.maxLevels - 1) []
  options : s.db.options = o
  writes : s.world.writes = 0

theorem openDb_alone (len : CompressedLen) (env : Env) (o : Options) :
    Triple (openDb o) ((World.empty len).enter env) (fun db w => Sys.Alone ⟨db, w⟩ ∧ Sys.Blank ⟨db, w⟩ o)
      (fun _ _ => True) := by
  refine (openDb_spec o _).mono ?_ fun _ _ _ => trivial
  rintro db w' ⟨hsame, recovered, tables, vs, lo, hi, rfl, hrec, hloads, -, hhi, -⟩
  have hnil : ((World.empty len).enter env).disk.replayedLog = ⟨[], []⟩ := rfl
  rw [hnil, Wal.recoverAll_nil] at hrec
  cases hrec
  obtain rfl : tables = [] := by
    cases tables with
    | nil => rfl
    | cons r rs =>
      obtain ⟨n, hn, -⟩ := hloads.mem List.mem_cons_self
      simp [sortedSsts, World.enter, World.empty] at hn
  have hsane : ((World.empty len).enter env).disk.Sane := @Disk.sane_empty len
  refine ⟨⟨openedDb_reached hsane hsame hloads hhi, le_refl 2, ?_, ?_⟩, rfl, rfl, rfl, ?_⟩
  all_goals obtain ⟨dir, logs, manifest, faults, arcs, -, -, rfl⟩ := hsame
  · exact fun n hn => absurd hn (AList.notMem_empty n)
  · simp [World.enter, World.empty]
  · rfl

def State.FirstOpen (len : CompressedLen) (s : State) (_ : Env) (a : Action) : Prop :=
  ∀ o, a = .openDb o → s.world = World.empty len

theorem State.along_oneSession {P : State → Env → Action → Prop}
    (h : (State.init len).Along P (oneSession env o calls)) :
    (State.init len).Along (fun s env a => s.FirstOpen len env a ∧ P s env a) (oneSession env o calls) := by
  have hcalls : ∀ (s : State) (calls : List (Env × Call)), s.Along P (calls.map fun c => (c.1, .call c.2)) →
      s.Along (fun s env a => s.FirstOpen len env a ∧ P s env a) (calls.map fun c => (c.1, .call c.2)) := by
    intro s calls h
    induction calls generalizing s with
    | nil => trivial
    | cons c calls ih => exact ⟨⟨by simp [State.FirstOpen], h.1⟩, ih _ h.2⟩
  exact ⟨⟨fun _ _ => rfl, h.1⟩, hcalls _ calls h.2⟩

/-- What the first open gives and every call keeps, as long as it meets `P`, holds as
long as the session lasts. -/
theorem oneSession_rule {J : Sys → Prop} {P : State → Env → Action → Prop}
    (hopen : ∀ env o, Triple (openDb o) ((World.empty len).enter env) (fun db w => J ⟨db, w⟩) (fun _ _ => True))
    (henter : ∀ db w env, J ⟨db, w⟩ → J ⟨db, w.enter env⟩)
    (hcall : ∀ db w env c, J ⟨db, w⟩ → P ⟨some db, w⟩ env (.call c) →
      Triple c.run ⟨db, w.enter env⟩ (fun _ => J) (fun _ => J))
    (halong : (State.init len).Along P (oneSession env o calls))
    (hdb : ((State.init len).runs (oneSession env o calls)).db = some db) :
    J ⟨db, ((State.init len).runs (oneSession env o calls)).world⟩ := by
  have hinv : Invariant J (fun _ => True) fun s env a => s.FirstOpen len env a ∧ P s env a :=
    { leave := fun _ => trivial
      enterOpen := henter _ _ _
      enterClosed := fun _ => trivial
      opened := by
        rintro w env o - ⟨hfirst, -⟩
        obtain rfl : w = World.empty len := hfirst o rfl
        exact hopen env o
      called := fun hJ hP => hcall _ _ _ _ hJ hP.2
      dropped := fun _ _ => Triple.intro (fun _ _ _ => trivial) (fun _ _ _ => trivial) }
  have hrun := hinv.runs (s := State.init len) trivial (State.along_oneSession halong)
  unfold State.Holds at hrun
  rwa [hdb] at hrun

end AiDb
