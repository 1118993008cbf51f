import AiDb.Writers

/-!
# The orders of concurrent writes

Concurrent writes have an order by sequence number, an order in the log, and an
order of their inserts. The live database goes by the numbers within a memtable and
by the age of the memtable across memtables; a database reopened from the log goes
by the log.
-/

namespace AiDb

open Library

variable {s : Shared} {threads : List Thread}

-- ---------------------------------------------------------------------------
-- Reopening from the log
-- ---------------------------------------------------------------------------

/-- The writer of the log is dropped, which writes out what it holds back, and the
directory is opened again. -/
def Shared.reopen (s : Shared) (o : Options) : Option Sys :=
  match flushBuf s.sys with
  | .ok () s1 =>
    match openDb o s1.world with
    | .ok db w => some ⟨db, w⟩
    | .error _ _ => none
  | .error _ _ => none

/-- There is one memtable and no table, and the log has what was logged. -/
structure Shared.LogOnly (s : Shared) : Prop extends s.MemtableOnly where
  useWal : s.sys.db.options.useWal = true
  latest : s.sys.db.wal.number = latestWal s.sys.world.disk
  exists_file : s.sys.db.wal.number ∈ s.sys.world.disk.logs
  bytes : s.sys.logFile.bytes ++ s.sys.db.wal.buffer = logEntries s.logged
  dir : s.sys.world.disk.dirExists = true
  ssts : s.sys.world.disk.ssts = ∅
  manifest : s.sys.world.disk.manifest = none ∨ s.sys.world.disk.manifest = some []

def Thread.IsWrite : Thread → Prop
  | .write _ _ => True
  | _ => False

theorem Thread.IsWrite.not_isFlush {t : Thread} (h : t.IsWrite) : ¬t.IsFlush := by
  cases t <;> simp_all [Thread.IsWrite, Thread.IsFlush]

theorem Shared.LogOnly.fresh (h : Shared.fresh len o = some s) (hwal : o.useWal = true) : s.LogOnly := by
  obtain ⟨hs, -, hl⟩ := Shared.fresh_eq h
  obtain ⟨hlogged, honly, -, -, vs, hdb⟩ := Sys.fresh_opened hs
  refine ⟨.fresh h, by rw [hdb]; exact hwal, hlogged.latest, hlogged.exists_file, ?_, honly.dir, honly.ssts,
    honly.manifest⟩
  · rw [hlogged.bytes, hlogged.buffer, hl]
    rfl

theorem Shared.LogOnly.step (h : s.LogOnly) (ht : t.IsWrite) (hm : s.Moves t s' t') : s'.LogOnly ∧ t'.IsWrite := by
  cases hm with
  | empty => exact ⟨h, trivial⟩
  | number =>
    exact ⟨⟨⟨h.immutables, h.sstables⟩, h.useWal, h.latest, h.exists_file, h.bytes, h.dir, h.ssts, h.manifest⟩, trivial⟩
  | @log ops stamp seq s1 hlogs happ =>
    obtain ⟨happ, -⟩ := happ h.useWal
    obtain ⟨wal, n, logs, faults, -, rfl⟩ := hlogs
    refine ⟨⟨⟨h.immutables, h.sstables⟩, h.useWal, ?_, ?_, ?_, h.dir, h.ssts, h.manifest⟩, trivial⟩
    · rw [happ.number, h.latest, latestWal_congr (happ.members h.exists_file)]
    · rw [happ.number]
      exact (happ.members h.exists_file _).mpr h.exists_file
    · rw [happ.bytes, h.bytes, ← logEntries_append]
  | insert =>
    exact ⟨⟨⟨h.immutables, h.sstables⟩, h.useWal, h.latest, h.exists_file, h.bytes, h.dir, h.ssts, h.manifest⟩, trivial⟩
  | inserted => exact ⟨h, trivial⟩
  | _ => exact ht.elim

theorem Shared.LogOnly.reopened (h : s.LogOnly) (hc : s.sys.world.faults = []) (ho : o.Opens) :
    ∃ s', s.reopen o = some s' ∧ ∀ key, s'.get key = .ok (lastValue key (replayedOps s.logged)) := by
  have hflush := flushBuf_appended (.refl s.sys)
  cases hr : flushBuf s.sys with
  | error e s1 => exact absurd hc (hflush.error hr).1
  | ok u s1 =>
    obtain ⟨happ, hbuf⟩ := hflush.ok hr
    have hlog : s1.world.disk.replayedLog.bytes = logEntries s.logged := by
      have hb := happ.bytes
      rw [hbuf, List.append_nil, List.append_nil, h.bytes] at hb
      rw [Disk.replayedLog, latestWal_congr (happ.members h.exists_file), ← h.latest, ← happ.number]
      exact hb
    have hcalm := happ.calm hc
    have honly : s1.world.disk.OnlyLog s.logged := by
      obtain ⟨wal, n, logs, faults, -, rfl⟩ := happ.logs
      exact ⟨h.dir, h.ssts, hlog, h.manifest⟩
    obtain ⟨db, w, hopen, -, -, -, vs, hdb⟩ := honly.opened ho hcalm
    refine ⟨⟨db, w⟩, ?_, fun key => ?_⟩
    · rw [Shared.reopen, hr]
      dsimp only
      rw [hopen]
    · rw [Sys.get, hdb]
      exact openedDb_get_replayed s.logged _ w key

theorem Shared.LogOnly.get_eq (h : s.LogOnly) (hnum : Numbering ⟨s, threads⟩) (hcov : Covered ⟨s, threads⟩)
    (hret : ∀ t ∈ threads, t.Returned) (key : Bytes) : s.sys.get key = .ok (lastValue key s.numbered) := by
  have hseq : s.sys.db.sequence = s.numbered.length := hnum.sequence
  rw [Sys.get, DB.get, h.toMemtableOnly.get_eq, hseq]
  have hof := hnum.memtables _ List.mem_cons_self
  rw [hof.get_eq fun i op _ hop _ => ?_, List.take_length]
  rcases hcov i op hop with ⟨m, hm, he⟩ | ⟨t, ht, howes⟩
  · rw [h.immutables, List.mem_singleton] at hm
    exact hm ▸ he
  · exact absurd howes (hret t ht).not_owes

/-- Writers that have all returned: reopening shows what the live database shows if
and only if, for each key, the operation that is last in the log leaves the value
that the operation with the highest number leaves. -/
theorem reopen_eq_live_iff (len : CompressedLen) (o o' : Options) (calls : List (List WriteOp)) (schedule : List Nat)
    (c : Config Shared Thread) (hwal : o.useWal = true) (ho : o'.Opens)
    (hrun : runThreads len o (calls.map (Thread.write · .start)) schedule = some c)
    (hret : ∀ t ∈ c.threads, t.Returned) :
    ∃ s', c.shared.reopen o' = some s' ∧ ((∀ key, s'.get key = c.shared.sys.get key) ↔
      ∀ key, lastValue key (replayedOps c.shared.logged) = lastValue key c.shared.numbered) := by
  have hinv : Numbering c ∧ Covered c ∧ c.shared.LogOnly ∧ ∀ t ∈ c.threads, t.IsWrite := by
    refine runThreads_invariant (I := fun c => Covered c ∧ c.shared.LogOnly ∧ ∀ t ∈ c.threads, t.IsWrite)
      (fun s hs => ⟨.fresh hs, .fresh hs hwal, ?_⟩) ?_ ?_ alongThreads_true hrun
    · simp [Thread.IsWrite]
    · rintro s threads i t s' t' ⟨hcov, hlog, hwrite⟩ hnum ht - hmoves
      have hw := hwrite t (List.mem_of_getElem? ht)
      have hstep := hlog.step hw hmoves
      exact ⟨hcov.step hnum ht hw.not_isFlush hmoves, hstep.1, Config.forall_set hwrite hstep.2⟩
    · simp [Thread.Starting]
  obtain ⟨hnum, hcov, hlog, -⟩ := hinv
  obtain ⟨s', hreopen, hget⟩ := hlog.reopened hnum.calm ho
  refine ⟨s', hreopen, forall_congr' fun key => ?_⟩
  rw [hget key, hlog.get_eq hnum hcov hret key, Except.ok.injEq]

def twoWriters (schedule : List Nat) : Option (Config Shared Thread) :=
  runThreads .unused .plain ([[.put [97] [1]], [.put [97] [2]]].map (Thread.write · .start)) schedule

/-- The first put takes its number, goes to the log and into the memtable before the
second does. -/
theorem reopen_eq_live_in_turn : ∃ c s', twoWriters [0, 1, 0, 1, 0, 1, 0, 1] = some c ∧
    (∀ t ∈ c.threads, t.Returned) ∧ c.shared.reopen .plain = some s' ∧ ∀ key, s'.get key = c.shared.sys.get key := by
  have hcheck : (twoWriters [0, 1, 0, 1, 0, 1, 0, 1]).map (fun c => (c.threads.all Thread.isReturned,
      replayedOps c.shared.logged, c.shared.numbered)) =
      some (true, [.put [97] [1], .put [97] [2]], [.put [97] [1], .put [97] [2]]) := by decide +kernel
  obtain ⟨c, hc, heq⟩ := Option.map_eq_some_iff.mp hcheck
  obtain ⟨hret, hl, hn⟩ := by simpa only [Prod.mk.injEq] using heq
  have hret : ∀ t ∈ c.threads, t.Returned := fun t ht => Thread.returned_of_isReturned (List.all_eq_true.mp hret t ht)
  obtain ⟨s', hs', hiff⟩ := reopen_eq_live_iff .unused .plain .plain _ _ c rfl ⟨rfl, rfl⟩ hc hret
  exact ⟨c, s', hc, hret, hs', hiff.mpr fun key => by rw [hl, hn]⟩

/-- The second put overtakes the first on the way to the log. -/
theorem reopen_ne_live_overtaken : ∃ c s', twoWriters [0, 1, 1, 0, 0, 1, 0, 1] = some c ∧
    (∀ t ∈ c.threads, t.Returned) ∧ c.shared.reopen .plain = some s' ∧
    s'.get [97] = .ok (some [1]) ∧ c.shared.sys.get [97] = .ok (some [2]) := by
  have hret : (twoWriters [0, 1, 1, 0, 0, 1, 0, 1]).map (·.threads.all Thread.isReturned) = some true := by decide +kernel
  have hget : (twoWriters [0, 1, 1, 0, 0, 1, 0, 1]).bind (fun c => (c.shared.reopen .plain).map fun s' =>
      [s'.get [97], c.shared.sys.get [97]]) = some [.ok (some [1]), .ok (some [2])] := by decide +kernel
  obtain ⟨c, hc, hret⟩ := Option.map_eq_some_iff.mp hret
  rw [hc] at hget
  obtain ⟨s', hs', hget⟩ := Option.map_eq_some_iff.mp hget
  simp only [List.cons.injEq, and_true] at hget
  exact ⟨c, s', hc, fun t ht => Thread.returned_of_isReturned (List.all_eq_true.mp hret t ht), hs', hget.1, hget.2⟩

-- ---------------------------------------------------------------------------
-- Freezing
-- ---------------------------------------------------------------------------

def WriteOp.IsPut : WriteOp → Prop
  | .put .. => True
  | .delete _ => False

def Thread.IsPutOrFreeze : Thread → Prop
  | .write ops _ => ∀ op ∈ ops, op.IsPut
  | .freeze _ => True
  | _ => False

def putsAndFreezes (puts : List (Bytes × Bytes)) (freezes : Nat) : List Thread :=
  puts.map (fun p => .write [.put p.1 p.2] .start) ++ List.replicate freezes (.freeze false)

theorem putsAndFreezes_kinds (h : t ∈ putsAndFreezes puts freezes) : t.Starting ∧ t.IsPutOrFreeze := by
  rcases List.mem_append.mp h with h | h
  · obtain ⟨p, -, rfl⟩ := List.mem_map.mp h
    exact ⟨rfl, by simp [Thread.IsPutOrFreeze, WriteOp.IsPut]⟩
  · obtain ⟨-, rfl⟩ := List.mem_replicate.mp h
    exact ⟨rfl, trivial⟩

/-- What is inserted is not overtaken: no frozen memtable holds a version of the key
with a higher number. -/
def NotOvertaken (s : Shared) (_ : List Thread) : Thread → Prop
  | .write _ (.inserting _ seq (op :: _)) =>
    ∀ m ∈ s.sys.db.immutableMemtables, ∀ e ∈ m.iter, e.1.userKey = op.key → e.1.sequence ≤ ((seq : ℕ) : Sequence)
  | _ => True

instance (s : Shared) (threads : List Thread) (t : Thread) : Decidable (NotOvertaken s threads t) := by
  unfold NotOvertaken
  split <;> infer_instance

/-- Along the memtables, from the newest on, the versions of a key get no newer. -/
def Layered (ms : List MemTable) : Prop :=
  ms.Pairwise fun newer older => ∀ e ∈ newer.iter, ∀ e' ∈ older.iter, e'.1.userKey = e.1.userKey →
    e'.1.sequence ≤ e.1.sequence

theorem Layered.get_eq {ms : List MemTable} {ops : List WriteOp} (h : Layered ms) (hof : ∀ m ∈ ms, m.Of ops)
    (hputs : ∀ op ∈ ops, op.IsPut) (hop : ops[i]? = some op)
    (hlast : ∀ (j : Nat) op', i < j → ops[j]? = some op' → op'.key ≠ op.key) (hin : ∃ m ∈ ms, op.entry i ∈ m.iter) :
    (ms.findSome? (·.get op.key ops.length)).map Value.bytes = op.value := by
  induction ms with
  | nil =>
    obtain ⟨m, hm, -⟩ := hin
    cases hm
  | cons m ms ih =>
    obtain ⟨hfirst, hrest⟩ := List.pairwise_cons.mp h
    have hm := hof m List.mem_cons_self
    cases hnew : m.newest op.key ops.length with
    | none =>
      -- nothing here, so the version is further on
      rw [List.findSome?_cons, MemTable.get_of_none hnew]
      refine ih hrest (fun x hx => hof x (List.mem_cons_of_mem _ hx)) ?_
      obtain ⟨x, hx, he⟩ := hin
      rcases List.mem_cons.mp hx with rfl | hx
      · refine absurd ?_ (MemTable.newest_eq_none.mp hnew _ he rfl)
        show ((i + 1 : ℕ) : Sequence) ≤ (ops.length : ℕ)
        exact_mod_cast (List.getElem?_eq_some_iff.mp hop).1
      · exact ⟨x, hx, he⟩
    | some e =>
      obtain ⟨he, ⟨hkey, -⟩, -⟩ := MemTable.newest_eq_some.mp hnew
      -- a version that is here is not older than one further on
      have hmem : op.entry i ∈ m.iter := by
        obtain ⟨x, hx, hxe⟩ := hin
        rcases List.mem_cons.mp hx with rfl | hx
        · exact hxe
        · obtain ⟨j, op', hop', rfl⟩ := hm e he
          have hle : ((i + 1 : ℕ) : Sequence) ≤ ((j + 1 : ℕ) : Sequence) := hfirst x hx _ he _ hxe hkey.symm
          have hij : i ≤ j := Nat.le_of_succ_le_succ (by exact_mod_cast hle)
          rcases Nat.eq_or_lt_of_le hij with rfl | hlt
          · rw [hop] at hop'
            cases hop'
            exact he
          · exact absurd hkey (hlast j op' hlt hop')
      have hnewest := hm.newest_eq hop hmem (List.getElem?_eq_some_iff.mp hop).1 fun j op' hij _ hop' _ => hlast j op' hij hop'
      have hget := MemTable.get_of_newest hnewest
      cases op with
      | delete k => exact (hputs _ (List.mem_of_getElem? hop)).elim
      | put k v =>
        obtain ⟨x, hx, hbytes⟩ := Option.map_eq_some_iff.mp hget
        rw [List.findSome?_cons, hx]
        exact congrArg some hbytes

structure Layering (c : Config Shared Thread) : Prop where
  layered : Layered c.shared.sys.db.memtables
  sstables : scanOrder c.shared.sys.db.sstables = []
  puts : ∀ op ∈ c.shared.numbered, op.IsPut
  threads : ∀ t ∈ c.threads, t.IsPutOrFreeze

theorem Layering.kept {s' : Shared} (h : Layering ⟨s, threads⟩) (hn : s'.numbered = s.numbered)
    (hm : s'.sys.db.memtables = s.sys.db.memtables) (ht : s'.sys.db.sstables = s.sys.db.sstables)
    (hkind : t'.IsPutOrFreeze) : Layering ⟨s', threads.set i t'⟩ where
  layered := by rw [hm]; exact h.layered
  sstables := by rw [ht]; exact h.sstables
  puts := by rw [hn]; exact h.puts
  threads := Config.forall_set h.threads hkind

theorem Layering.step (h : Layering ⟨s, threads⟩) (hnum : Numbering ⟨s, threads⟩) (ht : threads[i]? = some t)
    (hP : NotOvertaken s threads t) (hm : s.Moves t s' t') : Layering ⟨s', threads.set i t'⟩ := by
  have hkind := h.threads t (List.mem_of_getElem? ht)
  have hplaced := hnum.placed t (List.mem_of_getElem? ht)
  have hmems : Layered (s.sys.db.memtable :: s.sys.db.immutableMemtables.reverse) := h.layered
  cases hm with
  | empty => exact h.kept rfl rfl rfl hkind
  | number =>
    refine ⟨h.layered, h.sstables, fun op hop => ?_, Config.forall_set h.threads hkind⟩
    rcases List.mem_append.mp hop with hop | hop
    · exact h.puts op hop
    · exact hkind op hop
  | log hlogs happ =>
    have hk := hlogs.writesKept
    refine h.kept rfl ?_ hlogs.tablesKept.sstables hkind
    rw [DB.memtables, hk.memtable, hk.immutableMemtables]
    rfl
  | @insert ops stamp seq op rest =>
    obtain ⟨rfl, hpre⟩ := hplaced
    obtain ⟨hfirst, hrest⟩ := List.pairwise_cons.mp hmems
    refine ⟨List.pairwise_cons.mpr ⟨fun m hm e he e' he' hkey => ?_, hrest⟩, h.sstables, h.puts,
      Config.forall_set h.threads hkind⟩
    rcases ((hnum.memtables _ List.mem_cons_self).mem_apply (getElem?_of_prefix_drop hpre)).mp he with rfl | he
    · exact hP m (List.mem_reverse.mp hm) e' he' hkey
    · exact hfirst m hm e he e' he' hkey
  | inserted => exact h.kept rfl rfl rfl hkind
  | freeze =>
    refine ⟨?_, h.sstables, h.puts, Config.forall_set h.threads hkind⟩
    show Layered (MemTable.new _ :: (s.sys.db.immutableMemtables ++ [s.sys.db.memtable]).reverse)
    rw [List.reverse_append, List.reverse_singleton, List.singleton_append]
    exact List.pairwise_cons.mpr ⟨fun _ _ _ he => (nomatch he), hmems⟩
  | _ => exact hkind.elim

/-- Puts and freezes: as long as no put is overtaken, once all puts have returned
each key has the value of its put with the highest sequence number. -/
theorem get_highest_of_notOvertaken (len : CompressedLen) (o : Options) (puts : List (Bytes × Bytes)) (freezes : Nat)
    (schedule : List Nat) (c : Config Shared Thread)
    (hrun : runThreads len o (putsAndFreezes puts freezes) schedule = some c)
    (halong : AlongThreads NotOvertaken len o (putsAndFreezes puts freezes) schedule)
    (hret : ∀ t ∈ c.threads, t.Returned) (key : Bytes) :
    c.shared.sys.get key = .ok (lastValue key c.shared.numbered) := by
  obtain ⟨hnum, hcov, hlay⟩ : Numbering c ∧ Covered c ∧ Layering c := by
    refine runThreads_invariant (I := fun c => Covered c ∧ Layering c) (fun s hs => ⟨.fresh hs, ?_⟩) ?_
      (fun t ht => (putsAndFreezes_kinds ht).1) halong hrun
    · obtain ⟨hfresh, hn, -⟩ := Shared.fresh_eq hs
      obtain ⟨-, -, -, -, vs, hdb⟩ := Sys.fresh_opened hfresh
      refine ⟨?_, ?_, by simp [hn], fun t ht => (putsAndFreezes_kinds ht).2⟩
      · rw [hdb]
        exact List.pairwise_singleton _ _
      · rw [hdb]
        simp [scanOrder, openedDb]
    · rintro s threads i t s' t' ⟨hcov, hlay⟩ hnum ht hP hmoves
      have hkind := hlay.threads t (List.mem_of_getElem? ht)
      refine ⟨hcov.step hnum ht ?_ hmoves, hlay.step hnum ht hP hmoves⟩
      cases t <;> simp_all [Thread.IsPutOrFreeze, Thread.IsFlush]
  have hof : ∀ m ∈ c.shared.sys.db.memtables, m.Of c.shared.numbered := fun m hm =>
    hnum.memtables m (by simpa [DB.memtables] using hm)
  have hget : (c.shared.sys.db.memtables.findSome? (·.get key c.shared.sys.db.sequence)).map Value.bytes =
      lastValue key c.shared.numbered := by
    rw [hnum.sequence]
    cases hlast : lastOp key c.shared.numbered with
    | none =>
      have hnone : ∀ m ∈ c.shared.sys.db.memtables, m.get key c.shared.numbered.length = none := by
        intro m hm
        refine MemTable.get_of_none (MemTable.newest_eq_none.mpr fun e he hkey => ?_)
        obtain ⟨i, op, hop, rfl⟩ := hof m hm e he
        exact absurd hkey (lastOp_eq_none.mp hlast op (List.mem_of_getElem? hop))
      rw [List.findSome?_eq_none_iff.mpr hnone, lastValue, hlast]
      rfl
    | some op =>
      obtain ⟨rfl, i, hop, hafter⟩ := lastOp_eq_some hlast
      rw [hlay.layered.get_eq hof hlay.puts hop hafter, lastValue, hlast]
      · rfl
      · rcases hcov i op hop with ⟨m, hm, he⟩ | ⟨t, ht, howes⟩
        · exact ⟨m, by simpa [DB.memtables] using hm, he⟩
        · exact absurd howes (hret t ht).not_owes
  rw [Sys.get, DB.get, DB.getAtSequence, ← hget]
  cases hfind : c.shared.sys.db.memtables.findSome? (·.get key c.shared.sys.db.sequence) with
  | some v =>
    rw [DB.memtables] at hfind
    rw [hfind]
    rfl
  | none =>
    have hflat : c.shared.sys.db.sstables.flatMap List.reverse = [] := hlay.sstables
    rw [DB.memtables] at hfind
    rw [hfind, hflat]
    rfl

def twoPutsAndFreeze (schedule : List Nat) : Option (Config Shared Thread) :=
  runThreads .unused .plain (putsAndFreezes [([97], [1]), ([97], [2])] 1) schedule

theorem get_highest_frozen_between : ∃ c, twoPutsAndFreeze [0, 1, 0, 0, 0, 2, 1, 1, 1] = some c ∧
    AlongThreads NotOvertaken .unused .plain (putsAndFreezes [([97], [1]), ([97], [2])] 1) [0, 1, 0, 0, 0, 2, 1, 1, 1] ∧
    (∀ t ∈ c.threads, t.Returned) ∧ c.shared.sys.get [97] = .ok (some [2]) := by
  have hcheck : (twoPutsAndFreeze [0, 1, 0, 0, 0, 2, 1, 1, 1]).map (fun c => (c.threads.all Thread.isReturned,
      lastValue [97] c.shared.numbered)) = some (true, some [2]) := by decide +kernel
  have halong : AlongThreads NotOvertaken .unused .plain (putsAndFreezes [([97], [1]), ([97], [2])] 1)
      [0, 1, 0, 0, 0, 2, 1, 1, 1] := alongThreads_of_check (by decide +kernel)
  obtain ⟨c, hc, heq⟩ := Option.map_eq_some_iff.mp hcheck
  obtain ⟨hret, hn⟩ := by simpa only [Prod.mk.injEq] using heq
  have hret : ∀ t ∈ c.threads, t.Returned := fun t ht => Thread.returned_of_isReturned (List.all_eq_true.mp hret t ht)
  have hget := get_highest_of_notOvertaken .unused .plain _ _ _ c hc halong hret [97]
  exact ⟨c, hc, halong, hret, by rw [hget, hn]⟩

/-- The second put is inserted and frozen while the first is still on its way. -/
theorem get_not_highest_overtaken : ∃ c, twoPutsAndFreeze [0, 1, 1, 1, 2, 0, 0, 0, 1] = some c ∧
    (∀ t ∈ c.threads, t.Returned) ∧ lastValue [97] c.shared.numbered = some [2] ∧
    c.shared.sys.get [97] = .ok (some [1]) := by
  have hcheck : (twoPutsAndFreeze [0, 1, 1, 1, 2, 0, 0, 0, 1]).map (fun c => (c.threads.all Thread.isReturned,
      lastValue [97] c.shared.numbered)) = some (true, some [2]) := by decide +kernel
  have hget : (twoPutsAndFreeze [0, 1, 1, 1, 2, 0, 0, 0, 1]).map (·.shared.sys.get [97]) = some (.ok (some [1])) := by
    decide +kernel
  obtain ⟨c, hc, heq⟩ := Option.map_eq_some_iff.mp hcheck
  obtain ⟨hret, hn⟩ := by simpa only [Prod.mk.injEq] using heq
  rw [hc] at hget
  exact ⟨c, hc, fun t ht => Thread.returned_of_isReturned (List.all_eq_true.mp hret t ht), hn, by simpa using hget⟩

end AiDb
