import AiDb.FailedWrites
import AiDb.Snapshots

/-!
# Concurrent writers and calls in a row

Puts, deletes and batches that run side by side insert their operations in any order.
Once all of them have returned, the database is the one that a single thread leaves
that makes the calls in the order in which they took their numbers.
-/

namespace AiDb

open Library

variable {s s' : Shared} {threads : List Thread}

-- ---------------------------------------------------------------------------
-- The order of the numbers
-- ---------------------------------------------------------------------------

def Thread.KeepsTables : Thread → Prop
  | .freeze _ | .flush _ => False
  | _ => True

theorem Thread.KeepsTables.not_isFlush {t : Thread} (h : t.KeepsTables) : ¬t.IsFlush := by
  cases t <;> simp_all [Thread.KeepsTables, Thread.IsFlush]

def Thread.starts : Thread → List (List WriteOp)
  | .write ops .start => [ops]
  | _ => []

/-- The calls of a run, in the order in which they take their numbers. -/
def taken (c : Config Shared Thread) : List Nat → List (List WriteOp)
  | [] => []
  | i :: is =>
    match c.step Thread.next i with
    | none => []
    | some c' => (c.threads[i]?.map Thread.starts).getD [] ++ taken c' is

theorem taken_append {c c' : Config Shared Thread} (h : c.run Thread.next pre = some c') (post : List Nat) :
    taken c (pre ++ post) = taken c pre ++ taken c' post := by
  induction pre generalizing c with
  | nil =>
    cases h
    rfl
  | cons i pre ih =>
    obtain ⟨c1, hc1, hrun⟩ := Config.run_cons h
    simp [taken, hc1, ih hrun]

/-- A writer that starts has its operations numbered next; no other step numbers any. -/
theorem Shared.Moves.starts (h : s.Moves t s' t') : s'.numbered = s.numbered ++ t.starts.flatten ∧
    (t.begun.toList ++ t.starts) = t'.begun.toList := by
  cases h with
  | number => exact ⟨by simp [Thread.starts], rfl⟩
  | empty => exact ⟨by simp [Thread.starts], rfl⟩
  | _ => exact ⟨by simp [Thread.starts], rfl⟩

theorem begun_set (ht : threads[i]? = some t) (h : t.begun.toList ++ t.starts = t'.begun.toList) :
    ((threads.set i t').filterMap Thread.begun).Perm (threads.filterMap Thread.begun ++ t.starts) := by
  cases hstarts : t.starts with
  | nil =>
    rw [hstarts, List.append_nil] at h
    have hbegun : t'.begun = t.begun := by
      cases hb : t.begun <;> cases hb' : t'.begun <;> simp_all
    rw [Config.filterMap_set ht hbegun, List.append_nil]
  | cons ops rest =>
    obtain ⟨rfl, rfl⟩ : t = .write ops .start ∧ rest = [] := by
      unfold Thread.starts at hstarts
      split at hstarts <;> simp_all
    refine Config.filterMap_set_perm ht rfl ?_
    cases hb' : t'.begun <;> simp_all [Thread.begun, Thread.starts]

theorem taken_numbered {c c' : Config Shared Thread} (hnum : Numbering c) (hrun : c.run Thread.next is = some c') :
    c'.shared.numbered = c.shared.numbered ++ (taken c is).flatten ∧
      (c'.threads.filterMap Thread.begun).Perm (c.threads.filterMap Thread.begun ++ taken c is) := by
  induction is generalizing c with
  | nil =>
    cases hrun
    simp [taken]
  | cons i is ih =>
    obtain ⟨c1, hc1, hrun⟩ := Config.run_cons hrun
    obtain ⟨t, s, t', ht, hn, rfl⟩ := Config.step_eq_some.mp hc1
    have hmoves := Thread.next_moves hnum.calm hn
    obtain ⟨hnumbered, hbegun⟩ := hmoves.starts
    obtain ⟨hnumbered', hperm⟩ := ih (hnum.step ht hmoves) hrun
    simp only [taken, hc1, ht, Option.map_some, Option.getD_some]
    constructor
    · rw [hnumbered', List.flatten_append, ← List.append_assoc, ← hnumbered]
    · rw [← List.append_assoc]
      exact hperm.trans ((begun_set ht hbegun).append_right _)

-- ---------------------------------------------------------------------------
-- One thread
-- ---------------------------------------------------------------------------

theorem MemTable.Of.applyOps {m : MemTable} {ops rest : List WriteOp} (h : m.Of ops) (hrest : rest <+: ops.drop n) :
    (applyOps m n (n + 1) rest).Of ops ∧ (∀ e ∈ m.iter, e ∈ (applyOps m n (n + 1) rest).iter) ∧
      ∀ (i : Nat) op, n ≤ i → i < n + rest.length → ops[i]? = some op →
        op.entry i ∈ (AiDb.applyOps m n (n + 1) rest).iter := by
  induction rest generalizing m n with
  | nil => exact ⟨h, fun _ => id, fun i op hle hlt => absurd hle (by simpa using hlt)⟩
  | cons op rest ih =>
    have hop : ops[n]? = some op := getElem?_of_prefix_drop hrest
    obtain ⟨hof, hkept, hnew⟩ := ih (h.apply hop) (prefix_drop_succ hrest)
    refine ⟨hof, fun e he => hkept e ((h.mem_apply hop).mpr (.inr he)), fun i op' hle hlt hop' => ?_⟩
    rcases Nat.eq_or_lt_of_le hle with rfl | hlt'
    · obtain rfl : op = op' := by simpa [hop] using hop'
      exact hkept _ ((h.mem_apply hop).mpr (.inl rfl))
    · exact hnew i op' hlt' (by simpa [Nat.add_assoc, Nat.add_comm 1] using hlt) hop'

theorem Sys.runs_writes {x : Sys} (hcalm : x.world.faults = []) {calls : List Call} (hwrites : ∀ c ∈ calls, c.IsWrite) :
    ∃ x', x.runs calls = some x' := by
  induction calls generalizing x with
  | nil => exact ⟨x, rfl⟩
  | cons c calls ih =>
    have hc := hwrites c List.mem_cons_self
    obtain ⟨x1, hx1⟩ := Call.run_returns hc hcalm
    obtain ⟨x2, hx2⟩ := ih (Call.calm_ok hc hcalm hx1) fun c hc => hwrites c (List.mem_cons_of_mem _ hc)
    exact ⟨x2, by simp only [Sys.runs, hx1, hx2]⟩

def totalSize (ops : List WriteOp) : Nat := (ops.map WriteOp.entrySize).sum

theorem write_room {x x' : Sys} (hroom : (x.insert batch).db.memtable.approximateSize < x.db.options.memtableSize)
    (h : write batch x = .ok () x') : (x.insert batch).Logs x' := by
  by_cases hb : batch = []
  · subst hb
    cases h
    exact .refl x
  · have hspec := (write_spec batch hb x).ok h
    have hfull : (x.insert batch).freezeIfFull = x.insert batch := if_neg (not_le.mpr hroom)
    rwa [hfull] at hspec

theorem Sys.runs_batches {x x' : Sys} (batches : List (List WriteOp)) (h : x.runs (batches.map Call.write) = some x')
    (hroom : x.db.memtable.approximateSize + totalSize batches.flatten < x.db.options.memtableSize) :
    (x.insert batches.flatten).Logs x' := by
  induction batches using List.reverseRecOn generalizing x' with
  | nil =>
    obtain rfl : x = x' := by simpa [Sys.runs] using h
    exact .refl x
  | append_singleton batches batch ih =>
    rw [List.map_append] at h
    obtain ⟨x1, hx1, hrun⟩ := Sys.runs_snoc.mp h
    have hsum : totalSize (batches ++ [batch]).flatten = totalSize batches.flatten + totalSize batch := by
      simp [totalSize]
    rw [hsum] at hroom
    have hbefore := ih hx1 (by omega)
    have hbatch := (hbefore.inserted batch)
    rw [Sys.insert_append] at hbatch
    have hflat : (batches ++ [batch]).flatten = batches.flatten ++ batch := by simp
    rw [hflat]
    refine hbatch.trans (write_room ?_ hrun)
    have hsize : (x1.insert batch).db.memtable.approximateSize = x1.db.memtable.approximateSize + totalSize batch :=
      applyOps_size _ _ _ _
    have hsize1 : x1.db.memtable.approximateSize = x.db.memtable.approximateSize + totalSize batches.flatten := by
      obtain ⟨_, _, _, _, -, rfl⟩ := hbefore
      exact applyOps_size _ _ _ _
    have hoptions : x1.db.options = x.db.options := by
      obtain ⟨_, _, _, _, -, rfl⟩ := hbefore
      rfl
    rw [hsize, hsize1, hoptions]
    omega

-- ---------------------------------------------------------------------------
-- What both leave
-- ---------------------------------------------------------------------------

theorem Shared.MemtableOnly.step (h : s.MemtableOnly) (ht : t.KeepsTables) (hm : s.Moves t s' t') :
    s'.MemtableOnly ∧ t'.KeepsTables := by
  cases hm with
  | log hlogs happ =>
    refine ⟨⟨hlogs.writesKept.immutableMemtables.trans h.immutables, ?_⟩, trivial⟩
    rw [hlogs.tablesKept.sstables]
    exact h.sstables
  | empty => exact ⟨h, trivial⟩
  | number => exact ⟨⟨h.immutables, h.sstables⟩, trivial⟩
  | insert => exact ⟨⟨h.immutables, h.sstables⟩, trivial⟩
  | inserted => exact ⟨h, trivial⟩
  | read => exact ⟨h, trivial⟩
  | snapshot => exact ⟨h, trivial⟩
  | _ => exact ht.elim

/-- With every operation in the one memtable, a read goes by the numbers. -/
theorem Shared.MemtableOnly.getAtSequence_eq (h : s.MemtableOnly) (hof : s.sys.db.memtable.Of ops)
    (hall : ∀ (i : Nat) op, ops[i]? = some op → op.entry i ∈ s.sys.db.memtable.iter) (key : Bytes) (seq : Nat) :
    s.sys.getAtSequence key seq = .ok (lastValue key (ops.take seq)) := by
  rw [Sys.getAtSequence, h.get_eq, hof.get_eq fun i op _ hop _ => hall i op hop]

def callOrder (len : CompressedLen) (o : Options) (threads : List Thread) (schedule : List Nat) : List (List WriteOp) :=
  ((Shared.fresh len o).map fun s => taken ⟨s, threads⟩ schedule).getD []

theorem filterMap_begun_returned (h : ∀ t ∈ threads, t.Returned) :
    threads.filterMap Thread.begun = threads.filterMap Thread.call := by
  refine List.filterMap_congr fun t ht => ?_
  have hret := h t ht
  cases t with
  | write ops pc =>
    cases hret
    rfl
  | _ => rfl

/-- Writers beside reads and snapshots, under any schedule: when all have returned, the
database reads, at every sequence number, like the one on which a single thread made
the same calls in the order of their numbers, if that does not fill the memtable. At
any moment of the run, the calls that have begun are the first of that order. -/
theorem writers_linearize (len : CompressedLen) (o : Options) (threads : List Thread) (schedule : List Nat)
    (c : Config Shared Thread) (hstarting : ∀ t ∈ threads, t.Starting) (hkinds : ∀ t ∈ threads, t.KeepsTables)
    (hroom : totalSize (threads.filterMap Thread.call).flatten < o.memtableSize)
    (hrun : runThreads len o threads schedule = some c) (hret : ∀ t ∈ c.threads, t.Returned) :
    (callOrder len o threads schedule).Perm (threads.filterMap Thread.call) ∧
    (∀ pre post c0, schedule = pre ++ post → runThreads len o threads pre = some c0 →
      (callOrder len o threads pre).Perm (c0.threads.filterMap Thread.begun) ∧
        callOrder len o threads pre <+: callOrder len o threads schedule) ∧
    ∃ x, Sys.session len o ((callOrder len o threads schedule).map Call.write) = some x ∧
      c.shared.sys.getAtSequence = x.getAtSequence ∧ c.shared.sys.db.sequence = x.db.sequence := by
  obtain ⟨s0, hs0, hrun0⟩ := Option.bind_eq_some_iff.mp hrun
  have hnum0 : Numbering ⟨s0, threads⟩ := .fresh hs0 hstarting
  have horder : ∀ is, callOrder len o threads is = taken ⟨s0, threads⟩ is := by
    intro is
    simp [callOrder, hs0]
  have hbegun0 : threads.filterMap Thread.begun = [] := by
    refine List.filterMap_eq_nil_iff.mpr fun t ht => ?_
    have hstart := hstarting t ht
    cases t with
    | write ops pc =>
      cases hstart
      rfl
    | _ => rfl
  obtain ⟨hnum, hcov, hmem, hcall, -⟩ : Numbering c ∧ Covered c ∧ c.shared.MemtableOnly ∧
      c.threads.filterMap Thread.call = threads.filterMap Thread.call ∧ ∀ t ∈ c.threads, t.KeepsTables := by
    refine runThreads_invariant (I := fun c => Covered c ∧ c.shared.MemtableOnly ∧
      c.threads.filterMap Thread.call = threads.filterMap Thread.call ∧ ∀ t ∈ c.threads, t.KeepsTables)
      (fun s hs => ⟨.fresh hs, .fresh hs, rfl, hkinds⟩) ?_ hstarting alongThreads_true hrun
    rintro s threads i t s' t' ⟨hcov, hmem, hcall, hkind⟩ hnum ht - hmoves
    have htables := hkind t (List.mem_of_getElem? ht)
    have hstep := hmem.step htables hmoves
    refine ⟨hcov.step hnum ht htables.not_isFlush hmoves, hstep.1, ?_, Config.forall_set hkind hstep.2⟩
    rw [Config.filterMap_set ht, hcall]
    cases hmoves <;> rfl
  have hperm : (callOrder len o threads schedule).Perm (threads.filterMap Thread.call) := by
    have h := (taken_numbered hnum0 hrun0).2
    rw [hbegun0, List.nil_append, filterMap_begun_returned hret, hcall] at h
    rw [horder]
    exact h.symm
  refine ⟨hperm, ?_, ?_⟩
  · rintro pre post c0 rfl hpre
    obtain ⟨s1, hs1, hpre⟩ := Option.bind_eq_some_iff.mp hpre
    obtain rfl : s0 = s1 := by simpa [hs0] using hs1
    have h := (taken_numbered hnum0 hpre).2
    rw [hbegun0, List.nil_append] at h
    rw [horder, horder, taken_append hpre post]
    exact ⟨h.symm, List.prefix_append _ _⟩
  · obtain ⟨hfresh, hn0, -⟩ := Shared.fresh_eq hs0
    obtain ⟨-, -, hcalm, hwrites, vs, hdb⟩ := Sys.fresh_opened hfresh
    have hbatches : ∀ c ∈ (callOrder len o threads schedule).map Call.write, c.IsWrite := by simp [Call.IsWrite]
    obtain ⟨x, hx⟩ := Sys.runs_writes hcalm hbatches
    have hnumbered : c.shared.numbered = (callOrder len o threads schedule).flatten := by
      have h := (taken_numbered hnum0 hrun0).1
      rw [hn0, List.nil_append] at h
      rw [horder]
      exact h
    have hsize : totalSize (callOrder len o threads schedule).flatten = totalSize (threads.filterMap Thread.call).flatten :=
      (hperm.flatten.map WriteOp.entrySize).sum_eq
    have hnew : s0.sys.db.memtable = MemTable.new 1 := by rw [hdb]; rfl
    have hlogs : (s0.sys.insert c.shared.numbered).Logs x := by
      rw [hnumbered]
      refine Sys.runs_batches _ hx ?_
      rw [hsize, hnew, hdb]
      exact lt_of_le_of_lt (le_of_eq (Nat.zero_add _)) hroom
    have hmemtable : (s0.sys.insert c.shared.numbered).db.memtable = applyOps (MemTable.new 1) 0 1 c.shared.numbered := by
      simp only [Sys.insert, hwrites, hdb]
      rfl
    have hempty : (MemTable.new 1).Of c.shared.numbered := MemTable.of_new
    obtain ⟨hof, -, hall⟩ := hempty.applyOps (show c.shared.numbered <+: c.shared.numbered.drop 0 from List.prefix_refl _)
    have hone : (Shared.mk (s0.sys.insert c.shared.numbered) [] []).MemtableOnly :=
      ⟨(Shared.MemtableOnly.fresh hs0).immutables, (Shared.MemtableOnly.fresh hs0).sstables⟩
    refine ⟨x, ?_, ?_, ?_⟩
    · rw [Sys.session, hfresh]
      exact hx
    · rw [Sys.getAtSequence_logs hlogs]
      funext key seq
      have hrow : (s0.sys.insert c.shared.numbered).getAtSequence key seq =
          .ok (lastValue key (c.shared.numbered.take seq)) := by
        refine hone.getAtSequence_eq (hmemtable ▸ hof) (fun i op hop => ?_) key seq
        rw [hmemtable]
        exact hall i op (Nat.zero_le i) (by simpa using (List.getElem?_eq_some_iff.mp hop).1) hop
      rw [hrow, hmem.getAtSequence_eq (hnum.memtables _ List.mem_cons_self) fun i op hop => ?_]
      · rcases hcov i op hop with ⟨m, hm, he⟩ | ⟨t, ht, howes⟩
        · rw [hmem.immutables, List.mem_singleton] at hm
          exact hm ▸ he
        · exact absurd howes (hret t ht).not_owes
    · have hseq : x.db.sequence = s0.sys.db.sequence + c.shared.numbered.length := by
        obtain ⟨_, _, _, _, -, rfl⟩ := hlogs
        rfl
      rw [hnum.sequence, hseq, hdb]
      exact (Nat.zero_add _).symm

def batchDeleteRead : List Thread :=
  [.write [.put [97] [1], .put [98] [2]] .start, .write [.delete [97]] .start, .read [97] .start]

def deleteLast : List Nat := [1, 0, 2, 0, 0, 1, 2, 0, 0, 1, 1]

theorem writers_linearize_deleteLast : ∃ c x, runThreads .unused .plain batchDeleteRead deleteLast = some c ∧
    callOrder .unused .plain batchDeleteRead deleteLast = [[.delete [97]], [.put [97] [1], .put [98] [2]]] ∧
    Sys.session .unused .plain ((callOrder .unused .plain batchDeleteRead deleteLast).map Call.write) = some x ∧
      c.shared.sys.getAtSequence = x.getAtSequence := by
  have hret : (runThreads .unused .plain batchDeleteRead deleteLast).map (·.threads.all Thread.isReturned) = some true := by
    decide +kernel
  obtain ⟨c, hc, hret⟩ := Option.map_eq_some_iff.mp hret
  have hstarting : ∀ t ∈ batchDeleteRead, t.Starting := by simp [batchDeleteRead, Thread.Starting]
  have hkinds : ∀ t ∈ batchDeleteRead, t.KeepsTables := by simp [batchDeleteRead, Thread.KeepsTables]
  have hroom : totalSize (batchDeleteRead.filterMap Thread.call).flatten < Options.plain.memtableSize := by decide
  obtain ⟨-, -, x, hx, hget, -⟩ := writers_linearize .unused .plain batchDeleteRead deleteLast c hstarting hkinds hroom hc
    fun t ht => Thread.returned_of_isReturned (List.all_eq_true.mp hret t ht)
  exact ⟨c, x, hc, by decide +kernel, hx, hget⟩

end AiDb
