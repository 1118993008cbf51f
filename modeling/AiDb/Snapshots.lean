import AiDb.Writers

/-!
# Snapshots

A snapshot is a sequence number, and its reads take the newest version at or below
that number. A number is taken before its version is stored, and a table has no
numbers at all.
-/

namespace AiDb

open Library

variable {s : Shared} {threads : List Thread}

-- ---------------------------------------------------------------------------
-- Snapshots beside writers
-- ---------------------------------------------------------------------------

def writersAndSnapshots (calls : List (List WriteOp)) (reads : List (List Bytes)) : List Thread :=
  calls.map (.write · .start) ++ reads.map fun keys => .snapshot (.start keys)

/-- What the reads of a snapshot show: the same for the same key, and the state after
some of the calls, each of them whole. -/
structure SnapshotOf (calls : List (List WriteOp)) (answers : List (Bytes × Except Error (Option Bytes))) : Prop where
  repeatable : ∀ key r r', (key, r) ∈ answers → (key, r') ∈ answers → r = r'
  whole : ∃ seen : List (List WriteOp), seen.Subperm calls ∧
    ∀ key r, (key, r) ∈ answers → r = .ok (lastValue key seen.flatten)

instance decidableOwes (i : Nat) : (t : Thread) → Decidable (t.Owes i)
  | .write ops (.numbered stamp _) => inferInstanceAs (Decidable (stamp ≤ i ∧ i < stamp + ops.length))
  | .write _ (.inserting stamp _ rest) => inferInstanceAs (Decidable (stamp ≤ i ∧ i < stamp + rest.length))
  | .write _ .start | .write _ .returned | .write _ .failed => isFalse id
  | .freeze _ | .flush _ | .read _ _ | .snapshot _ => isFalse id

/-- Where a snapshot reads a key, the last operation on it up to the number of the
snapshot has been inserted. -/
def LastInserted (s : Shared) (threads : List Thread) : Thread → Prop
  | .snapshot (.reading sequence (key :: _) _) =>
    ∀ i < sequence, LastBelow s.numbered key sequence i → ∀ t ∈ threads, ¬t.Owes i
  | _ => True

instance (s : Shared) (threads : List Thread) (t : Thread) : Decidable (LastInserted s threads t) := by
  unfold LastInserted
  split <;> infer_instance

def Thread.begun : Thread → Option (List WriteOp)
  | .write _ .start => none
  | .write ops _ => some ops
  | _ => none

def Thread.call : Thread → Option (List WriteOp)
  | .write ops _ => some ops
  | _ => none

def Thread.Sees (calls : List (List WriteOp)) : Thread → Prop
  | .snapshot (.reading sequence _ answers) => ∃ seen, seen <+: calls ∧ sequence = seen.flatten.length ∧
      ∀ key r, (key, r) ∈ answers → r = .ok (lastValue key seen.flatten)
  | _ => True

theorem Thread.Sees.append {t : Thread} (h : t.Sees calls) (more : List (List WriteOp)) : t.Sees (calls ++ more) := by
  unfold Thread.Sees at h ⊢
  split
  · obtain ⟨seen, hseen, h⟩ := h
    exact ⟨seen, hseen.trans (List.prefix_append _ _), h⟩
  · trivial

def Thread.IsWriterOrSnapshot : Thread → Prop
  | .write _ _ => True
  | .snapshot _ => True
  | _ => False

structure Snapshotting (c : Config Shared Thread) : Prop where
  memtableOnly : c.shared.MemtableOnly
  kinds : ∀ t ∈ c.threads, t.IsWriterOrSnapshot
  calls : ∃ calls : List (List WriteOp), c.shared.numbered = calls.flatten ∧
    calls.Perm (c.threads.filterMap Thread.begun) ∧ ∀ t ∈ c.threads, t.Sees calls

theorem Snapshotting.kept {s' : Shared} (h : Snapshotting ⟨s, threads⟩) (ht : threads[i]? = some t)
    (hn : s'.numbered = s.numbered) (hm : s'.MemtableOnly) (hkind : t'.IsWriterOrSnapshot) (hbegun : t'.begun = t.begun)
    (hsees : ∀ calls, s.numbered = calls.flatten → t.Sees calls → t'.Sees calls) :
    Snapshotting ⟨s', threads.set i t'⟩ := by
  obtain ⟨calls, hcalls, hperm, hall⟩ := h.calls
  refine ⟨hm, Config.forall_set h.kinds hkind, calls, by rw [hn]; exact hcalls, ?_, Config.forall_set hall ?_⟩
  · rw [Config.filterMap_set ht hbegun]
    exact hperm
  · exact hsees calls hcalls (hall t (List.mem_of_getElem? ht))

theorem snapshot_read (hnum : Numbering ⟨s, threads⟩) (hcov : Covered ⟨s, threads⟩) (hm : s.MemtableOnly)
    (hcalls : s.numbered = calls.flatten) (hseen : seen <+: calls)
    (hP : LastInserted s threads (.snapshot (.reading seen.flatten.length (key :: keys) shown))) :
    s.sys.db.getAtSequence s.sys.world key seen.flatten.length = .ok (lastValue key seen.flatten) := by
  have htake : s.numbered.take seen.flatten.length = seen.flatten := by
    obtain ⟨more, rfl⟩ := hseen
    rw [hcalls, List.flatten_append, List.take_left]
  rw [hm.get_eq, (hnum.memtables _ List.mem_cons_self).get_eq fun i op hlt hop hlast => ?_]
  · exact congrArg (fun ops => Except.ok (lastValue key ops)) htake
  · rcases hcov i op hop with ⟨m, hmem, he⟩ | ⟨t, ht, howes⟩
    · rw [hm.immutables, List.mem_singleton] at hmem
      exact hmem ▸ he
    · exact absurd howes (hP i hlt hlast t ht)

theorem Snapshotting.step (h : Snapshotting ⟨s, threads⟩) (hnum : Numbering ⟨s, threads⟩) (hcov : Covered ⟨s, threads⟩)
    (ht : threads[i]? = some t) (hP : LastInserted s threads t) (hm : s.Moves t s' t') :
    Snapshotting ⟨s', threads.set i t'⟩ := by
  have hkind := h.kinds t (List.mem_of_getElem? ht)
  have hmem := h.memtableOnly
  -- a call that begins comes after those that have
  have hbegin : ∀ ops t', t'.IsWriterOrSnapshot → t.begun = none → t'.begun = some ops → (∀ calls, t'.Sees calls) →
      ∀ s' : Shared, s'.MemtableOnly → s'.numbered = s.numbered ++ ops → Snapshotting ⟨s', threads.set i t'⟩ := by
    intro ops t' hkind' hnone hsome hsees s' hmem' hn
    obtain ⟨calls, hcalls, hperm, hall⟩ := h.calls
    refine ⟨hmem', Config.forall_set h.kinds hkind', calls ++ [ops], ?_, ?_, ?_⟩
    · have hcalls : s.numbered = calls.flatten := hcalls
      show s'.numbered = _
      rw [hn, hcalls, List.flatten_append, List.flatten_singleton]
    · exact (hperm.append_right [ops]).trans (Config.filterMap_set_perm ht hnone hsome).symm
    · exact Config.forall_set (fun t ht => (hall t ht).append [ops]) (hsees _)
  cases hm with
  | empty => exact hbegin [] (.write [] .returned) trivial rfl rfl (fun _ => trivial) s hmem (List.append_nil _).symm
  | @number ops =>
    exact hbegin ops (.write ops (.numbered _ _)) trivial rfl rfl (fun _ => trivial) _ ⟨hmem.immutables, hmem.sstables⟩ rfl
  | log hlogs happ =>
    have hk := hlogs.writesKept
    refine h.kept ht rfl ⟨hk.immutableMemtables.trans hmem.immutables, ?_⟩ trivial rfl fun _ _ => id
    rw [hlogs.tablesKept.sstables]
    exact hmem.sstables
  | insert => exact h.kept ht rfl ⟨hmem.immutables, hmem.sstables⟩ trivial rfl fun _ _ => id
  | inserted => exact h.kept ht rfl hmem trivial rfl fun _ _ => id
  | @snapshot pc pc' hnext =>
    cases pc with
    | start keys =>
      cases hnext
      refine h.kept ht rfl hmem trivial rfl fun calls hcalls _ => ⟨calls, List.prefix_refl _, ?_, ?_⟩
      · rw [← hcalls]
        exact hnum.sequence
      · exact fun _ _ hx => (nomatch hx)
    | reading sequence keys answers =>
      cases keys with
      | nil => cases hnext
      | cons key keys =>
        cases hnext
        refine h.kept ht rfl hmem trivial rfl fun calls hcalls hsees => ?_
        obtain ⟨seen, hseen, rfl, hanswers⟩ := hsees
        refine ⟨seen, hseen, rfl, fun k r hr => ?_⟩
        rcases List.mem_append.mp hr with hr | hr
        · exact hanswers k r hr
        · rw [List.mem_singleton, Prod.mk.injEq] at hr
          obtain ⟨rfl, rfl⟩ := hr
          exact snapshot_read hnum hcov hmem hcalls hseen hP
  | _ => exact hkind.elim

theorem filterMap_begun_sublist (threads : List Thread) :
    (threads.filterMap Thread.begun).Sublist (threads.filterMap Thread.call) := by
  induction threads with
  | nil => exact List.Sublist.refl _
  | cons t ts ih =>
    cases t with
    | write ops pc =>
      cases pc with
      | start => exact ih.cons ops
      | _ => exact ih.cons_cons ops
    | _ => exact ih

/-- Writers and snapshots: as long as every key read has its last operation up to
the number of the snapshot inserted, each snapshot is repeatable and shows whole
calls. -/
theorem snapshotOf_of_lastInserted (len : CompressedLen) (o : Options) (calls : List (List WriteOp))
    (reads : List (List Bytes)) (schedule : List Nat) (c : Config Shared Thread)
    (hrun : runThreads len o (writersAndSnapshots calls reads) schedule = some c)
    (halong : AlongThreads LastInserted len o (writersAndSnapshots calls reads) schedule) :
    ∀ sequence keys answers, .snapshot (.reading sequence keys answers) ∈ c.threads → SnapshotOf calls answers := by
  have hcalls : (writersAndSnapshots calls reads).filterMap Thread.call = calls := by
    simp [writersAndSnapshots, List.filterMap_map, Function.comp_def, Thread.call]
  obtain ⟨-, -, hsnap, hsame⟩ : Numbering c ∧ Covered c ∧ Snapshotting c ∧ c.threads.filterMap Thread.call = calls := by
    refine runThreads_invariant (I := fun c => Covered c ∧ Snapshotting c ∧ c.threads.filterMap Thread.call = calls)
      (fun s hs => ⟨.fresh hs, ⟨.fresh hs, ?_, [], (Shared.fresh_eq hs).2.1, ?_, ?_⟩, hcalls⟩) ?_ ?_ halong hrun
    · simp [or_imp, forall_and, Thread.IsWriterOrSnapshot]
    · simp [List.filterMap_map, Function.comp_def, Thread.begun]
    · simp [or_imp, forall_and, Thread.Sees]
    · rintro s threads i t s' t' ⟨hcov, hsnap, hsame⟩ hnum ht hP hmoves
      have hkind := hsnap.kinds t (List.mem_of_getElem? ht)
      refine ⟨hcov.step hnum ht ?_ hmoves, hsnap.step hnum hcov ht hP hmoves, ?_⟩
      · cases t <;> simp_all [Thread.IsWriterOrSnapshot, Thread.IsFlush]
      · rw [Config.filterMap_set ht, hsame]
        cases hmoves <;> rfl
    · simp [or_imp, forall_and, Thread.Starting]
  intro sequence keys answers hmem
  obtain ⟨done, -, hperm, hall⟩ := hsnap.calls
  obtain ⟨seen, hseen, -, hanswers⟩ := hall _ hmem
  refine ⟨fun key r r' hr hr' => (hanswers key r hr).trans (hanswers key r' hr').symm, seen, ?_, hanswers⟩
  rw [← hsame]
  exact hseen.sublist.subperm.trans (hperm.subperm.trans (filterMap_begun_sublist c.threads).subperm)

def batchAndSnapshot (keys : List Bytes) (schedule : List Nat) : Option (Config Shared Thread) :=
  runThreads .unused .plain (writersAndSnapshots [[.put [97] [1], .put [98] [1]]] [keys]) schedule

def Thread.answers : Thread → List (Bytes × Except Error (Option Bytes))
  | .snapshot (.reading _ _ answers) => answers
  | _ => []

theorem Thread.reading_of_answers {t : Thread} (h : t.answers = a :: as) :
    ∃ sequence keys, t = .snapshot (.reading sequence keys (a :: as)) := by
  cases t with
  | snapshot pc =>
    cases pc with
    | start keys => cases h
    | reading sequence keys answers =>
      obtain rfl : answers = a :: as := h
      exact ⟨sequence, keys, rfl⟩
  | _ => cases h

theorem snapshotOf_before_batch : ∃ c sequence keys, batchAndSnapshot [[97], [98]] [1, 0, 0, 0, 1, 1] = some c ∧
    AlongThreads LastInserted .unused .plain (writersAndSnapshots [[.put [97] [1], .put [98] [1]]] [[[97], [98]]])
      [1, 0, 0, 0, 1, 1] ∧
    .snapshot (.reading sequence keys [([97], .ok none), ([98], .ok none)]) ∈ c.threads ∧
    SnapshotOf [[.put [97] [1], .put [98] [1]]] [([97], .ok none), ([98], .ok none)] := by
  have hreads : (batchAndSnapshot [[97], [98]] [1, 0, 0, 0, 1, 1]).map (·.threads.map Thread.answers) =
      some [[], [([97], .ok none), ([98], .ok none)]] := by decide +kernel
  have halong : AlongThreads LastInserted .unused .plain
      (writersAndSnapshots [[.put [97] [1], .put [98] [1]]] [[[97], [98]]]) [1, 0, 0, 0, 1, 1] :=
    alongThreads_of_check (by decide +kernel)
  obtain ⟨c, hc, heq⟩ := Option.map_eq_some_iff.mp hreads
  obtain ⟨t, ht, hanswers⟩ := List.mem_map.mp (heq ▸ List.mem_cons_of_mem _ List.mem_cons_self :
    [([97], .ok none), ([98], .ok none)] ∈ c.threads.map Thread.answers)
  obtain ⟨sequence, keys, rfl⟩ := Thread.reading_of_answers hanswers
  exact ⟨c, sequence, keys, hc, halong, ht,
    snapshotOf_of_lastInserted .unused .plain _ _ _ c hc halong sequence keys _ ht⟩

/-- A snapshot that was taken between the numbers of the batch and its inserts: it sees
the first put and not the second, and then the second as well. -/
theorem not_snapshotOf_within_batch : ∃ c sequence keys answers,
    batchAndSnapshot [[97], [98], [98]] [0, 1, 0, 0, 1, 1, 0, 1] = some c ∧
    .snapshot (.reading sequence keys answers) ∈ c.threads ∧
    answers = [([97], .ok (some [1])), ([98], .ok none), ([98], .ok (some [1]))] ∧
    ¬SnapshotOf [[.put [97] [1], .put [98] [1]]] answers := by
  have hreads : (batchAndSnapshot [[97], [98], [98]] [0, 1, 0, 0, 1, 1, 0, 1]).map (·.threads.map Thread.answers) =
      some [[], [([97], .ok (some [1])), ([98], .ok none), ([98], .ok (some [1]))]] := by decide +kernel
  obtain ⟨c, hc, heq⟩ := Option.map_eq_some_iff.mp hreads
  obtain ⟨t, ht, hanswers⟩ := List.mem_map.mp (heq ▸ List.mem_cons_of_mem _ List.mem_cons_self :
    [([97], .ok (some [1])), ([98], .ok none), ([98], .ok (some [1]))] ∈ c.threads.map Thread.answers)
  obtain ⟨sequence, keys, rfl⟩ := Thread.reading_of_answers hanswers
  refine ⟨c, sequence, keys, _, hc, ht, rfl, fun h => ?_⟩
  have := h.repeatable [98] (.ok none) (.ok (some [1])) (by simp) (by simp)
  cases this

end AiDb
