import AiDb.Concurrent
import AiDb.Replay

/-!
# Writers side by side

The operations of concurrent writers in the order of their sequence numbers: the
`i`-th of them is stored under the number `i + 1`. A memtable holds the versions of
some of them, and a writer that is not done accounts for those still missing.
-/

namespace AiDb

open Library

variable {m : MemTable} {ops : List WriteOp} {op : WriteOp} {key : Bytes} {i bound : Nat}

-- ---------------------------------------------------------------------------
-- Versions by number
-- ---------------------------------------------------------------------------

def WriteOp.entry (op : WriteOp) (i : Nat) : InternalKey × Value :=
  (⟨op.key, ((i + 1 : ℕ) : Sequence), (op.version i).1⟩, (op.version i).2)

theorem WriteOp.mem_apply (op : WriteOp) (i : Nat) :
    e ∈ (op.apply m i (i + 1)).iter ↔ e = op.entry i ∨ e ∈ m.iter ∧ e.1 ≠ (op.entry i).1 := by
  cases op <;> exact SkipMap.mem_insert _

def MemTable.Of (m : MemTable) (ops : List WriteOp) : Prop :=
  ∀ e ∈ m.iter, ∃ (i : Nat) (op : WriteOp), ops[i]? = some op ∧ e = op.entry i

theorem getElem?_append_some {as : List α} (h : as[i]? = some a) (bs : List α) : (as ++ bs)[i]? = some a := by
  rw [List.getElem?_append_left (List.getElem?_eq_some_iff.mp h).1]
  exact h

theorem MemTable.Of.append (h : m.Of ops) (more : List WriteOp) : m.Of (ops ++ more) := by
  intro e he
  obtain ⟨i, op, hop, rfl⟩ := h e he
  exact ⟨i, op, getElem?_append_some hop more, rfl⟩

theorem MemTable.of_new : (MemTable.new start).Of ops := fun _ he => (nomatch he)

theorem MemTable.Of.mem_apply (h : m.Of ops) (hop : ops[i]? = some op) :
    e ∈ (op.apply m i (i + 1)).iter ↔ e = op.entry i ∨ e ∈ m.iter := by
  rw [WriteOp.mem_apply]
  refine ⟨Or.imp_right And.left, ?_⟩
  rintro (rfl | he)
  · exact .inl rfl
  · obtain ⟨j, op', hop', rfl⟩ := h e he
    by_cases hij : j = i
    · subst hij
      rw [hop] at hop'
      cases hop'
      exact .inl rfl
    · refine .inr ⟨he, fun heq => hij ?_⟩
      have hseq : ((j + 1 : ℕ) : Sequence) = ((i + 1 : ℕ) : Sequence) := congrArg InternalKey.sequence heq
      exact Nat.succ.inj (by exact_mod_cast hseq)

theorem MemTable.Of.apply (h : m.Of ops) (hop : ops[i]? = some op) :
    (op.apply m i (i + 1)).Of ops := by
  intro e he
  rcases (h.mem_apply hop).mp he with rfl | he
  · exact ⟨i, op, hop, rfl⟩
  · exact h e he

theorem MemTable.Of.newest_eq (h : m.Of ops) (hop : ops[i]? = some op)
    (hmem : op.entry i ∈ m.iter) (hi : i < bound)
    (hlast : ∀ (j : Nat) op', i < j → j < bound → ops[j]? = some op' → op'.entry j ∈ m.iter → op'.key ≠ op.key) :
    m.newest op.key (bound : ℕ) = some (op.entry i) := by
  rw [MemTable.newest_eq_some]
  refine ⟨hmem, ⟨rfl, ?_⟩, fun x hx hxk hxs => ?_⟩
  · show ((i + 1 : ℕ) : Sequence) ≤ (bound : ℕ)
    exact_mod_cast hi
  · obtain ⟨j, op', hop', rfl⟩ := h x hx
    have hj : j < bound := by
      have : ((j + 1 : ℕ) : Sequence) ≤ (bound : ℕ) := hxs
      exact_mod_cast this
    rcases lt_trichotomy j i with hji | rfl | hij
    · rw [← not_lt, InternalKey.lt_iff]
      have hseq : ((j + 1 : ℕ) : Sequence) < ((i + 1 : ℕ) : Sequence) := by exact_mod_cast Nat.succ_lt_succ hji
      rintro (hlt | ⟨-, hlt | ⟨heq, -⟩⟩)
      · exact absurd hxk (ne_of_lt hlt)
      · exact absurd hseq (not_lt.mpr (le_of_lt hlt))
      · exact absurd heq (ne_of_gt hseq)
    · rw [hop] at hop'
      cases hop'
      exact le_refl _
    · exact absurd hxk (hlast j op' hij hj hop' hx)

theorem MemTable.get_of_newest (h : m.newest op.key s = some (op.entry i)) :
    (m.get op.key s).map Value.bytes = op.value := by
  rw [MemTable.get_eq, h]
  cases op <;> rfl

theorem MemTable.get_of_none (h : m.newest key s = none) : m.get key s = none := by
  rw [MemTable.get_eq, h]

def LastBelow (ops : List WriteOp) (key : Bytes) (bound i : Nat) : Prop :=
  (∃ op ∈ ops[i]?, op.key = key) ∧ ∀ j < bound, i < j → ∀ op ∈ ops[j]?, op.key ≠ key

instance (ops : List WriteOp) (key : Bytes) (bound i : Nat) : Decidable (LastBelow ops key bound i) :=
  inferInstanceAs (Decidable (_ ∧ _))

/-- A memtable that holds the last version of the key among those of the first
operations answers with it. -/
theorem MemTable.Of.get_eq (h : m.Of ops)
    (hlast : ∀ (i : Nat) op, i < bound → ops[i]? = some op → LastBelow ops key bound i → op.entry i ∈ m.iter) :
    (m.get key (bound : ℕ)).map Value.bytes = lastValue key (ops.take bound) := by
  have htake : ∀ {i op}, (ops.take bound)[i]? = some op ↔ i < bound ∧ ops[i]? = some op := by
    intro i op
    rw [List.getElem?_take]
    split <;> simp_all
  cases hop : lastOp key (ops.take bound) with
  | none =>
    have hnone : m.newest key (bound : ℕ) = none := by
      rw [MemTable.newest_eq_none]
      intro x hx hxk hxs
      obtain ⟨j, op, hj, rfl⟩ := h x hx
      have hlt : j < bound := by
        have : ((j + 1 : ℕ) : Sequence) ≤ (bound : ℕ) := hxs
        exact_mod_cast this
      exact lastOp_eq_none.mp hop op (List.mem_of_getElem? (htake.mpr ⟨hlt, hj⟩)) hxk
    rw [MemTable.get_of_none hnone, lastValue, hop]
    rfl
  | some op =>
    obtain ⟨rfl, i, hi, hafter⟩ := lastOp_eq_some hop
    obtain ⟨hlt, hi⟩ := htake.mp hi
    have hmem := hlast i op hlt hi ⟨⟨op, hi, rfl⟩, fun j hj hij op' hop' => hafter j op' hij (htake.mpr ⟨hj, hop'⟩)⟩
    have hnewest := h.newest_eq hi hmem hlt fun j op' hij hj hop' _ => hafter j op' hij (htake.mpr ⟨hj, hop'⟩)
    rw [MemTable.get_of_newest hnewest, lastValue, hop]
    rfl

-- ---------------------------------------------------------------------------
-- Numbers
-- ---------------------------------------------------------------------------

structure Sys.WritesKept (s s' : Sys) : Prop extends s.MemtablesKept s' where
  calm : s.world.faults = [] → s'.world.faults = []

theorem Sys.WritesKept.refl (s : Sys) : s.WritesKept s := ⟨⟨rfl, rfl, rfl, rfl, rfl⟩, id⟩

theorem Sys.Logs.writesKept {s s' : Sys} (h : s.Logs s') : s.WritesKept s' := by
  obtain ⟨_, _, _, _, hf, rfl⟩ := h
  exact ⟨⟨rfl, rfl, rfl, rfl, rfl⟩, hf⟩

theorem flushMemtableToSstable_writesKept (m : MemTable) (s : Sys) :
    Triple (flushMemtableToSstable m) s (fun _ => s.WritesKept) (fun _ => s.WritesKept) := by
  refine (flushMemtableToSstable_spec m s).mono ?_ ?_
  · rintro _ s' (⟨-, hdb, hat⟩ | ⟨-, f, r, -, -, hdb, hat, -⟩)
    · exact ⟨⟨by rw [hdb]; rfl, by rw [hdb]; rfl, by rw [hdb]; rfl, by rw [hdb]; rfl, hat.writes_eq⟩, hat.calm⟩
    · exact ⟨⟨by rw [hdb]; rfl, by rw [hdb]; rfl, by rw [hdb]; rfl, by rw [hdb]; rfl, hat.writes_eq⟩, hat.calm⟩
  · rintro _ s' ⟨hdb, d, -, hat⟩
    exact ⟨⟨by rw [hdb]; rfl, by rw [hdb]; rfl, by rw [hdb]; rfl, by rw [hdb]; rfl, hat.writes_eq⟩, hat.calm⟩

/-- What a thread holds is of the operations that took numbers. -/
def Thread.Placed (ops : List WriteOp) : Thread → Prop
  | .write batch (.numbered stamp seq) => seq = stamp + 1 ∧ batch <+: ops.drop stamp
  | .write _ (.inserting stamp seq rest) => seq = stamp + 1 ∧ rest <+: ops.drop stamp
  | .write _ .failed => False
  | .flush (.writing m) => m.Of ops
  | .flush (.failed m) => m.Of ops
  | _ => True

/-- The operations are numbered in order, and everything stored is one of them. -/
structure Numbering (c : Config Shared Thread) : Prop where
  calm : c.shared.sys.world.faults = []
  writes : c.shared.sys.world.writes = c.shared.numbered.length
  sequence : c.shared.sys.db.sequence = c.shared.numbered.length
  memtables : ∀ m ∈ c.shared.sys.db.memtable :: c.shared.sys.db.immutableMemtables, m.Of c.shared.numbered
  placed : ∀ t ∈ c.threads, t.Placed c.shared.numbered

theorem prefix_drop_append {as bs : List α} (h : as <+: bs.drop n) (cs : List α) : as <+: (bs ++ cs).drop n := by
  rw [List.drop_append]
  exact h.trans (List.prefix_append _ _)

theorem Thread.Placed.append {t : Thread} (h : t.Placed ops) (more : List WriteOp) : t.Placed (ops ++ more) := by
  unfold Thread.Placed at h ⊢
  split
  · exact ⟨h.1, prefix_drop_append h.2 more⟩
  · exact ⟨h.1, prefix_drop_append h.2 more⟩
  · exact h
  · exact MemTable.Of.append h more
  · exact MemTable.Of.append h more
  · trivial

theorem getElem?_of_prefix_drop {as bs : List α} {n : Nat} (h : a :: as <+: bs.drop n) : bs[n]? = some a := by
  have := List.prefix_iff_getElem?.mp h 0 (by simp)
  simpa [List.getElem?_drop] using this

theorem prefix_drop_succ {as bs : List α} {n : Nat} (h : a :: as <+: bs.drop n) : as <+: bs.drop (n + 1) := by
  have := h.drop 1
  rwa [List.drop_succ_cons, List.drop_zero, List.drop_drop] at this

theorem Numbering.kept {s : Shared} {threads : List Thread} {s' : Shared} (h : Numbering ⟨s, threads⟩)
    (hn : s'.numbered = s.numbered) (hk : s.sys.WritesKept s'.sys) (ht : t'.Placed s.numbered) :
    Numbering ⟨s', threads.set i t'⟩ where
  calm := hk.calm h.calm
  writes := by rw [hk.writes, hn]; exact h.writes
  sequence := by rw [hk.sequence, hn]; exact h.sequence
  memtables := by rw [hk.memtable, hk.immutableMemtables, hn]; exact h.memtables
  placed := by rw [hn]; exact Config.forall_set h.placed ht

theorem Numbering.step {s : Shared} {threads : List Thread} (h : Numbering ⟨s, threads⟩) (ht : threads[i]? = some t)
    (hm : s.Moves t s' t') : Numbering ⟨s', threads.set i t'⟩ := by
  have hplaced := h.placed t (List.mem_of_getElem? ht)
  have hsame := Sys.WritesKept.refl s.sys
  -- freezing moves the active memtable to the list
  have hfreeze : ∀ t', t'.Placed s.numbered →
      Numbering ⟨{ s with sys := s.sys.freeze }, threads.set i t'⟩ := by
    intro t' ht'
    refine ⟨h.calm, h.writes, h.sequence, fun m hm => ?_, Config.forall_set h.placed ht'⟩
    rcases List.mem_cons.mp hm with rfl | hm
    · exact MemTable.of_new
    · rcases List.mem_append.mp hm with hm | hm
      · exact h.memtables m (List.mem_cons_of_mem _ hm)
      · rw [List.mem_singleton] at hm
        subst hm
        exact h.memtables _ List.mem_cons_self
  cases hm with
  | empty => exact h.kept rfl hsame trivial
  | @number ops hops =>
    have hlen : (s.numbered ++ ops).length = s.numbered.length + ops.length := List.length_append
    refine ⟨h.calm, ?_, ?_, fun m hm => (h.memtables m hm).append ops, Config.forall_set
      (fun t ht => (h.placed t ht).append ops) ⟨?_, ?_⟩⟩
    · show s.sys.world.writes + ops.length = _
      rw [hlen, ← h.writes]
    · show s.sys.db.sequence + ops.length = _
      rw [hlen, ← h.sequence]
    · rw [h.sequence, h.writes]
    · rw [h.writes, List.drop_left]
  | log hlogs happ => exact h.kept rfl hlogs.writesKept hplaced
  | @insert ops stamp seq op rest =>
    obtain ⟨rfl, hpre⟩ := hplaced
    refine ⟨h.calm, h.writes, h.sequence, fun m hm => ?_, Config.forall_set h.placed ⟨rfl, prefix_drop_succ hpre⟩⟩
    rcases List.mem_cons.mp hm with rfl | hm
    · exact (h.memtables _ List.mem_cons_self).apply (getElem?_of_prefix_drop hpre)
    · exact h.memtables m (List.mem_cons_of_mem _ hm)
  | inserted => exact h.kept rfl hsame trivial
  | freeze => exact hfreeze _ trivial
  | skipFreeze => exact h.kept rfl hsame trivial
  | wantFreeze => exact h.kept rfl hsame trivial
  | freezeFlush => exact hfreeze _ trivial
  | nonePopped => exact h.kept rfl hsame trivial
  | @pop m rest himm =>
    have hof : ∀ x ∈ m :: rest, x.Of s.numbered := fun x hx =>
      h.memtables x (List.mem_cons_of_mem _ (by rw [himm]; exact hx))
    refine ⟨h.calm, h.writes, h.sequence, fun x hx => ?_, Config.forall_set h.placed (hof m List.mem_cons_self)⟩
    rcases List.mem_cons.mp hx with rfl | hx
    · exact h.memtables _ List.mem_cons_self
    · exact hof x (List.mem_cons_of_mem _ hx)
  | @install m n s1 hr => exact h.kept rfl ((flushMemtableToSstable_writesKept m s.sys).ok hr) trivial
  | @notInstalled m e s1 hr =>
    exact h.kept rfl ((flushMemtableToSstable_writesKept m s.sys).error hr) hplaced
  | create => exact h.kept rfl ⟨⟨rfl, rfl, rfl, rfl, rfl⟩, id⟩ trivial
  | swap happ =>
    have hk := happ.logs.writesKept
    exact h.kept rfl ⟨⟨hk.memtable, hk.immutableMemtables, hk.sequence, hk.options, hk.writes⟩, hk.calm⟩ trivial
  | remove => exact h.kept rfl ⟨⟨rfl, rfl, rfl, rfl, rfl⟩, id⟩ trivial
  | read => exact h.kept rfl hsame trivial
  | snapshot => exact h.kept rfl hsame trivial

theorem Shared.Moves.numbered_append {s : Shared} (hm : s.Moves t s' t') : ∃ more, s'.numbered = s.numbered ++ more := by
  cases hm with
  | number => exact ⟨_, rfl⟩
  | _ => exact ⟨[], (List.append_nil _).symm⟩

theorem Shared.Moves.options_eq {s : Shared} (hm : s.Moves t s' t') : s'.sys.db.options = s.sys.db.options := by
  cases hm with
  | log hlogs => exact hlogs.writesKept.options
  | @install m _ _ hr => exact ((flushMemtableToSstable_writesKept m s.sys).ok hr).options
  | @notInstalled m _ _ hr => exact ((flushMemtableToSstable_writesKept m s.sys).error hr).options
  | swap happ => exact happ.logs.writesKept.options
  | _ => rfl

-- ---------------------------------------------------------------------------
-- Versions still to come
-- ---------------------------------------------------------------------------

/-- The writer has the operation with number `i + 1` still to insert. -/
def Thread.Owes (i : Nat) : Thread → Prop
  | .write ops (.numbered stamp _) => stamp ≤ i ∧ i < stamp + ops.length
  | .write _ (.inserting stamp _ rest) => stamp ≤ i ∧ i < stamp + rest.length
  | _ => False

def Thread.IsFlush : Thread → Prop
  | .flush _ => True
  | _ => False

def Thread.Returned : Thread → Prop
  | .write _ pc => pc = .returned
  | _ => True

def Thread.isReturned : Thread → Bool
  | .write _ .returned => true
  | .write _ _ => false
  | _ => true

theorem Thread.returned_of_isReturned {t : Thread} (h : t.isReturned = true) : t.Returned := by
  cases t with
  | write ops pc => cases pc <;> first | rfl | cases h
  | _ => trivial

theorem Thread.Returned.not_owes {t : Thread} (h : t.Returned) : ¬t.Owes i := by
  cases t with
  | write ops pc =>
    cases h
    exact id
  | _ => exact id

def Covered (c : Config Shared Thread) : Prop :=
  ∀ (i : Nat) op, c.shared.numbered[i]? = some op →
    (∃ m ∈ c.shared.sys.db.memtable :: c.shared.sys.db.immutableMemtables, op.entry i ∈ m.iter) ∨
      ∃ t ∈ c.threads, t.Owes i

theorem Covered.kept {s s' : Shared} {threads : List Thread} (h : Covered ⟨s, threads⟩)
    (ht : threads[j]? = some t) (hn : s'.numbered = s.numbered)
    (hm : s'.sys.db.memtable = s.sys.db.memtable)
    (himm : s'.sys.db.immutableMemtables = s.sys.db.immutableMemtables) (howes : ∀ i, t.Owes i → t'.Owes i) :
    Covered ⟨s', threads.set j t'⟩ := by
  intro i op hop
  rw [hn] at hop
  rw [hm, himm]
  refine (h i op hop).imp_right fun hx => ?_
  rcases Config.exists_set ht t' hx with hx | hx
  · exact ⟨t', Config.mem_set_self ht t', howes i hx⟩
  · exact hx

theorem Covered.step {s : Shared} {threads : List Thread} (h : Covered ⟨s, threads⟩)
    (hnum : Numbering ⟨s, threads⟩) (ht : threads[j]? = some t) (hflush : ¬t.IsFlush) (hm : s.Moves t s' t') :
    Covered ⟨s', threads.set j t'⟩ := by
  have hplaced := hnum.placed t (List.mem_of_getElem? ht)
  cases hm with
  | empty => exact h.kept ht rfl rfl rfl fun _ => id
  | @number ops =>
    intro i op hop
    by_cases hi : i < s.numbered.length
    · refine (h i op (by rwa [List.getElem?_append_left hi] at hop)).imp_right fun hx => ?_
      exact (Config.exists_set ht _ hx).resolve_left id
    · have hlt : i < (s.numbered ++ ops).length := (List.getElem?_eq_some_iff.mp hop).1
      rw [List.length_append] at hlt
      refine .inr ⟨_, Config.mem_set_self ht _, ?_⟩
      have hw : s.sys.world.writes = s.numbered.length := hnum.writes
      rw [Thread.Owes, hw]
      omega
  | log hlogs happ =>
    have hk := hlogs.writesKept
    exact h.kept ht rfl hk.memtable hk.immutableMemtables fun _ => id
  | @insert ops stamp seq op rest =>
    obtain ⟨rfl, hpre⟩ := hplaced
    have hop := getElem?_of_prefix_drop hpre
    have hmem : ∀ {e}, e ∈ (op.apply s.sys.db.memtable stamp (stamp + 1)).iter ↔
        e = op.entry stamp ∨ e ∈ s.sys.db.memtable.iter := (hnum.memtables _ List.mem_cons_self).mem_apply hop
    intro i op' hop'
    rcases h i op' hop' with ⟨m, hm, he⟩ | hx
    · -- what was in the active memtable still is
      rcases List.mem_cons.mp hm with rfl | hm
      · exact .inl ⟨_, List.mem_cons_self, hmem.mpr (.inr he)⟩
      · exact .inl ⟨m, List.mem_cons_of_mem _ hm, he⟩
    · rcases Config.exists_set ht (.write ops (.inserting (stamp + 1) (stamp + 1 + 1) rest)) hx with hx | hx
      · by_cases hi : i = stamp
        · subst hi
          change s.numbered[i]? = some op' at hop'
          rw [hop] at hop'
          cases hop'
          exact .inl ⟨_, List.mem_cons_self, hmem.mpr (.inl rfl)⟩
        · refine .inr ⟨_, Config.mem_set_self ht _, ?_⟩
          rw [Thread.Owes, List.length_cons] at hx
          rw [Thread.Owes]
          omega
      · exact .inr hx
  | inserted =>
    refine h.kept ht rfl rfl rfl fun i hi => ?_
    rw [Thread.Owes, List.length_nil] at hi
    omega
  | freeze =>
    intro i op hop
    rcases h i op hop with ⟨m, hm, he⟩ | hx
    · refine .inl ⟨m, List.mem_cons_of_mem _ (List.mem_append.mpr ?_), he⟩
      rcases List.mem_cons.mp hm with rfl | hm
      · exact .inr List.mem_cons_self
      · exact .inl hm
    · exact .inr ((Config.exists_set ht _ hx).resolve_left id)
  | read => exact h.kept ht rfl rfl rfl fun _ => id
  | snapshot => exact h.kept ht rfl rfl rfl fun _ => id
  | _ => exact absurd trivial hflush

-- ---------------------------------------------------------------------------
-- Runs
-- ---------------------------------------------------------------------------

def Thread.Starting : Thread → Prop
  | .write _ pc => pc = .start
  | .freeze returned => returned = false
  | .flush pc => pc = .start
  | .read _ pc => pc = .start
  | .snapshot pc => ∃ keys, pc = .start keys

theorem Thread.Starting.placed {t : Thread} (h : t.Starting) : t.Placed ops := by
  cases t with
  | write batch pc => cases h; trivial
  | flush pc => cases h; trivial
  | _ => trivial

theorem Sys.fresh_opened (h : Sys.fresh len o = some s) : s.Logged [] ∧ s.world.disk.OnlyLog [] ∧
    s.world.faults = [] ∧ s.world.writes = 0 ∧ ∃ vs, s.db = openedDb o [] ⟨[], []⟩ 0 1 [] vs := by
  unfold Sys.fresh at h
  split at h
  · rename_i db w hrun
    cases h
    obtain ⟨hlogged, honly, hcalm, hwrites, vs, hdb⟩ := (World.onlyLog_empty len).of_opened hrun
    exact ⟨hlogged, honly, hcalm rfl, hwrites, vs, hdb⟩
  · cases h

theorem Sys.fresh_logs (h : Sys.fresh len o = some s) (hlog : s.world.disk.logs.lookup n = some log) : log = ⟨[], []⟩ := by
  unfold Sys.fresh at h
  split at h
  · rename_i db w hrun
    cases h
    rcases ((openDb_logsKept o _).ok hrun).1.logs with hlogs | ⟨-, hlogs⟩
    · rw [hlogs] at hlog
      cases hlog
    · rw [hlogs] at hlog
      by_cases hn : n = latestWal (World.empty len).disk
      · rw [hn, AList.lookup_insert] at hlog
        exact (Option.some.inj hlog).symm
      · rw [AList.lookup_insert_ne hn] at hlog
        cases hlog
  · cases h

theorem Shared.fresh_eq {s : Shared} (h : Shared.fresh len o = some s) :
    Sys.fresh len o = some s.sys ∧ s.numbered = [] ∧ s.logged = [] := by
  obtain ⟨s0, hs0, rfl⟩ := Option.map_eq_some_iff.mp h
  exact ⟨hs0, rfl, rfl⟩

theorem Numbering.fresh {s : Shared} (h : Shared.fresh len o = some s) (hthreads : ∀ t ∈ threads, t.Starting) :
    Numbering ⟨s, threads⟩ := by
  obtain ⟨hs, hn, -⟩ := Shared.fresh_eq h
  obtain ⟨-, -, hcalm, hwrites, vs, hdb⟩ := Sys.fresh_opened hs
  refine ⟨hcalm, ?_, ?_, fun m hm => ?_, fun t ht => (hthreads t ht).placed⟩
  · rw [hwrites, hn]; rfl
  · rw [hdb, hn]; rfl
  · rw [hdb] at hm
    rw [List.mem_singleton.mp hm]
    exact MemTable.of_new

theorem Covered.fresh {s : Shared} (h : Shared.fresh len o = some s) : Covered ⟨s, threads⟩ := by
  intro i op hop
  rw [(Shared.fresh_eq h).2.1] at hop
  cases hop

structure Shared.MemtableOnly (s : Shared) : Prop where
  immutables : s.sys.db.immutableMemtables = []
  sstables : scanOrder s.sys.db.sstables = []

theorem Shared.MemtableOnly.fresh {s : Shared} (h : Shared.fresh len o = some s) : s.MemtableOnly := by
  obtain ⟨-, -, -, -, vs, hdb⟩ := Sys.fresh_opened (Shared.fresh_eq h).1
  refine ⟨by rw [hdb]; rfl, ?_⟩
  rw [hdb]
  simp [scanOrder, openedDb]

theorem Shared.MemtableOnly.get_eq {s : Shared} (h : s.MemtableOnly) (key : Bytes) (bound : Nat) :
    s.sys.db.getAtSequence s.sys.world key bound = .ok ((s.sys.db.memtable.get key bound).map Value.bytes) := by
  unfold DB.getAtSequence
  rw [h.immutables]
  simp only [List.reverse_nil, List.findSome?_cons, List.findSome?_nil]
  cases s.sys.db.memtable.get key bound with
  | some v => rfl
  | none =>
    have hflat : s.sys.db.sstables.flatMap List.reverse = [] := h.sstables
    rw [hflat]
    rfl

theorem runThreads_invariant {I : Config Shared Thread → Prop} {P : Shared → List Thread → Thread → Prop}
    (hfresh : ∀ s, Shared.fresh len o = some s → I ⟨s, threads⟩)
    (hstep : ∀ s threads i t s' t', I ⟨s, threads⟩ → Numbering ⟨s, threads⟩ → threads[i]? = some t → P s threads t →
      s.Moves t s' t' → I ⟨s', threads.set i t'⟩)
    (hthreads : ∀ t ∈ threads, t.Starting) (hP : AlongThreads P len o threads schedule)
    (h : runThreads len o threads schedule = some c) : Numbering c ∧ I c := by
  obtain ⟨s, hs, hrun⟩ := Option.bind_eq_some_iff.mp h
  refine Config.run_invariant (I := fun c => Numbering c ∧ I c) ?_ ⟨.fresh hs hthreads, hfresh s hs⟩ (hP s hs) hrun
  rintro ⟨s, threads⟩ i t s' t' ⟨hnum, hI⟩ hPt ht hnext
  have hmoves := Thread.next_moves hnum.calm hnext
  exact ⟨hnum.step ht hmoves, hstep s threads i t s' t' hI hnum ht hPt hmoves⟩

end AiDb
