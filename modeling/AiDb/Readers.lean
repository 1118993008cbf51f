import AiDb.Flushing

/-!
# Readers beside a flush

`DB::get` looks into the active memtable, the frozen ones and the tables, one lock
at a time. A version only moves in this direction, so a reader that comes too late
at one place finds it at the next, unless a flush has it in hand.
-/

namespace AiDb

open Library Compaction

variable {s s' : Shared} {threads : List Thread} {t t' : Thread} {key : Bytes} {i : Nat}

def Shared.Loaded (s : Shared) (key : Bytes) : Prop :=
  ∃ es ∈ s.sys.tables.flatten, (live (stored es key)).isSome = true

/-- Where a read comes to the tables, no flush has a version of the key in hand, or
there is a value for the key in a loaded table anyway. -/
def NotInHand (s : Shared) (threads : List Thread) : Thread → Prop
  | .read key .tables => s.Loaded key ∨ ∀ t ∈ threads, ∀ m ∈ t.inHand, ∀ e ∈ m.iter, e.1.userKey ≠ key
  | _ => True

instance (s : Shared) (threads : List Thread) (t : Thread) : Decidable (NotInHand s threads t) := by
  unfold NotInHand Shared.Loaded
  split <;> infer_instance

def WriteOp.Keeps (key : Bytes) (op : WriteOp) : Prop := op.key = key → ∃ value, op = .put key value ∧ value ≠ []

def Thread.Keeps (key : Bytes) : Thread → Prop
  | .write ops _ => ∀ op ∈ ops, op.Keeps key
  | _ => True

def Thread.Inserted (key : Bytes) (s : Shared) (threads : List Thread) : Thread → Prop
  | .write ops (.inserting _ _ rest) => ∀ op ∈ ops, op.key = key → op ∈ rest ∨
      ∃ j : Nat, s.numbered[j]? = some op ∧ Stored (·.Loaded key) (op.entry j) s threads
  | .write ops .returned => ∀ op ∈ ops, op.key = key →
      ∃ j : Nat, s.numbered[j]? = some op ∧ Stored (·.Loaded key) (op.entry j) s threads
  | _ => True

structure Keeping (key : Bytes) (c : Config Shared Thread) : Prop where
  serving : c.shared.sys.Serving
  levels : c.shared.sys.tables ≠ []
  numbered : ∀ op ∈ c.shared.numbered, op.Keeps key
  threads : ∀ t ∈ c.threads, t.Keeps key
  inserted : ∀ t ∈ c.threads, t.Inserted key c.shared c.threads

theorem loaded_mono (hm : s.Moves t s' t') (hs : s.sys.Serving) (h : s.Loaded key) : s'.Loaded key := by
  obtain ⟨es, hes, hlive⟩ := h
  exact ⟨es, hm.tables_subset hs es hes, hlive⟩

theorem loaded_of_flush {ops : List WriteOp} {s s' : Sys} (hs : s.Serving) (hl : s.tables ≠ [])
    (hr : flushMemtableToSstable m s = .ok n s') (hof : m.Of ops) (hops : ∀ op ∈ ops, op.Keeps key)
    (he : e ∈ m.iter) (hkey : e.1.userKey = key) : ∃ es ∈ s'.tables.flatten, (live (stored es key)).isSome = true := by
  have hstored : (live (stored m.table key)).isSome = true := by
    rw [m.stored_table, MemTable.version]
    cases hnew : m.newest key ⊤ with
    | none => exact absurd le_top (MemTable.newest_eq_none.mp hnew e he hkey)
    | some x =>
      obtain ⟨hx, ⟨hxk, -⟩, -⟩ := MemTable.newest_eq_some.mp hnew
      obtain ⟨i, op, hop, rfl⟩ := hof x hx
      obtain ⟨value, rfl, hne⟩ := hops op (List.mem_of_getElem? hop) hxk
      simp [WriteOp.entry, WriteOp.version, hne]
  have hne : m.table ≠ [] := by
    intro hnil
    rw [hnil] at hstored
    simp [stored] at hstored
  refine ⟨m.table, ?_, hstored⟩
  rw [(flushMemtableToSstable_serving m hs hr).2.1, if_neg hne]
  obtain ⟨l, ls, hls⟩ := List.exists_cons_of_ne_nil hl
  rw [hls]
  exact List.mem_cons_self

theorem Keeping.arrive {t : Thread} (h : Keeping key ⟨s, threads⟩) (hnum : Numbering ⟨s, threads⟩)
    (ht : threads[i]? = some t) (hkey : e.1.userKey = key) :
    ∀ m n, t = .flush (.writing m) → flushMemtableToSstable m s.sys = .ok n s'.sys → e ∈ m.iter → s'.Loaded key := by
  rintro m n rfl hr he
  have hof : m.Of s.numbered := hnum.placed _ (List.mem_of_getElem? ht)
  exact loaded_of_flush h.serving h.levels hr hof h.numbered he hkey

theorem Keeping.step (h : Keeping key ⟨s, threads⟩) (hnum : Numbering ⟨s, threads⟩) (ht : threads[i]? = some t)
    (hm : s.Moves t s' t') : Keeping key ⟨s', threads.set i t'⟩ := by
  have hkeeps := h.threads t (List.mem_of_getElem? ht)
  have hins := h.inserted t (List.mem_of_getElem? ht)
  -- what is stored stays stored
  have hstored : ∀ op : WriteOp, op.key = key → (∃ j : Nat, s.numbered[j]? = some op ∧
      Stored (·.Loaded key) (op.entry j) s threads) →
      ∃ j : Nat, s'.numbered[j]? = some op ∧ Stored (·.Loaded key) (op.entry j) s' (threads.set i t') := by
    rintro op hkey ⟨j, hj, hst⟩
    obtain ⟨more, hmore⟩ := hm.numbered_append
    refine ⟨j, by rw [hmore]; exact getElem?_append_some hj more, ?_⟩
    exact hst.step hnum hm ht (loaded_mono hm h.serving) (h.arrive hnum ht hkey)
  have hothers : ∀ x ∈ threads, x.Inserted key s' (threads.set i t') := by
    intro x hx
    have hx := h.inserted x hx
    cases x with
    | write ops pc =>
      cases pc with
      | inserting stamp seq rest => exact fun op hop hkey => (hx op hop hkey).imp_right (hstored op hkey)
      | returned => exact fun op hop hkey => hstored op hkey (hx op hop hkey)
      | _ => trivial
    | _ => trivial
  refine ⟨hm.serving h.serving, ?_, ?_, Config.forall_set h.threads ?_, Config.forall_set hothers ?_⟩
  · have hlevels : s.sys.tables ≠ [] := h.levels
    by_cases hw : ∃ m, t = .flush (.writing m)
    · obtain ⟨m, rfl⟩ := hw
      obtain ⟨l, ls, hls⟩ := List.exists_cons_of_ne_nil hlevels
      cases hm with
      | install hr =>
        show Sys.tables _ ≠ []
        rw [(flushMemtableToSstable_serving m h.serving hr).2.1, hls]
        split <;> exact List.cons_ne_nil _ _
      | notInstalled hr =>
        show Sys.tables _ ≠ []
        rw [(flushMemtableToSstable_serving_error m h.serving hr).2]
        exact hlevels
    · show s'.sys.tables ≠ []
      rw [(hm.tablesKept fun m heq => hw ⟨m, heq⟩).tables_eq]
      exact hlevels
  · cases hm with
    | number =>
      intro op hop
      rcases List.mem_append.mp hop with hop | hop
      · exact h.numbered op hop
      · exact hkeeps op hop
    | _ => exact h.numbered
  · cases hm <;> exact hkeeps
  · cases hm with
    | empty => exact fun op hop => (nomatch hop)
    | log => exact fun op hop _ => .inl hop
    | @insert ops stamp seq op rest =>
      obtain ⟨rfl, hpre⟩ := hnum.placed _ (List.mem_of_getElem? ht)
      have hop := getElem?_of_prefix_drop hpre
      intro x hx hkey
      rcases hins x hx hkey with hin | hin
      · rcases List.mem_cons.mp hin with rfl | hin
        · refine .inr ⟨stamp, hop, .inl ?_⟩
          exact ((hnum.memtables _ List.mem_cons_self).mem_apply hop).mpr (.inl rfl)
        · exact .inl hin
      · exact .inr (hstored x hkey hin)
    | inserted =>
      intro x hx hkey
      exact hstored x hkey ((hins x hx hkey).resolve_left (by simp))
    | _ => trivial

/-- A read of the key that can still find it, at every place it may have come to. -/
def ReadPc.Finds (key : Bytes) (s : Shared) (threads : List Thread) : ReadPc → Prop
  | .start => ∃ (j : Nat) (op : WriteOp), s.numbered[j]? = some op ∧ op.key = key ∧
      Stored (·.Loaded key) (op.entry j) s threads
  | .memtable maxSeq => ∃ (j : Nat) (op : WriteOp), s.numbered[j]? = some op ∧ op.key = key ∧ j < maxSeq ∧
      Stored (·.Loaded key) (op.entry j) s threads
  | .immutables maxSeq => ∃ (j : Nat) (op : WriteOp), s.numbered[j]? = some op ∧ op.key = key ∧ j < maxSeq ∧
      Frozen (·.Loaded key) (op.entry j) s threads
  | .tables => ∃ (j : Nat) (op : WriteOp), s.numbered[j]? = some op ∧ op.key = key ∧
      Late (·.Loaded key) (op.entry j) s threads
  | .returned r => r ≠ .ok none

theorem ReadPc.Finds.step {pc : ReadPc} (h : pc.Finds key s threads) (hk : Keeping key ⟨s, threads⟩)
    (hnum : Numbering ⟨s, threads⟩) (ht : threads[i]? = some t) (hm : s.Moves t s' t') :
    pc.Finds key s' (threads.set i t') := by
  obtain ⟨more, hmore⟩ := hm.numbered_append
  have hmono : s.Loaded key → s'.Loaded key := loaded_mono hm hk.serving
  cases pc with
  | start =>
    obtain ⟨j, op, hop, hkey, hst⟩ := h
    exact ⟨j, op, by rw [hmore]; exact getElem?_append_some hop more, hkey,
      hst.step hnum hm ht hmono (hk.arrive hnum ht hkey)⟩
  | memtable maxSeq =>
    obtain ⟨j, op, hop, hkey, hlt, hst⟩ := h
    exact ⟨j, op, by rw [hmore]; exact getElem?_append_some hop more, hkey, hlt,
      hst.step hnum hm ht hmono (hk.arrive hnum ht hkey)⟩
  | immutables maxSeq =>
    obtain ⟨j, op, hop, hkey, hlt, hst⟩ := h
    exact ⟨j, op, by rw [hmore]; exact getElem?_append_some hop more, hkey, hlt,
      hst.step hm ht hmono (hk.arrive hnum ht hkey)⟩
  | tables =>
    obtain ⟨j, op, hop, hkey, hst⟩ := h
    exact ⟨j, op, by rw [hmore]; exact getElem?_append_some hop more, hkey,
      hst.step hm ht hmono (hk.arrive hnum ht hkey)⟩
  | returned r => exact h

theorem MemTable.Of.get_isSome {m : MemTable} {ops : List WriteOp} {op : WriteOp} (h : m.Of ops) (hops : ∀ op ∈ ops, op.Keeps key)
    (he : op.entry j ∈ m.iter) (hkey : op.key = key) (hlt : j < maxSeq) : (m.get key (maxSeq : ℕ)).isSome = true := by
  have hseq : (op.entry j).1.sequence ≤ ((maxSeq : ℕ) : Sequence) := by
    show ((j + 1 : ℕ) : Sequence) ≤ (maxSeq : ℕ)
    exact_mod_cast hlt
  rw [MemTable.get_eq]
  cases hnew : m.newest key (maxSeq : ℕ) with
  | none => exact absurd hseq (MemTable.newest_eq_none.mp hnew _ he hkey)
  | some x =>
    obtain ⟨hx, ⟨hxk, -⟩, -⟩ := MemTable.newest_eq_some.mp hnew
    obtain ⟨i, op', hop', rfl⟩ := h x hx
    obtain ⟨value, rfl, -⟩ := hops op' (List.mem_of_getElem? hop') hxk
    rfl

theorem ReadPc.Finds.next {pc pc' : ReadPc} (h : pc.Finds key s threads) (hk : Keeping key ⟨s, threads⟩)
    (hnum : Numbering ⟨s, threads⟩) (hP : NotInHand s threads (.read key pc)) (hn : pc.next s.sys key = some pc') :
    pc'.Finds key s threads := by
  have hof := hnum.memtables
  cases pc with
  | start =>
    cases hn
    obtain ⟨j, op, hop, hkey, hst⟩ := h
    have hseq : s.sys.db.sequence = s.numbered.length := hnum.sequence
    exact ⟨j, op, hop, hkey, by rw [hseq]; exact (List.getElem?_eq_some_iff.mp hop).1, hst⟩
  | memtable maxSeq =>
    obtain ⟨j, op, hop, hkey, hlt, hst⟩ := h
    rw [ReadPc.next] at hn
    cases hget : s.sys.db.memtable.get key maxSeq with
    | some v =>
      rw [hget] at hn
      cases hn
      exact nofun
    | none =>
      rw [hget] at hn
      cases hn
      refine ⟨j, op, hop, hkey, hlt, hst.resolve_left fun he => ?_⟩
      have := (hof _ List.mem_cons_self).get_isSome hk.numbered he hkey hlt
      rw [hget] at this
      cases this
  | immutables maxSeq =>
    obtain ⟨j, op, hop, hkey, hlt, hst⟩ := h
    rw [ReadPc.next] at hn
    cases hget : s.sys.db.immutableMemtables.reverse.findSome? (·.get key maxSeq) with
    | some v =>
      rw [hget] at hn
      cases hn
      exact nofun
    | none =>
      rw [hget] at hn
      cases hn
      refine ⟨j, op, hop, hkey, hst.resolve_left ?_⟩
      rintro ⟨m, hm, he⟩
      have hnone := List.findSome?_eq_none_iff.mp hget m (List.mem_reverse.mpr hm)
      have := (hof m (List.mem_cons_of_mem _ hm)).get_isSome hk.numbered he hkey hlt
      rw [hnone] at this
      cases this
  | tables =>
    obtain ⟨j, op, hop, hkey, hst⟩ := h
    -- nothing is in hand, so the version has arrived
    have hloaded : s.Loaded key := by
      rcases hst with ⟨t, ht, m, hm, he⟩ | hT
      · exact hP.resolve_right fun hno => hno t ht m hm _ he hkey
      · exact hT
    cases hn
    rw [hk.serving.firstAnswer_eq]
    obtain ⟨es, hes, hlive⟩ := hloaded
    intro hnone
    have hfind : (scanOrder s.sys.tables).findSome? (fun es => live (stored es key)) = none := by
      cases hf : (scanOrder s.sys.tables).findSome? (fun es => live (stored es key)) with
      | none => rfl
      | some v => rw [hf] at hnone; cases hnone
    have hmem : es ∈ scanOrder s.sys.tables := by simpa [scanOrder, List.mem_flatten] using hes
    rw [List.findSome?_eq_none_iff.mp hfind es hmem] at hlive
    cases hlive
  | returned r => cases hn

theorem Keeping.fresh (hs : Shared.fresh len o = some s) (hstart : ∀ t ∈ threads, t.Starting)
    (hkeeps : ∀ t ∈ threads, t.Keeps key) : Keeping key ⟨s, threads⟩ := by
  obtain ⟨hfresh, hn, -⟩ := Shared.fresh_eq hs
  obtain ⟨hsound, -, htables, -, -⟩ := Sys.fresh_sound hfresh
  refine ⟨hsound.serving, by rw [htables]; exact List.cons_ne_nil _ _, by simp [hn], hkeeps, fun t ht => ?_⟩
  have := hstart t ht
  cases t with
  | write ops pc => cases this; trivial
  | _ => trivial

/-- A read that begins when a put of the key has returned, while nothing deletes the
key: as long as it comes to the tables when no flush has a version of the key in
hand, it does not end with `None`. -/
theorem read_finds_of_notInHand (len : CompressedLen) (o : Options) (threads : List Thread) (before after : List Nat)
    (c1 c2 : Config Shared Thread) (key : Bytes) (i : Nat) (r : Except Error (Option Bytes))
    (hstart : ∀ t ∈ threads, t.Starting) (hkeeps : ∀ t ∈ threads, t.Keeps key)
    (hrun : runThreads len o threads before = some c1) (hread : c1.threads[i]? = some (.read key .start))
    (hput : ∃ ops value, .write ops .returned ∈ c1.threads ∧ .put key value ∈ ops)
    (halong : c1.Along Thread.next NotInHand after) (hrun' : c1.run Thread.next after = some c2)
    (hret : c2.threads[i]? = some (.read key (.returned r))) : r ≠ .ok none := by
  obtain ⟨hnum1, hk1⟩ : Numbering c1 ∧ Keeping key c1 :=
    runThreads_invariant (I := Keeping key) (fun s hs => .fresh hs hstart hkeeps)
      (fun _ _ _ _ _ _ hk hnum ht _ hm => hk.step hnum ht hm) hstart alongThreads_true hrun
  have hfinds : ReadPc.Finds key c1.shared c1.threads .start := by
    obtain ⟨ops, value, hw, hp⟩ := hput
    obtain ⟨j, hj, hst⟩ := hk1.inserted _ hw _ hp rfl
    exact ⟨j, _, hj, rfl, hst⟩
  obtain ⟨-, -, pc, hpc, hlast⟩ : Numbering c2 ∧ Keeping key c2 ∧
      ∃ pc, c2.threads[i]? = some (.read key pc) ∧ pc.Finds key c2.shared c2.threads := by
    refine Config.run_invariant (I := fun c => Numbering c ∧ Keeping key c ∧
      ∃ pc, c.threads[i]? = some (.read key pc) ∧ pc.Finds key c.shared c.threads) ?_
      ⟨hnum1, hk1, .start, hread, hfinds⟩ halong hrun'
    rintro ⟨s, threads⟩ j t s' t' ⟨hnum, hk, pc, hpc, hf⟩ hP ht hnext
    have hm := Thread.next_moves hnum.calm hnext
    refine ⟨hnum.step ht hm, hk.step hnum ht hm, ?_⟩
    by_cases hij : j = i
    · -- it is the turn of the read
      subst hij
      change threads[j]? = some t at ht
      change threads[j]? = some (.read key pc) at hpc
      obtain rfl : t = .read key pc := by rw [hpc] at ht; exact (Option.some.inj ht).symm
      cases hm with
      | @read _ _ pc' hn =>
        refine ⟨pc', ?_, (hf.next hk hnum hP hn).step hk hnum ht (.read hn)⟩
        rw [List.getElem?_set_self (List.getElem?_eq_some_iff.mp ht).1]
    · exact ⟨pc, by rw [List.getElem?_set_ne hij]; exact hpc, hf.step hk hnum ht hm⟩
  rw [hret] at hpc
  cases hpc
  exact hlast

def Thread.startsRead : Thread → Option Bytes
  | .read key .start => some key
  | _ => none

def Thread.readResult : Thread → Option (Bytes × Except Error (Option Bytes))
  | .read key (.returned r) => some (key, r)
  | _ => none

def Thread.returnedOps : Thread → Option (List WriteOp)
  | .write ops .returned => some ops
  | _ => none

theorem Thread.eq_of_startsRead (h : t.startsRead = some key) : t = .read key .start := by
  unfold Thread.startsRead at h
  split at h <;> cases h
  rfl

theorem Thread.eq_of_readResult (h : t.readResult = some (key, r)) : t = .read key (.returned r) := by
  unfold Thread.readResult at h
  split at h <;> cases h
  rfl

theorem Thread.eq_of_returnedOps (h : t.returnedOps = some ops) : t = .write ops .returned := by
  unfold Thread.returnedOps at h
  split at h <;> cases h
  rfl

def putFlushRead : Option (Config Shared Thread) :=
  runThreads .unused .plain [.write [.put [97] [1]] .start, .flush .start, .read [97] .start] [0, 0, 0, 0]

theorem putFlushRead_eq : ∃ c1, putFlushRead = some c1 ∧ c1.threads[2]? = some (.read [97] .start) ∧
    .write [.put [97] [1]] .returned ∈ c1.threads := by
  have hcheck : putFlushRead.map (fun c => (c.threads[2]?.bind Thread.startsRead,
      c.threads[0]?.bind Thread.returnedOps)) = some (some [97], some [.put [97] [1]]) := by decide +kernel
  obtain ⟨c1, hc1, heq⟩ := Option.map_eq_some_iff.mp hcheck
  obtain ⟨hread, hwrite⟩ := by simpa only [Prod.mk.injEq] using heq
  obtain ⟨t, ht, hread⟩ := Option.bind_eq_some_iff.mp hread
  obtain ⟨t', ht', hwrite⟩ := Option.bind_eq_some_iff.mp hwrite
  refine ⟨c1, hc1, by rw [ht, Thread.eq_of_startsRead hread], ?_⟩
  rw [← Thread.eq_of_returnedOps hwrite]
  exact List.mem_of_getElem? ht'

theorem read_finds_installed : ∃ c1 c2, putFlushRead = some c1 ∧
    c1.run Thread.next [1, 1, 1, 2, 2, 2, 1, 2] = some c2 ∧ c1.Along Thread.next NotInHand [1, 1, 1, 2, 2, 2, 1, 2] ∧
    c2.threads[2]? = some (.read [97] (.returned (.ok (some [1])))) ∧
    (Except.ok (some [1]) : Except Error (Option Bytes)) ≠ .ok none := by
  obtain ⟨c1, hc1, hread, hwrite⟩ := putFlushRead_eq
  have hend : (putFlushRead.bind fun c => (c.run Thread.next [1, 1, 1, 2, 2, 2, 1, 2]).map
      fun c => c.threads[2]?.bind Thread.readResult) = some (some ([97], .ok (some [1]))) := by decide +kernel
  have hcond : putFlushRead.all (fun c => c.checkAlong Thread.next NotInHand [1, 1, 1, 2, 2, 2, 1, 2]) = true := by
    decide +kernel
  rw [hc1] at hend hcond
  obtain ⟨c2, hc2, hres⟩ := Option.map_eq_some_iff.mp hend
  obtain ⟨t, ht, hres⟩ := Option.bind_eq_some_iff.mp hres
  rw [Thread.eq_of_readResult hres] at ht
  have halong : c1.Along Thread.next NotInHand [1, 1, 1, 2, 2, 2, 1, 2] := Config.along_of_check hcond
  refine ⟨c1, c2, hc1, hc2, halong, ht, ?_⟩
  refine read_finds_of_notInHand .unused .plain _ _ _ c1 c2 [97] 2 _ ?_ ?_ hc1 hread
    ⟨_, [1], hwrite, List.mem_cons_self⟩ halong hc2 ht
  · simp [Thread.Starting]
  · simp [Thread.Keeps, WriteOp.Keeps, WriteOp.key]

/-- The read comes to the tables while the flush has the memtable in hand. -/
theorem read_misses_in_hand : ∃ c1 c2, putFlushRead = some c1 ∧ c1.threads[2]? = some (.read [97] .start) ∧
    .write [.put [97] [1]] .returned ∈ c1.threads ∧ c1.run Thread.next [1, 1, 1, 2, 2, 2, 2] = some c2 ∧
    c2.threads[2]? = some (.read [97] (.returned (.ok none))) := by
  obtain ⟨c1, hc1, hread, hwrite⟩ := putFlushRead_eq
  have hend : (putFlushRead.bind fun c => (c.run Thread.next [1, 1, 1, 2, 2, 2, 2]).map
      fun c => c.threads[2]?.bind Thread.readResult) = some (some ([97], .ok none)) := by decide +kernel
  rw [hc1] at hend
  obtain ⟨c2, hc2, hres⟩ := Option.map_eq_some_iff.mp hend
  obtain ⟨t, ht, hres⟩ := Option.bind_eq_some_iff.mp hres
  rw [Thread.eq_of_readResult hres] at ht
  exact ⟨c1, c2, hc1, hread, hwrite, hc2, ht⟩

end AiDb
