import AiDb.Reached

/-!
# The memtable as a multi-version map

Calls on a memtable may come in any order of their sequence numbers. As long as the
numbers are apart, the memtable holds every call as an entry of its own, and a
lookup finds the last call on the key up to its bound. A table keeps the newest
version of each key, and has no types: an empty value in it is a tombstone.
-/

namespace AiDb

open Library

structure MemCall where
  op : WriteOp
  sequence : Nat
  stamp : Nat

namespace MemCall

def entry (c : MemCall) : InternalKey × Value :=
  (⟨c.op.key, c.sequence, (c.op.version c.stamp).1⟩, (c.op.version c.stamp).2)

@[simp] theorem entry_userKey (c : MemCall) : c.entry.1.userKey = c.op.key := rfl

@[simp] theorem entry_sequence (c : MemCall) : c.entry.1.sequence = c.sequence := rfl

theorem data_apply (c : MemCall) (m : MemTable) :
    (c.op.apply m c.stamp c.sequence).data = m.data.insert c.entry.1 c.entry.2 := by
  cases h : c.op <;> simp [WriteOp.apply, MemTable.put, MemTable.delete, entry, WriteOp.version, WriteOp.key, h]

end MemCall

def MemTable.ofCalls (start : Nat) (calls : List MemCall) : MemTable :=
  calls.foldl (fun m c => c.op.apply m c.stamp c.sequence) (MemTable.new start)

variable {calls : List MemCall}

theorem MemTable.ofCalls_append : MemTable.ofCalls start (calls ++ [c]) =
    c.op.apply (MemTable.ofCalls start calls) c.stamp c.sequence := by
  simp [MemTable.ofCalls]

theorem MemTable.mem_ofCalls (hseq : (calls.map MemCall.sequence).Nodup) :
    e ∈ (MemTable.ofCalls start calls).iter ↔ e ∈ calls.map MemCall.entry := by
  induction calls using List.reverseRecOn generalizing e with
  | nil => simp [MemTable.ofCalls, MemTable.new, MemTable.iter]
  | append_singleton calls c ih =>
    rw [List.map_append, List.nodup_append] at hseq
    obtain ⟨hcalls, -, hnew⟩ := hseq
    have hiter : (MemTable.ofCalls start (calls ++ [c])).iter =
        ((MemTable.ofCalls start calls).data.insert c.entry.1 c.entry.2).entries := by
      rw [MemTable.ofCalls_append, MemTable.iter, c.data_apply]
    -- the number of the new call is its own, so nothing is replaced
    have hapart : e ∈ calls.map MemCall.entry → e.1 ≠ c.entry.1 := by
      intro he heq
      obtain ⟨c', hc', rfl⟩ := List.mem_map.mp he
      have hs : (c'.sequence : Sequence) = c.sequence := congrArg InternalKey.sequence heq
      exact hnew c'.sequence (List.mem_map_of_mem hc') c.sequence (by simp) (by exact_mod_cast hs)
    rw [hiter, SkipMap.mem_insert]
    simp only [List.map_append, List.map_cons, List.map_nil, List.mem_append, List.mem_singleton]
    rw [← ih hcalls]
    constructor
    · rintro (rfl | ⟨he, -⟩)
      · exact .inr rfl
      · exact .inl he
    · rintro (he | rfl)
      · exact .inr ⟨he, hapart ((ih hcalls).mp he)⟩
      · exact .inl rfl

theorem MemTable.iter_nodup (m : MemTable) : m.iter.Nodup := by
  refine List.Pairwise.imp ?_ m.data.ordered
  rintro a _ h rfl
  exact lt_irrefl _ h

theorem MemCall.entries_nodup (hseq : (calls.map MemCall.sequence).Nodup) : (calls.map MemCall.entry).Nodup := by
  refine List.Nodup.of_map (fun e => e.1.sequence) ?_
  have hmap : (calls.map MemCall.entry).map (fun e => e.1.sequence) =
      (calls.map MemCall.sequence).map (fun n : Nat => (n : Sequence)) := by simp
  rw [hmap]
  exact hseq.map WithTop.coe_injective

/-- The calls on the key up to the bound, and of them the one with the greatest number. -/
structure MemCall.Last (calls : List MemCall) (key : Bytes) (bound : Sequence) (c : MemCall) : Prop where
  mem : c ∈ calls
  key_eq : c.op.key = key
  le : (c.sequence : Sequence) ≤ bound
  greatest : ∀ c' ∈ calls, c'.op.key = key → (c'.sequence : Sequence) ≤ bound → c'.sequence ≤ c.sequence

theorem MemCall.Last.unique (hseq : (calls.map MemCall.sequence).Nodup) (h : MemCall.Last calls key bound c)
    (h' : MemCall.Last calls key bound c') : c = c' := by
  have hs : c.sequence = c'.sequence :=
    le_antisymm (h'.greatest c h.mem h.key_eq h.le) (h.greatest c' h'.mem h'.key_eq h'.le)
  exact List.inj_on_of_nodup_map hseq h.mem h'.mem hs

theorem MemTable.newest_ofCalls (hseq : (calls.map MemCall.sequence).Nodup) :
    (MemTable.ofCalls start calls).newest key bound = some e ↔
      ∃ c, MemCall.Last calls key bound c ∧ c.entry = e := by
  rw [MemTable.newest_eq_some]
  simp only [MemTable.mem_ofCalls hseq]
  constructor
  · rintro ⟨hmem, ⟨hk, hs⟩, hleast⟩
    obtain ⟨c, hc, rfl⟩ := List.mem_map.mp hmem
    refine ⟨c, ⟨hc, hk, hs, fun c' hc' hk' hs' => ?_⟩, rfl⟩
    have hle := hleast c'.entry (List.mem_map_of_mem hc') hk' hs'
    rw [← not_lt, InternalKey.lt_iff] at hle
    by_contra hlt
    refine hle (.inr ⟨hk'.trans hk.symm, .inl ?_⟩)
    simpa using hlt
  · rintro ⟨c, hc, rfl⟩
    refine ⟨List.mem_map_of_mem hc.mem, ⟨hc.key_eq, hc.le⟩, fun x hx hk hs => ?_⟩
    obtain ⟨c', hc', rfl⟩ := List.mem_map.mp hx
    have hle := hc.greatest c' hc' hk hs
    rcases eq_or_lt_of_le hle with heq | hlt
    · rw [List.inj_on_of_nodup_map hseq hc' hc.mem heq]
    · refine le_of_lt ((InternalKey.lt_iff _ _).mpr (.inr ⟨hc.key_eq.trans hk.symm, .inl ?_⟩))
      simpa using hlt

theorem MemTable.get_ofCalls (hseq : (calls.map MemCall.sequence).Nodup) :
    (MemTable.ofCalls start calls).get key bound = some v ↔
      ∃ c, MemCall.Last calls key bound c ∧ c.op = .put key v.bytes ∧ c.stamp = v.stamp := by
  have hput : ∀ c : MemCall, c.op.key = key →
      (c.entry.1.valueType = .value ∧ c.entry.2 = v ↔ c.op = .put key v.bytes ∧ c.stamp = v.stamp) := by
    intro c hk
    obtain ⟨bytes, stamp⟩ := v
    cases h : c.op with
    | put k b =>
      simp only [h, WriteOp.key] at hk
      simp [MemCall.entry, WriteOp.version, h, hk]
    | delete k => simp [MemCall.entry, WriteOp.version, h]
  have hget : (MemTable.ofCalls start calls).get key bound = some v ↔
      ∃ e, (MemTable.ofCalls start calls).newest key bound = some e ∧ e.1.valueType = .value ∧ e.2 = v := by
    rw [MemTable.get_eq]
    rcases (MemTable.ofCalls start calls).newest key bound with _ | ⟨⟨u, sq, _ | _⟩, v'⟩ <;> simp
  rw [hget]
  simp only [MemTable.newest_ofCalls hseq]
  constructor
  · rintro ⟨_, ⟨c, hc, rfl⟩, hv⟩
    exact ⟨c, hc, (hput c hc.key_eq).mp hv⟩
  · rintro ⟨c, hc, hv⟩
    exact ⟨c.entry, ⟨c, hc, rfl⟩, (hput c hc.key_eq).mpr hv⟩

/-- Lookups at any bound, and the order of iteration, whatever the order of the calls. -/
theorem memtable_multiVersion (start : Nat) (calls : List MemCall) (hseq : (calls.map MemCall.sequence).Nodup) :
    (∀ (key : Bytes) (bound : Sequence) (value : Bytes),
      ((MemTable.ofCalls start calls).get key bound).map Value.bytes = some value ↔
        ∃ c, MemCall.Last calls key bound c ∧ c.op = .put key value) ∧
    (MemTable.ofCalls start calls).iter.Perm (calls.map MemCall.entry) ∧
    (MemTable.ofCalls start calls).iter.Pairwise fun a b =>
      a.1.userKey < b.1.userKey ∨ a.1.userKey = b.1.userKey ∧ b.1.sequence < a.1.sequence := by
  have hperm : (MemTable.ofCalls start calls).iter.Perm (calls.map MemCall.entry) :=
    (List.perm_ext_iff_of_nodup (MemTable.iter_nodup _) (MemCall.entries_nodup hseq)).mpr
      fun _ => MemTable.mem_ofCalls hseq
  refine ⟨fun key bound value => ?_, hperm, ?_⟩
  · simp only [Option.map_eq_some_iff, MemTable.get_ofCalls hseq]
    constructor
    · rintro ⟨v, ⟨c, hc, hop, -⟩, rfl⟩
      exact ⟨c, hc, hop⟩
    · rintro ⟨c, hc, hop⟩
      exact ⟨⟨value, c.stamp⟩, ⟨c, hc, hop, rfl⟩, rfl⟩
  · have hapart : (MemTable.ofCalls start calls).iter.Pairwise fun a b => a.1.sequence ≠ b.1.sequence := by
      have hnodup : ((calls.map MemCall.entry).map fun e => e.1.sequence).Nodup := by
        simpa [Function.comp_def] using hseq.map (WithTop.coe_injective (α := ℕ))
      exact List.pairwise_map.mp ((hperm.map _).nodup_iff.mpr hnodup)
    refine ((MemTable.ofCalls start calls).data.ordered.and hapart).imp ?_
    rintro a b ⟨hlt, hne⟩
    rcases (InternalKey.lt_iff a.1 b.1).mp hlt with h | ⟨hk, h | ⟨heq, -⟩⟩
    · exact .inl h
    · exact .inr ⟨hk, h⟩
    · exact absurd heq.symm hne

/-- Two keys, one the other with a zero byte behind it; the deletion comes before the
put it follows in time. -/
def zeroExtended : List MemCall :=
  [⟨.delete [97], 5, 1⟩, ⟨.put [97, 0] [2], 4, 2⟩, ⟨.put [97] [3], 2, 3⟩]

theorem memtable_multiVersion_zeroExtended : (zeroExtended.map MemCall.sequence).Nodup ∧
    ((MemTable.ofCalls 1 zeroExtended).get [97] (4 : ℕ)).map Value.bytes = some [3] ∧
    (MemTable.ofCalls 1 zeroExtended).iter.Perm (zeroExtended.map MemCall.entry) := by
  have hseq : (zeroExtended.map MemCall.sequence).Nodup := by decide
  obtain ⟨hget, hiter, -⟩ := memtable_multiVersion 1 zeroExtended hseq
  refine ⟨hseq, (hget [97] (4 : ℕ) [3]).mpr ⟨⟨.put [97] [3], 2, 3⟩, ⟨by simp [zeroExtended], rfl, ?_, ?_⟩, rfl⟩, hiter⟩
  · exact WithTop.coe_le_coe.mpr (by decide)
  · intro c hc hk hs
    simp only [zeroExtended, List.mem_cons, List.not_mem_nil, or_false] at hc
    rcases hc with rfl | rfl | rfl
    · exact absurd (WithTop.coe_le_coe.mp hs) (by decide)
    · exact absurd hk (by decide)
    · exact le_refl _

-- ---------------------------------------------------------------------------
-- Its table
-- ---------------------------------------------------------------------------

theorem MemTable.deletion_ofCalls (hseq : (calls.map MemCall.sequence).Nodup) (he : e ∈ (MemTable.ofCalls start calls).iter)
    (ht : e.1.valueType = .deletion) : e.2.bytes = [] := by
  rw [MemTable.mem_ofCalls hseq] at he
  obtain ⟨c, -, rfl⟩ := List.mem_map.mp he
  cases h : c.op with
  | put k v => simp [MemCall.entry, WriteOp.version, h] at ht
  | delete k => simp [MemCall.entry, WriteOp.version, h]

theorem MemTable.live_table {m : MemTable} (hdel : ∀ e ∈ m.iter, e.1.valueType = .deletion → e.2.bytes = []) :
    live (stored m.table key) = live (m.get key ⊤) := by
  rw [m.stored_table, MemTable.version, MemTable.get_eq]
  cases hn : m.newest key ⊤ with
  | none => rfl
  | some e =>
    obtain ⟨⟨u, sq, t⟩, v⟩ := e
    cases t with
    | value => rfl
    | deletion =>
      have hbytes : v.bytes = [] := hdel _ (MemTable.newest_eq_some.mp hn).1 rfl
      simp [hbytes]

variable {s : Sys}

theorem flushMemtableToSstable_answers {m : MemTable} (hsane : s.world.disk.Sane) (hcalm : s.world.faults = [])
    (hread : ∀ file off, s.world.unreadable file off = false) (hkeys : ∀ e ∈ m.iter, e.1.userKey ≠ [])
    (hdel : ∀ e ∈ m.iter, e.1.valueType = .deletion → e.2.bytes = []) (hne : m.isEmpty = false) :
    ∃ n s' r, flushMemtableToSstable m s = .ok n s' ∧ s'.db.sstables = s.db.sstables.modify 0 (r :: ·) ∧
      ∀ key, r.get (s'.world.readBlock r.file) key = .ok (live (m.get key ⊤)) := by
  have hasc := MemTable.table_ascending hkeys
  have htable : m.table ≠ [] := by simp [MemTable.table_eq_nil, hne]
  have hrun := flushMemtableToSstable_calm hsane hcalm hasc
  cases hr : flushMemtableToSstable m s with
  | error e s' => exact (hrun.error hr).elim
  | ok n s' =>
    rcases (flushMemtableToSstable_spec m s).ok hr with ⟨hnil, -⟩ | ⟨-, f, r, hwf, hentries, hdb, hat, ho⟩
    · exact absurd hnil htable
    · have hserves : s'.world.disk.Serves r f := ho.serves hwf (by rw [hat.disk_eq])
      have hread' : ∀ file off, s'.world.unreadable file off = false := by
        rw [hat.unreadable_eq]
        exact hread
      refine ⟨n, s', r, rfl, by rw [hdb]; rfl, fun key => ?_⟩
      rw [World.get_served hserves hread' key, hserves.entriesOf_eq, hentries, MemTable.live_table hdel]

theorem MemTable.keys_ofCalls (hseq : (calls.map MemCall.sequence).Nodup) (hkeys : ∀ c ∈ calls, c.op.key ≠ []) :
    ∀ e ∈ (MemTable.ofCalls start calls).iter, e.1.userKey ≠ [] := by
  intro e he
  obtain ⟨c, hc, rfl⟩ := List.mem_map.mp ((MemTable.mem_ofCalls hseq).mp he)
  exact hkeys c hc

theorem MemTable.isEmpty_ofCalls (hseq : (calls.map MemCall.sequence).Nodup) (hne : calls ≠ []) :
    (MemTable.ofCalls start calls).isEmpty = false := by
  obtain ⟨c, rest, rfl⟩ := List.exists_cons_of_ne_nil hne
  have hmem : c.entry ∈ (MemTable.ofCalls start (c :: rest)).iter :=
    (MemTable.mem_ofCalls hseq).mpr (List.mem_map_of_mem List.mem_cons_self)
  unfold MemTable.isEmpty
  rw [List.isEmpty_eq_false_iff]
  exact List.ne_nil_of_mem hmem

/-- An empty memtable has no table, and leaves no file behind. -/
theorem flushMemtableToSstable_empty {m : MemTable} (hsane : s.world.disk.Sane) (hcalm : s.world.faults = [])
    (hempty : m.table = []) : ∃ n s', flushMemtableToSstable m s = .ok n s' ∧ s'.db.sstables = s.db.sstables ∧
      s.db.nextFileNumber ∉ s'.world.disk.ssts := by
  have hasc : Ascending m.table := hempty ▸ ⟨List.Pairwise.nil, fun x hx => absurd hx List.not_mem_nil⟩
  have hrun := flushMemtableToSstable_calm hsane hcalm hasc
  cases hr : flushMemtableToSstable m s with
  | error e s' => exact (hrun.error hr).elim
  | ok n s' =>
    rcases (flushMemtableToSstable_spec m s).ok hr with ⟨-, hdb, hat⟩ | ⟨hne, -⟩
    · refine ⟨n, s', rfl, by rw [hdb]; rfl, ?_⟩
      rw [hat.disk_eq]
      simp [Disk.removeSst]
    · exact absurd hempty hne

/-- In any database with any memtable: the flush returns, and unless the memtable is empty
its table answers every key as the memtable does, but for a put of an empty value, which
is not there. -/
theorem flushMemtableToSstable_preserves (len : CompressedLen) (st : State) (db : DB) (hreach : st.Reachable len)
    (hdb : st.db = some db) (start : Nat) (calls : List MemCall) (hseq : (calls.map MemCall.sequence).Nodup)
    (hkeys : ∀ c ∈ calls, c.op.key ≠ []) :
    ∃ n s', flushMemtableToSstable (MemTable.ofCalls start calls) ⟨db, st.world.enter .calm⟩ = .ok n s' ∧
      (calls = [] → s'.db.sstables = db.sstables ∧ db.nextFileNumber ∉ s'.world.disk.ssts) ∧
      (calls ≠ [] → ∃ r, s'.db.sstables = db.sstables.modify 0 (r :: ·) ∧
        ∀ key, r.get (s'.world.readBlock r.file) key = .ok (live ((MemTable.ofCalls start calls).get key ⊤))) := by
  have hsane : (st.world.enter .calm).disk.Sane := (State.reached hreach hdb).sane
  by_cases hne : calls = []
  · subst hne
    have hempty : (MemTable.ofCalls start []).table = [] := MemTable.table_eq_nil.mpr rfl
    obtain ⟨n, s', hrun, hsst, hfile⟩ :=
      flushMemtableToSstable_empty (s := ⟨db, st.world.enter .calm⟩) hsane rfl hempty
    exact ⟨n, s', hrun, fun _ => ⟨hsst, hfile⟩, fun h => absurd rfl h⟩
  · obtain ⟨n, s', r, hrun, hsst, hget⟩ := flushMemtableToSstable_answers (s := ⟨db, st.world.enter .calm⟩) hsane rfl
      (fun _ _ => rfl) (MemTable.keys_ofCalls hseq hkeys) (fun _ => MemTable.deletion_ofCalls hseq)
      (MemTable.isEmpty_ofCalls hseq hne)
    exact ⟨n, s', hrun, fun h => absurd h hne, fun _ => ⟨r, hsst, hget⟩⟩

def State.opened : State := (State.init .unused).runs [(.calm, .openDb .plain)]

theorem State.opened_isSome : State.opened.db.isSome = true := by decide +kernel

theorem flushMemtableToSstable_preserves_zeroExtended : ∃ db n s' r, State.opened.db = some db ∧
    flushMemtableToSstable (MemTable.ofCalls 1 zeroExtended) ⟨db, State.opened.world.enter .calm⟩ = .ok n s' ∧
    s'.db.sstables = db.sstables.modify 0 (r :: ·) ∧
    r.get (s'.world.readBlock r.file) [97, 0] = .ok (some ⟨[2], 2⟩) := by
  obtain ⟨db, hdb⟩ := Option.isSome_iff_exists.mp State.opened_isSome
  obtain ⟨n, s', hrun, -, hfull⟩ := flushMemtableToSstable_preserves .unused State.opened db ⟨_, rfl⟩ hdb 1 zeroExtended
    (by decide) (by decide)
  obtain ⟨r, hsst, hget⟩ := hfull (by decide)
  refine ⟨db, n, s', r, hdb, hrun, hsst, ?_⟩
  rw [hget]
  decide +kernel

/-- A put of an empty value: the memtable shows it, its table does not. -/
theorem flushMemtableToSstable_loses_emptyValue : ∃ db n s' r, State.opened.db = some db ∧
    flushMemtableToSstable (MemTable.ofCalls 1 [⟨.put [97] [], 1, 0⟩]) ⟨db, State.opened.world.enter .calm⟩ = .ok n s' ∧
    s'.db.sstables = db.sstables.modify 0 (r :: ·) ∧ r.get (s'.world.readBlock r.file) [97] = .ok none ∧
    (MemTable.ofCalls 1 [⟨.put [97] [], 1, 0⟩]).get [97] ⊤ = some ⟨[], 0⟩ := by
  obtain ⟨db, hdb⟩ := Option.isSome_iff_exists.mp State.opened_isSome
  have hseq : ([⟨.put [97] [], 1, 0⟩] : List MemCall).map MemCall.sequence |>.Nodup := by decide
  have hsane : (State.opened.world.enter .calm).disk.Sane := (@State.reached .unused _ _ ⟨_, rfl⟩ hdb).sane
  obtain ⟨n, s', r, hrun, hsst, hget⟩ := flushMemtableToSstable_answers (s := ⟨db, State.opened.world.enter .calm⟩) hsane rfl
    (fun _ _ => rfl) (MemTable.keys_ofCalls hseq (by decide)) (fun _ => MemTable.deletion_ofCalls hseq)
    (MemTable.isEmpty_ofCalls hseq (by decide))
  refine ⟨db, n, s', r, hdb, hrun, hsst, ?_, by decide +kernel⟩
  rw [hget]
  decide +kernel

end AiDb
