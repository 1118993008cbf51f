import AiDb.Iterating
import AiDb.Consuming

/-!
# Forward iteration

The list of an iterator holds every key that the database has a value for, among
keys that it has none for; going forward, `load_current` passes over the latter.
-/

namespace AiDb

open Library Compaction

-- ---------------------------------------------------------------------------
-- The keys of a set
-- ---------------------------------------------------------------------------

theorem KeySet.mem_toVec (set : KeySet) : k ∈ set.toVec ↔ (k, ()) ∈ set.entries := by
  simp only [KeySet.toVec, List.mem_map, Prod.exists, exists_and_right, exists_eq_right]
  exact ⟨fun ⟨_, h⟩ => h, fun h => ⟨(), h⟩⟩

theorem KeySet.mem_extend (set : KeySet) (keys : List Bytes) : k ∈ (set.extend keys).toVec ↔ k ∈ set.toVec ∨ k ∈ keys := by
  induction keys generalizing set with
  | nil => simp [KeySet.extend]
  | cons x xs ih =>
    have hinsert : k ∈ KeySet.toVec (set.insert x ()) ↔ k = x ∨ k ∈ set.toVec := by
      simp only [KeySet.mem_toVec, SkipMap.mem_insert, Prod.mk.injEq, and_true]
      by_cases hk : k = x <;> simp [hk]
    rw [KeySet.extend, List.foldl_cons, ← KeySet.extend, ih, hinsert, List.mem_cons]
    tauto

theorem KeySet.toVec_ascending (set : KeySet) : set.toVec.Pairwise (· < ·) := List.pairwise_map.mpr set.ordered

@[simp] theorem MemTable.mem_keys (m : MemTable) : k ∈ m.keys ↔ ∃ e ∈ m.iter, e.1.userKey = k := by
  rw [MemTable.keys, KeySet.mem_extend]
  simp [KeySet.toVec]

-- ---------------------------------------------------------------------------
-- The keys of a table
-- ---------------------------------------------------------------------------

variable {read : BlockRead}

def SSTableReader.Readable (r : SSTableReader) (read : BlockRead) : Prop :=
  ∀ e ∈ r.indexBlock, ∃ es, read e.2 = .ok es

theorem scanBlocks_readable (h : ∀ e ∈ index, ∃ es, read e.2 = .ok es) : (scanBlocks read index).fails = false := by
  induction index with
  | nil => rfl
  | cons e index ih =>
    obtain ⟨es, hes⟩ := h e List.mem_cons_self
    simp only [scanBlocks, hes]
    exact ih fun e' he' => h e' (List.mem_cons_of_mem e he')

theorem mem_scanBlocks (h : ∀ e ∈ index, ∃ es, read e.2 = .ok es) :
    x ∈ (scanBlocks read index).items ↔ ∃ e ∈ index, ∃ es, read e.2 = .ok es ∧ x ∈ es := by
  induction index with
  | nil => simp [scanBlocks]
  | cons e index ih =>
    obtain ⟨es, hes⟩ := h e List.mem_cons_self
    simp only [scanBlocks, hes, List.mem_append, ih fun e' he' => h e' (List.mem_cons_of_mem e he'), List.mem_cons,
      exists_eq_or_imp, Except.ok.injEq, exists_eq_left']

namespace SSTableIterator

variable {it it' : SSTableIterator}

theorem advance_end (hready : it.Ready read) (h : it.advance read = .ok (false, it')) : it'.valid = false := by
  have hnext : ∀ jt : SSTableIterator, jt.indexIterEntries = it.indexIterEntries →
      jt.nextBlock read = .ok (false, it') → it'.valid = false := by
    intro jt hindex h
    unfold nextBlock loadCurrentBlock at h
    dsimp only at h
    cases hi : jt.indexIterEntries[jt.currentBlockIndex + 1]? with
    | none =>
      rw [hi] at h
      cases h
      rfl
    | some e =>
      rw [hi] at h
      cases hr : read e.2 with
      | error err => simp only [hr] at h; cases h
      | ok entries =>
        rw [hindex] at hi
        cases entries with
        | nil => exact absurd hr (hready.blocks e (List.mem_of_getElem? hi))
        | cons x xs => simp only [hr] at h; cases h
  unfold advance at h
  cases hb : it.currentBlockIter with
  | none => rw [hb] at h; exact hnext it rfl h
  | some b =>
    rw [hb] at h
    dsimp only at h
    split at h
    · cases h
    · exact hnext _ rfl h

theorem collectKeys_invalid (h : it.valid = false) (fuel : Nat) : it.collectKeys read fuel = .ok [] := by
  cases fuel with
  | zero => rfl
  | succ fuel => rw [collectKeys, h, if_neg Bool.false_ne_true]

/-- The loop of `keys` pushes the current key before it goes on. -/
theorem collectKeys_eq (hready : it.Ready read) (hvalid : it.valid = true) (hrem : it.remaining read = ⟨es, false⟩)
    (hfuel : es.length < fuel) : it.collectKeys read fuel = .ok (it.key :: es.map Entry.key) := by
  induction fuel generalizing it es with
  | zero => exact absurd hfuel (Nat.not_lt_zero _)
  | succ fuel ih =>
    have hspec := SSTableIterator.advance_spec hready
    rw [hrem] at hspec
    rw [collectKeys, if_pos hvalid]
    cases es with
    | nil =>
      obtain ⟨it', hadv⟩ := hspec
      simp only [hadv, bind, Except.bind, collectKeys_invalid (advance_end hready hadv), pure, Except.pure, List.map_nil]
    | cons e es =>
      obtain ⟨it', hadv, hvalid', hentry, hready', hrem'⟩ := hspec
      rw [hadv]
      have hkey : it'.key = e.key := by rw [SSTableIterator.key, hentry]; rfl
      simp only [bind, Except.bind, ih hready' hvalid' hrem' (by simpa using hfuel), hkey, pure, Except.pure,
        List.map_cons]

end SSTableIterator

/-- `keys` lists an empty key in front of those of the table, unless the table is
empty. -/
theorem SSTableReader.listKeys_eq {r : SSTableReader} (hread : r.Readable read) (hne : BlocksNonempty read r.indexBlock) :
    r.listKeys read = .ok (if r.indexBlock = [] then [] else [] :: (scanBlocks read r.indexBlock).items.map Entry.key) := by
  have hfails := scanBlocks_readable hread
  unfold listKeys
  cases hseek : (SSTableIterator.new r).seekToFirst read with
  | error e =>
    have hscan := (SSTableIterator.seekToFirst_error hne).mp ⟨e, hseek⟩
    rw [hscan] at hfails
    cases hfails
  | ok it =>
    obtain ⟨hready, hrem⟩ := SSTableIterator.ready_seekToFirst hne hseek
    have hstart := hseek
    unfold SSTableIterator.seekToFirst SSTableIterator.loadCurrentBlock SSTableIterator.new at hstart
    dsimp only at hstart
    show it.collectKeys read _ = _
    cases hi : r.indexBlock with
    | nil =>
      rw [hi] at hstart
      cases hstart
      exact SSTableIterator.collectKeys_invalid rfl _
    | cons e index =>
      obtain ⟨es, hes⟩ := hread e (by rw [hi]; exact List.mem_cons_self)
      rw [hi] at hstart
      simp only [List.getElem?_cons_zero, hes] at hstart
      have hne' : es ≠ [] := fun h => hne e (by rw [hi]; exact List.mem_cons_self) (h ▸ hes)
      have hvalid : it.valid = true ∧ it.key = [] := by
        cases hstart
        exact ⟨by simpa [SSTableIterator.valid, BlockIterator.seekToFirst] using hne', rfl⟩
      rw [if_neg (List.cons_ne_nil e index), ← hi, ← hvalid.2]
      refine SSTableIterator.collectKeys_eq hready hvalid.1 ?_ ?_
      · rw [hrem, ← hfails]
      · exact Nat.lt_succ_of_le MergeIterator.scanBlocks_length

-- ---------------------------------------------------------------------------
-- The keys of the database
-- ---------------------------------------------------------------------------

variable {s : Sys} {w : World}

/-- Every block that a table of the levels names can be read, and holds entries. -/
structure Sys.Readable (s : Sys) : Prop where
  reads : ∀ r ∈ s.db.sstables.flatten, r.Readable (s.world.readBlock r.file)
  nonempty : ∀ r ∈ s.db.sstables.flatten, BlocksNonempty (s.world.readBlock r.file) r.indexBlock

/-- `keys` of the table lists this key: one of its own, or the empty one. -/
def SSTableReader.Lists (r : SSTableReader) (w : World) (k : Bytes) : Prop :=
  r.indexBlock ≠ [] ∧ (k = [] ∨ ∃ e ∈ (scanBlocks (w.readBlock r.file) r.indexBlock).items, e.key = k)

theorem collectTables_eq {set : KeySet} {rs : List SSTableReader} (hreads : ∀ r ∈ rs, r.Readable (w.readBlock r.file))
    (hne : ∀ r ∈ rs, BlocksNonempty (w.readBlock r.file) r.indexBlock) :
    ∃ set', collectTables w set rs = .ok set' ∧ ∀ k, k ∈ set'.toVec ↔ k ∈ set.toVec ∨ ∃ r ∈ rs, r.Lists w k := by
  induction rs generalizing set with
  | nil => exact ⟨set, rfl, by simp⟩
  | cons r rs ih =>
    have hkeys := SSTableReader.listKeys_eq (hreads r List.mem_cons_self) (hne r List.mem_cons_self)
    obtain ⟨set', hrest, hmem⟩ := @ih (set.extend (if r.indexBlock = [] then [] else
        [] :: (scanBlocks (w.readBlock r.file) r.indexBlock).items.map Entry.key))
      (fun x hx => hreads x (List.mem_cons_of_mem r hx)) fun x hx => hne x (List.mem_cons_of_mem r hx)
    refine ⟨set', ?_, fun k => ?_⟩
    · rw [collectTables, hkeys]
      exact hrest
    · have hlists : k ∈ (if r.indexBlock = [] then [] else
          [] :: (scanBlocks (w.readBlock r.file) r.indexBlock).items.map Entry.key) ↔ r.Lists w k := by
        unfold SSTableReader.Lists
        split_ifs with hi <;> simp [hi]
      rw [hmem, KeySet.mem_extend, hlists, or_assoc]
      simp

theorem Sys.collectKeys_spec (h : s.Readable) (start stop : Option Bytes) :
    ∃ keys, s.collectKeys start stop = .ok keys ∧ keys.Pairwise (· < ·) ∧
      ∀ k, k ∈ keys ↔ inRange start stop k = true ∧
        ((∃ m ∈ s.db.memtable :: s.db.immutableMemtables, ∃ e ∈ m.iter, e.1.userKey = k) ∨
          ∃ r ∈ s.db.sstables.flatten, r.Lists s.world k) := by
  have hmemtables : ∀ (set : KeySet) (ms : List MemTable) (k : Bytes),
      k ∈ (ms.foldl (fun set m => KeySet.extend set m.keys) set).toVec ↔
        k ∈ set.toVec ∨ ∃ m ∈ ms, ∃ e ∈ m.iter, e.1.userKey = k := by
    intro set ms k
    induction ms generalizing set with
    | nil => simp
    | cons m ms ih => rw [List.foldl_cons, ih, KeySet.mem_extend, MemTable.mem_keys, or_assoc]; simp
  obtain ⟨all, hall, hmem⟩ := @collectTables_eq s.world ((s.db.memtable :: s.db.immutableMemtables).foldl
    (fun set m => KeySet.extend set m.keys) .empty) s.db.sstables.flatten h.reads h.nonempty
  refine ⟨all.toVec.filter (inRange start stop), ?_, all.toVec_ascending.filter _, fun k => ?_⟩
  · rw [Sys.collectKeys, hall]
    rfl
  · have hempty : k ∉ KeySet.toVec .empty := List.not_mem_nil
    rw [List.mem_filter, hmem, hmemtables, or_iff_right hempty, and_comm]

theorem firstAnswer_some {ask : α → Except Error (Option β)} (h : firstAnswer ask as = .ok (some b)) :
    ∃ a ∈ as, ask a = .ok (some b) := by
  induction as with
  | nil => cases h
  | cons a as ih =>
    unfold firstAnswer at h
    cases ha : ask a with
    | error e => rw [ha] at h; cases h
    | ok o =>
      rw [ha] at h
      cases o with
      | some b' =>
        cases h
        exact ⟨a, List.mem_cons_self, ha⟩
      | none =>
        obtain ⟨a', hmem, ha'⟩ := ih h
        exact ⟨a', List.mem_cons_of_mem a hmem, ha'⟩

theorem mem_of_scanBlock (h : scanBlock key es = some v) : ∃ e ∈ es, e.key = key := by
  induction es with
  | nil => cases h
  | cons e es ih =>
    simp only [scanBlock] at h
    split_ifs at h with hk
    · exact ⟨e, List.mem_cons_self, hk⟩
    · obtain ⟨x, hx, hxk⟩ := ih h
      exact ⟨x, List.mem_cons_of_mem e hx, hxk⟩

theorem mem_of_findBlock (h : findBlock index key = some handle) : ∃ e ∈ index, e.2 = handle := by
  unfold findBlock at h
  split at h
  · rename_i e he
    cases h
    exact ⟨e, List.mem_of_find?_eq_some he, rfl⟩
  · obtain ⟨e, he, rfl⟩ := Option.map_eq_some_iff.mp h
    exact ⟨e, List.mem_of_getLast? he, rfl⟩

theorem SSTableReader.lists_of_get {r : SSTableReader} (hread : r.Readable (w.readBlock r.file))
    (h : r.get (w.readBlock r.file) key = .ok (some v)) : r.Lists w key := by
  unfold SSTableReader.get at h
  cases hmay : Filter.mayContain r.keys key with
  | false => rw [hmay] at h; cases h
  | true =>
    rw [hmay, if_pos rfl] at h
    cases hfind : findBlock r.indexBlock key with
    | none => rw [hfind] at h; cases h
    | some handle =>
      obtain ⟨e, he, rfl⟩ := mem_of_findBlock hfind
      obtain ⟨es, hes⟩ := hread e he
      simp only [hfind, hes] at h
      obtain ⟨x, hx, hkey⟩ := mem_of_scanBlock (Except.ok.inj h)
      exact ⟨List.ne_nil_of_mem he, .inr ⟨x, (mem_scanBlocks hread).mpr ⟨e, he, es, hes, hx⟩, hkey⟩⟩

theorem Sys.collects_live (h : s.Readable) (hget : s.getAtSequence key seq = .ok (some v)) :
    (∃ m ∈ s.db.memtable :: s.db.immutableMemtables, ∃ e ∈ m.iter, e.1.userKey = key) ∨
      ∃ r ∈ s.db.sstables.flatten, r.Lists s.world key := by
  unfold Sys.getAtSequence DB.getAtSequence at hget
  split at hget
  · rename_i x hfind
    obtain ⟨m, hm, hmget⟩ := List.exists_of_findSome?_eq_some hfind
    refine .inl ⟨m, ?_, ?_⟩
    · simpa using hm
    · rw [MemTable.get_eq] at hmget
      cases hnew : m.newest key seq with
      | none => rw [hnew] at hmget; cases hmget
      | some e =>
        obtain ⟨hmem, ⟨hk, -⟩, -⟩ := MemTable.newest_eq_some.mp hnew
        exact ⟨e, hmem, hk⟩
  · cases hans : firstAnswer (fun r => r.get (s.world.readBlock r.file) key) (s.db.sstables.flatMap List.reverse) with
    | error e => rw [hans] at hget; cases hget
    | ok o =>
      cases o with
      | none => rw [hans] at hget; cases hget
      | some b =>
        obtain ⟨r, hr, hrget⟩ := firstAnswer_some hans
        have hmem : r ∈ s.db.sstables.flatten := by
          obtain ⟨l, hl, hrl⟩ := List.mem_flatMap.mp hr
          exact List.mem_flatten.mpr ⟨l, hl, List.mem_reverse.mp hrl⟩
        exact .inr ⟨r, hmem, SSTableReader.lists_of_get (h.reads r hmem) hrget⟩

-- ---------------------------------------------------------------------------
-- The iterator
-- ---------------------------------------------------------------------------

/-- The entries of a scan: the keys of the range with a value, and the values. -/
def Sys.Shows (s : Sys) (start stop : Option Bytes) (e : Bytes × Bytes) : Prop :=
  inRange start stop e.1 = true ∧ s.getAtSequence e.1 s.db.sequence = .ok (some e.2)

/-- The iterator goes through the entries with `P` in ascending order, from the
first one or from a target on, whatever moves were made before. -/
structure DBIterator.ForwardExact (get : GetAtSequence) (P : Bytes × Bytes → Prop) (it : DBIterator) : Prop where
  ascending : (it.visited get).Pairwise fun a b => a.1 < b.1
  visits : ∀ e, e ∈ it.visited get ↔ P e
  seek : ∀ ms target, IsLeastEntry (fun e => P e ∧ target ≤ e.1) ((it.moves get ms).seek get target).current
  seekAscending : ∀ ms target, (((it.moves get ms).seek get target).visited get).Pairwise fun a b => a.1 < b.1
  seekVisits : ∀ ms target e, e ∈ ((it.moves get ms).seek get target).visited get ↔ P e ∧ target ≤ e.1
  seekToFirst : ∀ ms, IsLeastEntry P ((it.moves get ms).seekToFirst get).current

theorem DBIterator.forwardExact {get : GetAtSequence} {it : DBIterator} {P : Bytes × Bytes → Prop}
    (hok : it.Succeeds get) (hasc : it.keys.Pairwise (· < ·)) (hP : ∀ e, e ∈ it.view get ↔ P e)
    (hvisited : it.visited get = it.view get) : it.ForwardExact get P := by
  have hmoved : ∀ ms, (it.moves get ms).Succeeds get ∧ (it.moves get ms).keys.Pairwise (· < ·) ∧
      (it.moves get ms).view get = it.view get := by
    intro ms
    obtain ⟨hkeys, hseq⟩ := @moves_frame get it ms
    unfold Succeeds view
    rw [hkeys, hseq]
    exact ⟨hok, hasc, rfl⟩
  have hview : (it.view get).Pairwise fun a b => a.1 < b.1 := answers_ascending hasc
  have hseek : ∀ ms target, ((it.moves get ms).seek get target).visited get =
      answers (valueOf get it.sequence) (it.keys.filter (target ≤ ·)) := by
    intro ms target
    obtain ⟨hkeys, hseq⟩ := @moves_frame get it ms
    rw [visited_seek (hmoved ms).1 (hmoved ms).2.1, hkeys, hseq]
  have hfrom : ∀ target e, e ∈ answers (valueOf get it.sequence) (it.keys.filter (target ≤ ·)) ↔ P e ∧ target ≤ e.1 := by
    intro target e
    rw [← hP, DBIterator.view, mem_answers, mem_answers, List.mem_filter, decide_eq_true_eq]
    tauto
  refine ⟨by rw [hvisited]; exact hview, fun e => by rw [hvisited]; exact hP e, fun ms target => ?_,
    fun ms target => by rw [hseek]; exact answers_ascending (hasc.filter _),
    fun ms target e => by rw [hseek]; exact hfrom target e, fun ms => ?_⟩
  · rw [← @head_visited get, hseek]
    exact isLeastEntry_head (answers_ascending (hasc.filter _)) (hfrom target)
  · rw [← @head_visited get, visited_seekToFirst (hmoved ms).1, (hmoved ms).2.2]
    exact isLeastEntry_head hview hP

theorem Sys.valueOf_eq_some {seq : Nat} (hget : ∀ k, ∃ v, s.getAtSequence k seq = .ok v) :
    DBIterator.valueOf s.getAtSequence seq k = some v ↔ s.getAtSequence k seq = .ok (some v) := by
  obtain ⟨v', hv'⟩ := hget k
  simp [DBIterator.valueOf, hv']

theorem SSTableReader.get_ok {r : SSTableReader} (hread : r.Readable read) (key : Bytes) : ∃ v, r.get read key = .ok v := by
  unfold SSTableReader.get
  split_ifs
  · cases hfind : findBlock r.indexBlock key with
    | none => exact ⟨none, rfl⟩
    | some handle =>
      obtain ⟨e, he, rfl⟩ := mem_of_findBlock hfind
      obtain ⟨es, hes⟩ := hread e he
      exact ⟨scanBlock key es, by simp only [hes]; rfl⟩
  · exact ⟨none, rfl⟩

theorem Sys.Readable.get_ok (h : s.Readable) (key : Bytes) (seq : Nat) : ∃ v, s.getAtSequence key seq = .ok v := by
  unfold Sys.getAtSequence DB.getAtSequence
  split
  · exact ⟨_, rfl⟩
  · have hask : ∀ r ∈ s.db.sstables.flatMap List.reverse, r.get (s.world.readBlock r.file) key =
        .ok (r.get (s.world.readBlock r.file) key).toOption.join := by
      intro r hr
      obtain ⟨l, hl, hrl⟩ := List.mem_flatMap.mp hr
      obtain ⟨v, hv⟩ := SSTableReader.get_ok (h.reads r (List.mem_flatten.mpr ⟨l, hl, List.mem_reverse.mp hrl⟩)) key
      rw [hv]
      rfl
    rw [firstAnswer_ok hask]
    exact ⟨_, rfl⟩

theorem Sys.Readable.scan (h : s.Readable) (start stop : Option Bytes) : ∃ it, s.scan start stop = .ok it ∧
    s.collectKeys start stop = .ok it.keys ∧ it.Succeeds s.getAtSequence ∧ it.keys.Pairwise (· < ·) ∧
    (∀ e, e ∈ it.view s.getAtSequence ↔ s.Shows start stop e) ∧
    it.visited s.getAtSequence = it.view s.getAtSequence ∧ it.sequence = s.db.sequence := by
  obtain ⟨keys, hkeys, hasc, hmem⟩ := Sys.collectKeys_spec h start stop
  have hget : ∀ k, ∃ v, s.getAtSequence k s.db.sequence = .ok v := fun k => h.get_ok k _
  have hland := DBIterator.loadCurrent_lands s.getAtSequence ⟨none, s.db.sequence, keys, 0⟩
  have hok : (DBIterator.mk none s.db.sequence keys 0).Succeeds s.getAtSequence := fun k _ => hget k
  refine ⟨_, DBIterator.newRange_eq hkeys fun k _ => hget k, ?_, ?_, ?_, fun e => ?_, ?_, hland.sequence_eq⟩
  · rw [hland.keys_eq]
    exact hkeys
  · unfold DBIterator.Succeeds
    rw [hland.keys_eq, hland.sequence_eq]
    exact hok
  · rw [hland.keys_eq]
    exact hasc
  · unfold DBIterator.view
    rw [hland.keys_eq, hland.sequence_eq, mem_answers, Sys.valueOf_eq_some hget]
    refine ⟨fun ⟨hk, hv⟩ => ⟨((hmem _).mp hk).1, hv⟩, fun ⟨hr, hv⟩ => ⟨(hmem _).mpr ⟨hr, ?_⟩, hv⟩⟩
    exact Sys.collects_live h hv
  · rw [DBIterator.visited_loadCurrent hok]
    unfold DBIterator.view
    rw [hland.keys_eq, hland.sequence_eq]
    rfl

theorem Sys.Readable.forward (h : s.Readable) (start stop : Option Bytes) : ∃ it, s.scan start stop = .ok it ∧
    it.ForwardExact s.getAtSequence (s.Shows start stop) := by
  obtain ⟨it, hit, -, hok, hasc, hview, hvisited, -⟩ := h.scan start stop
  exact ⟨it, hit, DBIterator.forwardExact hok hasc hview hvisited⟩

end AiDb
