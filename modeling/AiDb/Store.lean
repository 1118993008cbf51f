import AiDb.FileNumbers
import AiDb.Compaction.Newest

/-!
# What the store holds

The contents behind the handle: the newest version of each key in every
memtable, and the entries of every table. `Sys.Serving` is what a session on a
sound directory keeps; there `DB::get` is a search through these contents, and
`flush` and `compact` rearrange them.
-/

namespace AiDb

open Library Compaction

-- ---------------------------------------------------------------------------
-- Memtables
-- ---------------------------------------------------------------------------

namespace MemTable

def version (m : MemTable) (key : Bytes) : Option (ValueType × Value) :=
  (m.newest key ⊤).map fun e => (e.1.valueType, e.2)

def answer : Option (ValueType × Value) → Option Value
  | some (.value, v) => some v
  | _ => none

theorem get_eq_answer {m : MemTable} (h : m.Bounded bound) : m.get key bound = answer (m.version key) := by
  rw [get_of_bounded h, get_eq, version]
  rcases m.newest key ⊤ with _ | ⟨⟨u, sq, _ | _⟩, v⟩ <;> rfl

theorem latestVersions_eq (es : List (InternalKey × Value)) : latestVersions last es =
    survivors 0 last (es.map fun e => ⟨e.1.userKey, e.2⟩) := by
  induction es generalizing last with
  | nil => rfl
  | cons e es ih =>
    simp only [latestVersions, List.map_cons, survivors]
    split_ifs with hlast hl
    · exact ih
    · exact absurd hl.1 (lt_irrefl 0)
    · rw [ih]

theorem entries_from (m : MemTable) : From none (m.iter.map fun e => ⟨e.1.userKey, e.2⟩) := by
  refine ⟨List.pairwise_map.mpr (m.data.ordered.imp fun h => ?_), nofun⟩
  rw [InternalKey.lt_iff] at h
  rcases h with h | ⟨h, -⟩
  · exact le_of_lt h
  · exact le_of_eq h

theorem stored_table (m : MemTable) (key : Bytes) : stored m.table key = (m.version key).map Prod.snd := by
  rw [table, latestVersions_eq, stored_survivors m.entries_from nofun]
  simp [kept, stored, version, newest, List.find?_map, Function.comp_def]

theorem table_sorted (m : MemTable) : m.table.Pairwise fun a b => a.key < b.key := by
  rw [table, latestVersions_eq]
  exact survivors_sorted m.entries_from

theorem table_eq_nil {m : MemTable} : m.table = [] ↔ m.isEmpty = true := by
  rw [table, isEmpty, iter, List.isEmpty_iff]
  cases m.data.entries <;> simp [latestVersions]

end MemTable

def WriteOp.version (op : WriteOp) (stamp : Nat) : ValueType × Value :=
  match op with
  | .put _ value => (.value, ⟨value, stamp⟩)
  | .delete _ => (.deletion, ⟨[], stamp⟩)

/-- The last version of a key among operations stamped from `stamp` on. -/
def lastVersion (key : Bytes) : (stamp : Nat) → List WriteOp → Option (ValueType × Value)
  | _, [] => none
  | stamp, op :: ops =>
    (lastVersion key (stamp + 1) ops).or (if op.key = key then some (op.version stamp) else none)

theorem WriteOp.apply_spec {m : MemTable} (op : WriteOp) (stamp : Nat) (h : m.Bounded bound) :
    (op.apply m stamp (bound + 1)).Bounded (bound + 1) ∧
      ∀ key, (op.apply m stamp (bound + 1)).version key =
        (if op.key = key then some (op.version stamp) else none).or (m.version key) := by
  cases op with
  | put k v =>
    refine ⟨h.insert (t := .value) (Nat.le_succ bound) nofun rfl, fun key => ?_⟩
    rw [MemTable.version, MemTable.newest_insert h (Nat.lt_succ_self bound) rfl]
    by_cases hk : k = key
    · simp [WriteOp.key, WriteOp.version, hk]
    · simp [WriteOp.key, hk, Ne.symm hk, MemTable.version]
  | delete k =>
    refine ⟨h.insert (Nat.le_succ bound) (fun _ => rfl) rfl, fun key => ?_⟩
    rw [MemTable.version, MemTable.newest_insert h (Nat.lt_succ_self bound) rfl]
    by_cases hk : k = key
    · simp [WriteOp.key, WriteOp.version, hk]
    · simp [WriteOp.key, hk, Ne.symm hk, MemTable.version]

theorem applyOps_spec {m : MemTable} (stamp : Nat) (ops : List WriteOp) (h : m.Bounded bound) :
    (applyOps m stamp (bound + 1) ops).Bounded (bound + ops.length) ∧
      ∀ key, (applyOps m stamp (bound + 1) ops).version key =
        (lastVersion key stamp ops).or (m.version key) := by
  induction ops generalizing m stamp bound with
  | nil => exact ⟨h, fun _ => rfl⟩
  | cons op ops ih =>
    have hop := op.apply_spec stamp h
    obtain ⟨hb, hv⟩ := ih (stamp + 1) hop.1
    refine ⟨?_, fun key => ?_⟩
    · rw [List.length_cons, ← Nat.add_assoc, Nat.add_right_comm]
      exact hb
    · rw [applyOps, hv key, hop.2 key, lastVersion, Option.or_assoc]

def lastOp (key : Bytes) : List WriteOp → Option WriteOp
  | [] => none
  | op :: ops => (lastOp key ops).or (if op.key = key then some op else none)

theorem lastOp_append (key : Bytes) (as bs : List WriteOp) :
    lastOp key (as ++ bs) = (lastOp key bs).or (lastOp key as) := by
  induction as with
  | nil => simp [lastOp]
  | cons a as ih => simp [lastOp, ih, Option.or_assoc]

theorem lastOp_eq_none {ops : List WriteOp} : lastOp key ops = none ↔ ∀ op ∈ ops, op.key ≠ key := by
  induction ops with
  | nil => simp [lastOp]
  | cons op ops ih =>
    rw [lastOp, Option.or_eq_none_iff, ih]
    by_cases hk : op.key = key <;> simp [hk]

theorem lastOp_eq_some {ops : List WriteOp} (h : lastOp key ops = some op) :
    op.key = key ∧ ∃ i, ops[i]? = some op ∧ ∀ (j : Nat) op', i < j → ops[j]? = some op' → op'.key ≠ key := by
  induction ops with
  | nil => cases h
  | cons op' ops ih =>
    rw [lastOp, Option.or_eq_some_iff] at h
    rcases h with h | ⟨hnone, h⟩
    · obtain ⟨hk, i, hop, hlast⟩ := ih h
      refine ⟨hk, i + 1, hop, fun j op'' hij hj => ?_⟩
      obtain ⟨j, rfl⟩ := Nat.exists_eq_succ_of_ne_zero (Nat.ne_of_gt (Nat.zero_lt_of_lt hij))
      exact hlast j op'' (Nat.lt_of_succ_lt_succ hij) hj
    · split_ifs at h with hk
      cases h
      refine ⟨hk, 0, rfl, fun j op'' hij hj => ?_⟩
      obtain ⟨j, rfl⟩ := Nat.exists_eq_succ_of_ne_zero (Nat.ne_of_gt hij)
      exact lastOp_eq_none.mp hnone op'' (List.mem_of_getElem? hj)

-- ---------------------------------------------------------------------------
-- Tables
-- ---------------------------------------------------------------------------

def Disk.entriesOf (d : Disk) (r : SSTableReader) : List Entry :=
  match d.files[r.file]? with
  | some (.complete f) => f.entries
  | _ => []

/-- The reader has this file open, as it was when it was opened. -/
structure Disk.Serves (d : Disk) (r : SSTableReader) (f : SstFile) : Prop where
  content : d.files[r.file]? = some (.complete f)
  of : r.Of f
  wellFormed : f.WellFormed

variable {d : Disk}

theorem Disk.Serves.entriesOf_eq (h : d.Serves r f) : d.entriesOf r = f.entries := by
  rw [Disk.entriesOf, h.content]

theorem Disk.Serves.of_append {d' : Disk} (h : d.Serves r f) (hf : d'.files = d.files ++ more) : d'.Serves r f where
  content := by
    rw [hf, List.getElem?_append_left (List.getElem?_eq_some_iff.mp h.content).1]
    exact h.content
  of := h.of
  wellFormed := h.wellFormed

theorem Disk.createSst_unused (h : n ∉ d.ssts) : d.createSst n =
    { d with ssts := d.ssts.insert n d.files.length, files := d.files ++ [.incomplete] } := by
  rw [Disk.createSst, AList.lookup_eq_none.mpr h]

theorem Disk.withSst_unused (h : n ∉ d.ssts) : d.withSst n f =
    { d with ssts := d.ssts.insert n d.files.length, files := d.files ++ [.complete f] } := by
  rw [Disk.withSst, Disk.createSst_unused h, Disk.finishSst, AList.lookup_insert]
  simp

theorem World.readBlock_served {w : World} (h : w.disk.Serves r f) (hb : b ∈ f.blocks)
    (hread : w.unreadable r.file b.handle.offset = false) : w.readBlock r.file b.handle = .ok b.entries := by
  unfold World.readBlock
  rw [hread, h.content]
  simp only [Bool.false_eq_true, ↓reduceIte]
  -- handles are apart, so the handle of a block finds that block
  have hfind : f.blocks.find? (fun b' => b'.handle = b.handle) = some b := by
    obtain ⟨before, after, hsplit⟩ := List.append_of_mem hb
    rw [List.find?_eq_some_iff_append]
    refine ⟨by simp, before, after, hsplit, fun b' hb' => ?_⟩
    have hoff := h.wellFormed.offsets
    rw [hsplit] at hoff
    have hlt := (List.pairwise_append.mp hoff).2.2 b' hb' b List.mem_cons_self
    simp only [Bool.not_eq_eq_eq_not, Bool.not_true, decide_eq_false_iff_not]
    intro heq
    rw [heq] at hlt
    exact lt_irrefl _ hlt
  rw [hfind]

theorem World.readBy {w : World} (h : w.disk.Serves r f)
    (hread : ∀ off, w.unreadable r.file off = false) : f.ReadBy (w.readBlock r.file) :=
  fun _ hb => readBlock_served h hb (hread _)

theorem World.get_served {w : World} (h : w.disk.Serves r f)
    (hread : ∀ file off, w.unreadable file off = false) (key : Bytes) :
    r.get (w.readBlock r.file) key = .ok (live (stored (w.disk.entriesOf r) key)) := by
  rw [h.entriesOf_eq]
  exact SSTableReader.get_eq h.of h.wellFormed (w.readBy h (hread r.file))

-- ---------------------------------------------------------------------------
-- The handle
-- ---------------------------------------------------------------------------

/-- What a session on a sound directory keeps about the tables. -/
structure Sys.Serving (s : Sys) : Prop where
  numbered : s.Numbered
  readable : ∀ file off, s.world.unreadable file off = false
  serves : ∀ r ∈ s.db.sstables.flatten, ∃ f, s.world.disk.Serves r f
  arc_lt : ∀ r ∈ s.db.sstables.flatten, r.arc < s.world.arcs
  arcs : (s.db.sstables.flatten.map SSTableReader.arc).Nodup
  deep : ∀ r ∈ s.db.sstables.tail.flatten, ∀ e ∈ s.world.disk.entriesOf r, e.value.bytes ≠ []

/-- Every reader of the handle serves the table it was opened on. This is what is
left of `Serving` when tables of earlier sessions are there. -/
structure Sys.Intact (s : Sys) : Prop where
  serves : ∀ r ∈ s.db.sstables.flatten, ∃ f, s.world.disk.Serves r f
  arc_lt : ∀ r ∈ s.db.sstables.flatten, r.arc < s.world.arcs
  arcs : (s.db.sstables.flatten.map SSTableReader.arc).Nodup
  deep : ∀ r ∈ s.db.sstables.tail.flatten, ∀ e ∈ s.world.disk.entriesOf r, e.value.bytes ≠ []

theorem Sys.Serving.intact {s : Sys} (h : s.Serving) : s.Intact := ⟨h.serves, h.arc_lt, h.arcs, h.deep⟩

theorem Sys.Intact.serving {s : Sys} (h : s.Intact) (hn : s.Numbered)
    (hread : ∀ file off, s.world.unreadable file off = false) : s.Serving :=
  ⟨hn, hread, h.serves, h.arc_lt, h.arcs, h.deep⟩

def Sys.Bounded (s : Sys) : Prop :=
  ∀ m ∈ s.db.memtable :: s.db.immutableMemtables, m.Bounded s.db.sequence

def DB.memtables (db : DB) : List MemTable := db.memtable :: db.immutableMemtables.reverse

def Sys.tables (s : Sys) : List (List (List Entry)) := s.db.sstables.map (·.map s.world.disk.entriesOf)

def scanOrder (levels : List (List α)) : List α := levels.flatMap List.reverse

def Sys.answer (s : Sys) (key : Bytes) : Option Value :=
  (s.db.memtables.findSome? fun m => MemTable.answer (m.version key)).or
    ((scanOrder s.tables).findSome? fun es => live (stored es key))

theorem findSome_congr {f g : α → Option β} {as : List α} (h : ∀ a ∈ as, f a = g a) :
    as.findSome? f = as.findSome? g := by
  induction as with
  | nil => rfl
  | cons a as ih =>
    rw [List.findSome?_cons, List.findSome?_cons, h a List.mem_cons_self,
      ih fun x hx => h x (List.mem_cons_of_mem a hx)]

theorem firstAnswer_ok {ask : α → Except Error (Option β)} {f : α → Option β} {as : List α}
    (h : ∀ a ∈ as, ask a = .ok (f a)) : firstAnswer ask as = .ok (as.findSome? f) := by
  induction as with
  | nil => rfl
  | cons a as ih =>
    have ih := ih fun x hx => h x (List.mem_cons_of_mem a hx)
    rw [firstAnswer, h a List.mem_cons_self, List.findSome?_cons, ih]
    cases f a <;> rfl

theorem Sys.Intact.firstAnswer_eq {s : Sys} (hs : s.Intact)
    (hread : ∀ file off, s.world.unreadable file off = false) (key : Bytes) :
    firstAnswer (fun r => r.get (s.world.readBlock r.file) key) (s.db.sstables.flatMap List.reverse) =
      .ok ((scanOrder s.tables).findSome? fun es => live (stored es key)) := by
  have hscan : scanOrder s.tables = (scanOrder s.db.sstables).map s.world.disk.entriesOf := by
    simp [scanOrder, Sys.tables, List.flatMap_map, List.map_flatMap]
  rw [hscan, List.findSome?_map]
  refine firstAnswer_ok fun r hr => ?_
  obtain ⟨f, hf⟩ := hs.serves r (by simpa [List.mem_flatten] using hr)
  exact World.get_served hf hread key

theorem Sys.Serving.firstAnswer_eq {s : Sys} (hs : s.Serving) (key : Bytes) :
    firstAnswer (fun r => r.get (s.world.readBlock r.file) key) (s.db.sstables.flatMap List.reverse) =
      .ok ((scanOrder s.tables).findSome? fun es => live (stored es key)) :=
  hs.intact.firstAnswer_eq hs.readable key

theorem Sys.get_eq {s : Sys} (hs : s.Serving) (hb : s.Bounded) (key : Bytes) :
    s.get key = .ok ((s.answer key).map Value.bytes) := by
  have hmem : (s.db.memtable :: s.db.immutableMemtables.reverse).findSome? (·.get key s.db.sequence) =
      s.db.memtables.findSome? fun m => MemTable.answer (m.version key) := by
    refine findSome_congr fun m hm => MemTable.get_eq_answer (hb m ?_)
    simpa using hm
  unfold Sys.get DB.get DB.getAtSequence Sys.answer
  rw [hmem, hs.firstAnswer_eq]
  cases s.db.memtables.findSome? fun m => MemTable.answer (m.version key) <;> rfl

theorem Sys.Intact.of_empty {s : Sys} (hflat : s.db.sstables.flatten = []) : s.Intact where
  serves := by simp [hflat]
  arc_lt := by simp [hflat]
  arcs := by simp [hflat]
  deep r hr := by
    obtain ⟨l, hl, hrl⟩ := List.mem_flatten.mp hr
    have : r ∈ s.db.sstables.flatten := List.mem_flatten.mpr ⟨l, List.mem_of_mem_tail hl, hrl⟩
    rw [hflat] at this
    cases this

theorem Sys.Intact.kept {s s' : Sys} (h : s.Intact) (hk : s.TablesKept s') : s'.Intact where
  serves r hr := by
    rw [hk.sstables] at hr
    obtain ⟨f, hf⟩ := h.serves r hr
    exact ⟨f, by rw [hk.files]; exact hf.content, hf.of, hf.wellFormed⟩
  arc_lt := by rw [hk.sstables, hk.arcs]; exact h.arc_lt
  arcs := by rw [hk.sstables]; exact h.arcs
  deep := by
    rw [hk.sstables]
    intro r hr
    have : s'.world.disk.entriesOf r = s.world.disk.entriesOf r := by
      simp only [Disk.entriesOf, hk.files]
    rw [this]
    exact h.deep r hr

theorem Sys.Serving.kept {s s' : Sys} (h : s.Serving) (hk : s.TablesKept s') : s'.Serving := by
  refine (h.intact.kept hk).serving (h.numbered.kept hk) ?_
  rw [hk.unreadable]
  exact h.readable

theorem Sys.TablesKept.tables_eq {s s' : Sys} (hk : s.TablesKept s') : s'.tables = s.tables := by
  have : s'.world.disk.entriesOf = s.world.disk.entriesOf := by
    funext r
    simp only [Disk.entriesOf, hk.files]
  rw [Sys.tables, Sys.tables, hk.sstables, this]

theorem Sys.Numbered.next_unused {s : Sys} (h : s.Numbered) :
    s.db.nextFileNumber ∉ s.world.disk.ssts := fun hmem => lt_irrefl _ (h.below _ hmem)

-- ---------------------------------------------------------------------------
-- Level lists
-- ---------------------------------------------------------------------------

theorem mem_flatten_modify {f : List α → List α} {levels : List (List α)}
    (hf : ∀ l, ∀ x ∈ f l, x = a ∨ x ∈ l) (hx : x ∈ (levels.modify i f).flatten) :
    x = a ∨ x ∈ levels.flatten := by
  induction levels generalizing i with
  | nil => simp at hx
  | cons l ls ih =>
    cases i with
    | zero =>
      rw [List.modify_zero_cons, List.flatten_cons, List.mem_append] at hx
      rw [List.flatten_cons, List.mem_append]
      rcases hx with hx | hx
      · exact (hf l x hx).imp_right .inl
      · exact .inr (.inr hx)
    | succ i =>
      rw [List.modify_succ_cons, List.flatten_cons, List.mem_append] at hx
      rw [List.flatten_cons, List.mem_append]
      rcases hx with hx | hx
      · exact .inr (.inl hx)
      · exact (ih hx).imp_right .inr

theorem map_modify {f : α → α} {g : α → β} {h : β → β} (hfg : ∀ a, g (f a) = h (g a)) (l : List α) (i : Nat) :
    (l.modify i f).map g = (l.map g).modify i h := by
  induction l generalizing i with
  | nil => simp
  | cons a l ih => cases i <;> simp [hfg, ih]

-- ---------------------------------------------------------------------------
-- A new table
-- ---------------------------------------------------------------------------

/-- `s'` has the tables of `s` and more files. -/
structure Sys.Grown (s s' : Sys) : Prop where
  unreadable : s'.world.unreadable = s.world.unreadable
  arcs : s.world.arcs ≤ s'.world.arcs
  files : ∃ more, s'.world.disk.files = s.world.disk.files ++ more

theorem Sys.Grown.serves {s s' : Sys} (h : s.Grown s') (hf : s.world.disk.Serves r f) :
    s'.world.disk.Serves r f := by
  obtain ⟨more, hmore⟩ := h.files
  exact hf.of_append hmore

theorem Sys.Grown.entriesOf_eq {s s' : Sys} (h : s.Grown s') (hs : s.Intact)
    (hr : r ∈ s.db.sstables.flatten) : s'.world.disk.entriesOf r = s.world.disk.entriesOf r := by
  obtain ⟨f, hf⟩ := hs.serves r hr
  rw [(h.serves hf).entriesOf_eq, hf.entriesOf_eq]

theorem Sys.Grown.map_entriesOf {s s' : Sys} (h : s.Grown s') (hs : s.Intact) :
    s.db.sstables.map (·.map s'.world.disk.entriesOf) = s.tables := by
  refine List.map_congr_left fun l hl => List.map_congr_left fun r hr => ?_
  exact h.entriesOf_eq hs (List.mem_flatten.mpr ⟨l, hl, hr⟩)

theorem Disk.Opens.serves {d' : Disk} (ho : d.Opens w w' n f r) (hwf : f.WellFormed)
    (hd : d'.files = d.files) : d'.Serves r f where
  content := by rw [hd]; exact ho.content
  of := by rw [ho.reader]; rfl
  wellFormed := hwf

theorem Sys.Intact.grown {s s' : Sys} (hs : s.Intact) (hg : s.Grown s')
    (hsst : s'.db.sstables = s.db.sstables) : s'.Intact where
  serves r hr := by
    rw [hsst] at hr
    obtain ⟨f, hf⟩ := hs.serves r hr
    exact ⟨f, hg.serves hf⟩
  arc_lt r hr := by
    rw [hsst] at hr
    exact lt_of_lt_of_le (hs.arc_lt r hr) hg.arcs
  arcs := by rw [hsst]; exact hs.arcs
  deep r hr := by
    rw [hsst] at hr
    have hflat : r ∈ s.db.sstables.flatten := by
      obtain ⟨l, hl, hxl⟩ := List.mem_flatten.mp hr
      exact List.mem_flatten.mpr ⟨l, List.mem_of_mem_tail hl, hxl⟩
    rw [hg.entriesOf_eq hs hflat]
    exact hs.deep r hr

/-- The handle of `s`, with a served reader `r` among its tables, and of the
others only such as `s` had. -/
theorem Sys.Intact.install {s s' : Sys} (hs : s.Intact) (hg : s.Grown s') (hr : s'.world.disk.Serves r f) (hge : s.world.arcs ≤ r.arc) (hlt : r.arc < s'.world.arcs)
    (hmem : ∀ x ∈ s'.db.sstables.flatten, x = r ∨ x ∈ s.db.sstables.flatten)
    (harcs : (s'.db.sstables.flatten.map SSTableReader.arc).Nodup)
    (hdeep : ∀ x ∈ s'.db.sstables.tail.flatten, x ∈ s.db.sstables.tail.flatten ∨
      x = r ∧ ∀ e ∈ f.entries, e.value.bytes ≠ []) : s'.Intact where
  serves x hx := by
    rcases hmem x hx with rfl | hx
    · exact ⟨f, hr⟩
    · obtain ⟨g, hgx⟩ := hs.serves x hx
      exact ⟨g, hg.serves hgx⟩
  arc_lt x hx := by
    rcases hmem x hx with rfl | hx
    · exact hlt
    · exact lt_of_lt_of_le (hs.arc_lt x hx) hg.arcs
  arcs := harcs
  deep x hx := by
    rcases hdeep x hx with hx | ⟨rfl, hlive⟩
    · have hflat : x ∈ s.db.sstables.flatten := by
        obtain ⟨l, hl, hxl⟩ := List.mem_flatten.mp hx
        exact List.mem_flatten.mpr ⟨l, List.mem_of_mem_tail hl, hxl⟩
      rw [hg.entriesOf_eq hs hflat]
      exact hs.deep x hx
    · rw [hr.entriesOf_eq]
      exact hlive

theorem Sys.Intact.arc_notMem {s : Sys} {r : SSTableReader} (hs : s.Intact) (hge : s.world.arcs ≤ r.arc) :
    r.arc ∉ s.db.sstables.flatten.map SSTableReader.arc := by
  intro hmem
  obtain ⟨x, hx, harc⟩ := List.mem_map.mp hmem
  have := hs.arc_lt x hx
  omega

structure Sys.MemtablesKept (s s' : Sys) : Prop where
  memtable : s'.db.memtable = s.db.memtable
  immutableMemtables : s'.db.immutableMemtables = s.db.immutableMemtables
  sequence : s'.db.sequence = s.db.sequence
  options : s'.db.options = s.db.options
  writes : s'.world.writes = s.world.writes

/-- However the writing of a table under an unused number ends, it only adds files. -/
theorem Disk.Written.files_eq {d d' : Disk} (h : d.Written n es d') (hn : n ∉ d.ssts) :
    ∃ more, d'.files = d.files ++ more := by
  cases h with
  | untouched => exact ⟨[], by rw [List.append_nil]⟩
  | created => exact ⟨[.incomplete], by rw [Disk.createSst_unused hn]⟩
  | abandoned => exact ⟨[.incomplete], by rw [Disk.createSst_unused hn]; rfl⟩
  | finished => exact ⟨[.complete _], by rw [Disk.withSst_unused hn]⟩

theorem flushMemtableToSstable_unreadable (h : flushMemtableToSstable m s = .ok n s') :
    s'.world.unreadable = s.world.unreadable := by
  rcases (flushMemtableToSstable_spec m s).ok h with ⟨-, -, hat⟩ | ⟨-, _, _, -, -, -, hat, -⟩
  · exact hat.unreadable_eq
  · exact hat.unreadable_eq

/-- What a finished flush of one memtable leaves. -/
theorem flushMemtableToSstable_intact (m : MemTable) {s s' : Sys} (hs : s.Intact)
    (hunused : s.db.nextFileNumber ∉ s.world.disk.ssts) (h : flushMemtableToSstable m s = .ok n s') :
    s'.Intact ∧ s'.tables = (if m.table = [] then s.tables else s.tables.modify 0 (m.table :: ·)) ∧
      s.MemtablesKept s' := by
  rcases (flushMemtableToSstable_spec m s).ok h with ⟨hes, hdb, hat⟩ | ⟨hes, f, r, hwf, hentries, hdb, hat, ho⟩
  · have hg : s.Grown s' := by
      refine ⟨hat.unreadable_eq, hat.arcs_le, [.incomplete], ?_⟩
      rw [hat.disk_eq, Disk.createSst_unused hunused]
      rfl
    have hsst : s'.db.sstables = s.db.sstables := by rw [hdb]; rfl
    refine ⟨hs.grown hg hsst, ?_, by rw [hdb]; rfl, by rw [hdb]; rfl, by rw [hdb]; rfl, by rw [hdb]; rfl,
      hat.writes_eq⟩
    rw [if_pos hes, Sys.tables, hsst]
    exact hg.map_entriesOf hs
  · have hg : s.Grown s' := by
      refine ⟨hat.unreadable_eq, hat.arcs_le, [.complete f], ?_⟩
      rw [hat.disk_eq, Disk.withSst_unused hunused]
    have hr : s'.world.disk.Serves r f := ho.serves hwf (by rw [hat.disk_eq])
    have hsst : s'.db.sstables = s.db.sstables.modify 0 (r :: ·) := by rw [hdb]; rfl
    refine ⟨hs.install hg hr ho.arc_ge ho.arc_lt ?_ ?_ ?_, ?_,
      by rw [hdb]; rfl, by rw [hdb]; rfl, by rw [hdb]; rfl, by rw [hdb]; rfl, hat.writes_eq⟩
    · intro x hx
      rw [hsst] at hx
      exact mem_flatten_modify (fun l y hy => List.mem_cons.mp hy) hx
    · rw [hsst]
      cases hl : s.db.sstables with
      | nil => simp
      | cons l ls =>
        have hfresh := hs.arc_notMem ho.arc_ge
        have harcs := hs.arcs
        rw [hl] at hfresh harcs
        exact List.nodup_cons.mpr ⟨hfresh, harcs⟩
    · intro x hx
      rw [hsst] at hx
      refine .inl ?_
      cases hl : s.db.sstables with
      | nil => rw [hl] at hx; simp at hx
      | cons l ls => rw [hl] at hx; exact hx
    · rw [if_neg hes, Sys.tables, hsst, map_modify (h := (m.table :: ·)), hg.map_entriesOf hs]
      intro l
      rw [List.map_cons, hr.entriesOf_eq, hentries]

theorem flushMemtableToSstable_intact_error (m : MemTable) {s s' : Sys} (hs : s.Intact)
    (hunused : s.db.nextFileNumber ∉ s.world.disk.ssts) (h : flushMemtableToSstable m s = .error e s') :
    s'.Intact ∧ s'.tables = s.tables ∧ s.MemtablesKept s' ∧ s'.world.unreadable = s.world.unreadable := by
  obtain ⟨hdb, d, hwritten, hat⟩ := (flushMemtableToSstable_spec m s).error h
  obtain ⟨more, hfiles⟩ := hwritten.files_eq hunused
  have hg : s.Grown s' := ⟨hat.unreadable_eq, hat.arcs_le, more, by rw [hat.disk_eq]; exact hfiles⟩
  have hsst : s'.db.sstables = s.db.sstables := by rw [hdb]; rfl
  refine ⟨hs.grown hg hsst, ?_, ⟨by rw [hdb]; rfl, by rw [hdb]; rfl, by rw [hdb]; rfl, by rw [hdb]; rfl, hat.writes_eq⟩,
    hg.unreadable⟩
  rw [Sys.tables, hsst]
  exact hg.map_entriesOf hs

theorem flushMemtableToSstable_serving (m : MemTable) {s s' : Sys} (hs : s.Serving)
    (h : flushMemtableToSstable m s = .ok n s') :
    s'.Serving ∧ s'.tables = (if m.table = [] then s.tables else s.tables.modify 0 (m.table :: ·)) ∧
      s.MemtablesKept s' := by
  have hn : s'.Numbered := (flushMemtableToSstable_numbered m s hs.numbered).ok h
  obtain ⟨hs', htables, hkept⟩ := flushMemtableToSstable_intact m hs.intact hs.numbered.next_unused h
  refine ⟨hs'.serving hn ?_, htables, hkept⟩
  rw [flushMemtableToSstable_unreadable h]
  exact hs.readable

end AiDb
