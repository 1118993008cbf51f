import AiDb.Deletes

/-!
# The last write of a key

In a session of puts and flushes the layers are ordered by age: the active
memtable, the frozen ones from the newest, level 0 from its front, then the
deeper levels from the end of their lists. `DB::get` asks in this order, but for
level 0, which it asks from the back.
-/

namespace AiDb

open Library Compaction

variable {s s' : Sys}

-- ---------------------------------------------------------------------------
-- The order of age
-- ---------------------------------------------------------------------------

def newestFirst : List (List α) → List α
  | [] => []
  | l0 :: deeper => l0 ++ scanOrder deeper

def Sys.newest (s : Sys) (key : Bytes) : Option Value :=
  (s.db.memtables.findSome? fun m => (m.version key).map Prod.snd).or (firstStored (newestFirst s.tables) key)

def MemTable.blank : Option (ValueType × Value) → Option Value
  | none => none
  | some (.deletion, v) => some v
  | some (.value, v) => if v.bytes = [] then some v else none

structure Sys.Valued (s : Sys) : Prop where
  memtables : ∀ key, (s.db.memtables.findSome? fun m => MemTable.blank (m.version key)) = none
  tables : ∀ es ∈ s.tables.flatten, ∀ key, live (stored es key) = stored es key
  levels : s.tables ≠ []

theorem MemTable.answer_of_blank (h : blank v = none) : answer v = v.map Prod.snd := by
  rcases v with _ | ⟨_ | _, v⟩
  · rfl
  · cases h
  · rfl

theorem MemTable.live_of_blank (h : blank v = none) : live (v.map Prod.snd) = v.map Prod.snd := by
  rcases v with _ | ⟨_ | _, v⟩
  · rfl
  · cases h
  · simp only [blank, ite_eq_right_iff, reduceCtorEq, imp_false] at h
    simp [h]

theorem firstStored_append (as bs : List (List Entry)) (key : Bytes) :
    firstStored (as ++ bs) key = (firstStored as key).or (firstStored bs key) := by
  simp [firstStored, List.findSome?_append]

theorem firstStored_cons (es : List Entry) (bs : List (List Entry)) (key : Bytes) :
    firstStored (es :: bs) key = (stored es key).or (firstStored bs key) := by
  rw [firstStored, List.findSome?_cons, firstStored]
  cases stored es key <;> rfl

theorem live_firstStored_eq {tables : List (List Entry)} (h : ∀ es ∈ tables, ∀ key, live (stored es key) = stored es key)
    (key : Bytes) : live (firstStored tables key) = firstStored tables key := by
  induction tables with
  | nil => rfl
  | cons es tables ih =>
    rw [firstStored_cons]
    cases hst : stored es key with
    | none => exact ih fun x hx => h x (List.mem_cons_of_mem _ hx)
    | some v =>
      have := h es List.mem_cons_self key
      rwa [hst] at this

theorem Sys.Valued.answer_eq (hv : s.Valued) (key : Bytes) : s.answer key =
    (s.db.memtables.findSome? fun m => (m.version key).map Prod.snd).or (firstStored (scanOrder s.tables) key) := by
  unfold Sys.answer firstStored
  congr 1
  · refine findSome_congr fun m hm => MemTable.answer_of_blank ?_
    exact List.findSome?_eq_none_iff.mp (hv.memtables key) m hm
  · refine findSome_congr fun es hes => hv.tables es (mem_scanOrder.mp hes) key

-- ---------------------------------------------------------------------------
-- What the calls keep
-- ---------------------------------------------------------------------------

theorem Sys.Wrote.newest_put (h : s.Wrote [.put key value] s') (k : Bytes) : s'.newest k =
    (if key = k then some ⟨value, s.world.writes⟩ else none).or (s.newest k) := by
  unfold Sys.newest
  rw [h.find k (Option.map Prod.snd) rfl, h.tables]
  by_cases hk : key = k
  · simp [lastVersion, WriteOp.key, WriteOp.version, hk]
  · simp only [lastVersion, WriteOp.key, hk, ↓reduceIte, Option.or_none, Option.none_or]
    rw [DB.memtables, List.findSome?_cons]
    cases (s.db.memtable.version k).map Prod.snd <;> rfl

theorem Sys.Wrote.valued_put (h : s.Wrote [.put key value] s') (hv : s.Valued) (hne : value ≠ []) : s'.Valued where
  memtables k := by
    have hold := hv.memtables k
    rw [DB.memtables, List.findSome?_eq_none_iff] at hold
    rw [h.find k MemTable.blank rfl, Option.or_eq_none_iff, List.findSome?_eq_none_iff]
    refine ⟨?_, fun m hm => hold m (List.mem_cons_of_mem _ hm)⟩
    by_cases hk : key = k
    · simp [lastVersion, WriteOp.key, WriteOp.version, hk, MemTable.blank, hne]
    · simpa [lastVersion, WriteOp.key, hk] using hold _ List.mem_cons_self
  tables := by rw [h.tables]; exact hv.tables
  levels := by rw [h.tables]; exact hv.levels

theorem Sys.Flushed.version_none (h : s.Flushed s') (g : Option (ValueType × Value) → Option Value)
    (hg : g none = none) (key : Bytes) : (s'.db.memtables.findSome? fun m => g (m.version key)) = none := by
  obtain ⟨m, hm, hempty⟩ := h.memtables
  have hnil : m.iter = [] := by simpa [MemTable.isEmpty, MemTable.iter] using hempty
  simp [hm, MemTable.version, MemTable.newest, hnil, hg]

def Sys.flushedLevel0 (s : Sys) : List (List Entry) := tablesOf s.db.memtables ++ s.tables.headD []

theorem Sys.Flushed.tables_cons (h : s.Flushed s') (hl : s.tables ≠ []) :
    s'.tables = s.flushedLevel0 :: s.tables.tail := by
  rw [h.tables, Sys.flushedLevel0]
  cases ht : s.tables with
  | nil => exact absurd ht hl
  | cons l0 ls => rfl

theorem Sys.Flushed.newest_eq (h : s.Flushed s') (hl : s.tables ≠ []) (key : Bytes) :
    s'.newest key = s.newest key := by
  unfold Sys.newest
  rw [h.version_none (Option.map Prod.snd) rfl key, Option.none_or, h.tables_cons hl, Sys.flushedLevel0]
  cases ht : s.tables with
  | nil => exact absurd ht hl
  | cons l0 ls =>
    simp only [newestFirst, List.headD_cons, List.tail_cons, List.append_assoc]
    rw [firstStored_append, firstStored, findSome_tablesOf]

theorem Sys.Flushed.valued (h : s.Flushed s') (hv : s.Valued) : s'.Valued where
  memtables := h.version_none MemTable.blank rfl
  tables := by
    rw [h.tables_cons hv.levels]
    intro es hes key
    rw [List.flatten_cons, Sys.flushedLevel0, List.mem_append, List.mem_append] at hes
    rcases hes with (hes | hes) | hes
    · obtain ⟨m, hm, rfl⟩ := List.mem_map.mp (List.mem_filter.mp hes).1
      rw [m.stored_table key]
      exact MemTable.live_of_blank (List.findSome?_eq_none_iff.mp (hv.memtables key) m hm)
    · refine hv.tables es ?_ key
      cases ht : s.tables with
      | nil => exact absurd ht hv.levels
      | cons l0 ls => rw [ht] at hes; exact List.mem_append_left _ hes
    · refine hv.tables es ?_ key
      obtain ⟨l, hl, hesl⟩ := List.mem_flatten.mp hes
      exact List.mem_flatten.mpr ⟨l, List.mem_of_mem_tail hl, hesl⟩
  levels := by rw [h.tables_cons hv.levels]; simp

/-- A merge of values keeps the newest of every key, and the order of age. -/
theorem Merges.firstStored_newestFirst (h : Merges t t')
    (hv : ∀ es ∈ t.flatten, ∀ key, live (stored es key) = stored es key) (key : Bytes) :
    firstStored (newestFirst t') key = firstStored (newestFirst t) key := by
  cases h with
  | idle => rfl
  | @level0 es inputs next below _ _ hstored =>
    have hin : live (firstStored inputs key) = firstStored inputs key :=
      live_firstStored_eq (fun es hes => hv es (by simp [hes])) key
    simp [newestFirst, scanOrder, firstStored_append, firstStored_cons, hstored key, hin]
  | @deeper es x l0 above rest next below _ hstored =>
    have hx : live (stored x key) = stored x key := hv x (by simp) key
    simp [newestFirst, scanOrder, firstStored_append, firstStored_cons, hstored key, hx]

theorem Merges.live_stored (h : Merges t t') (hv : ∀ es ∈ t.flatten, ∀ key, live (stored es key) = stored es key) :
    ∀ es ∈ t'.flatten, ∀ key, live (stored es key) = stored es key := by
  cases h with
  | idle => exact hv
  | level0 _ _ hstored =>
    intro es hes key
    simp only [List.flatten_cons, List.nil_append, List.mem_append, List.mem_singleton] at hes hv
    rcases hes with (hes | rfl) | hes
    · exact hv es (.inr (.inl hes)) key
    · rw [hstored key, live_live]
    · exact hv es (.inr (.inr hes)) key
  | deeper _ hstored =>
    intro es hes key
    simp only [List.flatten_cons, List.flatten_append, List.mem_append, List.mem_cons, List.not_mem_nil,
      or_false] at hes hv
    rcases hes with hes | hes | hes | ((hes | rfl) | hes)
    · exact hv es (.inl hes) key
    · exact hv es (.inr (.inl hes)) key
    · exact hv es (.inr (.inr (.inl (.inr hes)))) key
    · exact hv es (.inr (.inr (.inr (.inl hes)))) key
    · rw [hstored key, live_live]
    · exact hv es (.inr (.inr (.inr (.inr hes)))) key

-- ---------------------------------------------------------------------------
-- Reading in the order of age
-- ---------------------------------------------------------------------------

/-- Every key has the same bytes in the newest and in the oldest of the tables
that hold it. -/
def SameEnds (tables : List (List Entry)) : Prop :=
  ∀ key, (firstStored tables key).map Value.bytes = (firstStored tables.reverse key).map Value.bytes

/-- `get` finds the bytes of the newest version of every key. -/
def Sys.ReadsNewest (s : Sys) : Prop :=
  ∀ key, (s.newest key).map Value.bytes = (s.answer key).map Value.bytes

theorem firstStored_eq_none {tables : List (List Entry)} : firstStored tables key = none ↔
    ∀ es ∈ tables, stored es key = none := List.findSome?_eq_none_iff

theorem Sys.Valued.readsNewest_iff (hv : s.Valued) (ht : s.tables = l0 :: deeper)
    (hm : ∀ key, (s.db.memtables.findSome? fun m => (m.version key).map Prod.snd) = none) :
    s.ReadsNewest ↔ SameEnds l0 := by
  refine forall_congr' fun key => ?_
  rw [hv.answer_eq, Sys.newest, hm, ht, Option.none_or, Option.none_or]
  rw [show scanOrder (l0 :: deeper) = l0.reverse ++ scanOrder deeper from rfl, newestFirst,
    firstStored_append, firstStored_append]
  cases hl : firstStored l0 key with
  | none =>
    have hrev : firstStored l0.reverse key = none := by
      rw [firstStored_eq_none] at hl ⊢
      exact fun es hes => hl es (List.mem_reverse.mp hes)
    simp [hrev]
  | some v =>
    cases hrev : firstStored l0.reverse key with
    | none =>
      rw [firstStored_eq_none] at hrev
      have := firstStored_eq_none.mpr fun es hes => hrev es (List.mem_reverse.mpr hes)
      rw [hl] at this
      cases this
    | some v' => rfl

/-- What a flush has to meet: it ends in a compaction of level 0, or level 0
may as well be asked from the back. -/
def Sys.FlushInOrder (s : Sys) : Prop :=
  maxLevel0Files ≤ s.flushedLevel0.length ∨ SameEnds s.flushedLevel0

theorem sameEnds_of_blank {tables : List (List Entry)} (h : ∀ key, firstStored tables key = none) :
    SameEnds tables := by
  intro key
  rw [h key, firstStored_eq_none.mpr fun es hes => firstStored_eq_none.mp (h key) es (List.mem_reverse.mp hes)]

theorem Sys.Valued.merges (hv : s.Valued) (hkept : s.MemtablesKept s') (h : Merges s.tables s'.tables) :
    s'.Valued ∧ ∀ key, s'.newest key = s.newest key := by
  have hmem : s'.db.memtables = s.db.memtables := by
    rw [DB.memtables, hkept.memtable, hkept.immutableMemtables, DB.memtables]
  refine ⟨⟨by rw [hmem]; exact hv.memtables, h.live_stored hv.tables, fun hnil => ?_⟩, fun key => ?_⟩
  · have hl := hv.levels
    rw [hnil] at h
    generalize s.tables = t at h hl
    cases h
    exact hl rfl
  · rw [Sys.newest, Sys.newest, hmem, h.firstStored_newestFirst hv.tables]

/-- A flush leaves the store reading the newest versions exactly when it met the
condition. -/
theorem flush_readsNewest (hs : s.Sound) (hv : s.Valued) (h : flush s = .ok () s') :
    s'.Valued ∧ (∀ key, s'.newest key = s.newest key) ∧ (s'.ReadsNewest ↔ s.FlushInOrder) := by
  obtain ⟨s1, h1, h2⟩ := flush_cases h
  have hf := flushTables_flushed hs h1
  obtain ⟨-, hkept, hmerges⟩ := maybeTriggerCompaction_merges hf.sound h2
  have hv1 := hf.valued hv
  obtain ⟨hv2, hnewest2⟩ := hv1.merges hkept hmerges
  refine ⟨hv2, fun key => (hnewest2 key).trans (hf.newest_eq hv.levels key), ?_⟩
  have hmem : ∀ key, (s'.db.memtables.findSome? fun m => (m.version key).map Prod.snd) = none := by
    rw [DB.memtables, hkept.memtable, hkept.immutableMemtables]
    exact hf.version_none (Option.map Prod.snd) rfl
  have ht1 := hf.tables_cons hv.levels
  rw [ht1] at hmerges
  have htables1 := hv1.tables
  rw [ht1] at htables1
  unfold Sys.FlushInOrder
  generalize hl0 : s.flushedLevel0 = l0 at hmerges htables1 ⊢
  generalize ht2 : s'.tables = t2 at hmerges
  generalize s.tables.tail = deeper at hmerges htables1
  cases hmerges with
  | idle hidle =>
    rw [hv2.readsNewest_iff ht2 hmem]
    refine ⟨.inr, fun h => h.elim (fun hlen => ?_) id⟩
    refine hidle.elim (fun hlt => absurd hlt (not_lt.mpr hlen)) fun hblank => sameEnds_of_blank fun key => ?_
    rw [← live_firstStored_eq (fun es hes => htables1 es (List.mem_append_left _ hes)) key]
    exact hblank key
  | level0 hlen =>
    rw [hv2.readsNewest_iff ht2 hmem]
    exact ⟨fun _ => .inl hlen, fun _ _ => rfl⟩
  | deeper hlt =>
    rw [hv2.readsNewest_iff ht2 hmem]
    exact ⟨.inr, fun h => h.elim (fun hlen => absurd hlt (not_lt.mpr hlen)) id⟩

theorem Sys.Wrote.readsNewest_put (h : s.Wrote [.put key value] s') (hv : s.Valued) (hne : value ≠ [])
    (hr : s.ReadsNewest) : s'.ReadsNewest := by
  intro k
  have hrk := hr k
  have hnewest := h.newest_put k
  rw [hv.answer_eq] at hrk
  rw [(h.valued_put hv hne).answer_eq]
  unfold Sys.newest at hnewest hrk ⊢
  by_cases hk : key = k
  · -- the put is found before anything else
    have hfind := h.find k (Option.map Prod.snd) rfl
    simp only [lastVersion, WriteOp.key, WriteOp.version, hk, ↓reduceIte, Option.none_or, Option.some_or,
      Option.map_some] at hfind
    rw [hfind]
    rfl
  · rw [h.find k (Option.map Prod.snd) rfl, h.tables]
    have hlast : lastVersion k s.world.writes [.put key value] = none := by simp [lastVersion, WriteOp.key, hk]
    have hsame : ((s.db.memtable.version k).map Prod.snd).or
        (s.db.immutableMemtables.reverse.findSome? fun m => (m.version k).map Prod.snd) =
        s.db.memtables.findSome? fun m => (m.version k).map Prod.snd := by
      rw [DB.memtables, List.findSome?_cons]
      cases (s.db.memtable.version k).map Prod.snd <;> rfl
    rw [hlast, Option.none_or, hsame]
    exact hrk

-- ---------------------------------------------------------------------------
-- Sessions
-- ---------------------------------------------------------------------------

/-- Puts of a key and a value that are not empty, and flushes. -/
def Call.IsPutOrFlush : Call → Prop
  | .put key value => key ≠ [] ∧ value ≠ []
  | .flush => True
  | _ => False

/-- At every point of the session `get` returns the value of the last put. -/
def LastWriteWins (len : CompressedLen) (o : Options) (cs : List Call) : Prop :=
  ∀ pre, pre <+: cs → ∀ s, Sys.session len o pre = some s →
    ∀ key value, lastOp key (pre.flatMap Call.ops) = some (.put key value) → s.get key = .ok (some value)

/-- Every flush of the session meets the condition in the state it starts from. -/
def FlushesInOrder (len : CompressedLen) (o : Options) (cs : List Call) : Prop :=
  ∀ pre, pre ++ [.flush] <+: cs → ∀ s s', Sys.session len o pre = some s → flush s = .ok () s' → s.FlushInOrder

def lastPut (key : Bytes) (ops : List WriteOp) : Option Bytes :=
  match lastOp key ops with
  | some (.put _ value) => some value
  | _ => none

theorem lastOp_key (h : lastOp key ops = some op) : op.key = key := by
  induction ops with
  | nil => cases h
  | cons x xs ih =>
    rw [lastOp, Option.or_eq_some_iff] at h
    rcases h with h | ⟨-, h⟩
    · exact ih h
    · split_ifs at h with hk
      cases h
      exact hk

theorem session_newest (hcs : ∀ c ∈ cs, c.IsPutOrFlush) (h : Sys.session len o cs = some s) :
    s.Valued ∧ ∀ key, (s.newest key).map Value.bytes = lastPut key (cs.flatMap Call.ops) := by
  refine Sys.session_induction (I := fun cs s => (∀ c ∈ cs, c.IsPutOrFlush) →
    s.Valued ∧ ∀ key, (s.newest key).map Value.bytes = lastPut key (cs.flatMap Call.ops)) ?_ ?_ h hcs
  · intro s hs _
    obtain ⟨-, hmem, htables, -, -⟩ := Sys.fresh_sound hs
    refine ⟨⟨fun key => by rw [hmem]; rfl, ?_, by rw [htables]; simp⟩, fun key => ?_⟩
    · rw [htables]
      simp
    · rw [Sys.newest, hmem, htables]
      simp [newestFirst, scanOrder, firstStored, MemTable.version_new, lastPut, lastOp]
  · intro cs c s s' hsession ih hrun hcs
    have hs := Sys.session_sound hsession
    obtain ⟨hv, hnewest⟩ := ih fun c hc => hcs c (List.mem_append_left _ hc)
    have hc := hcs c (by simp)
    cases c with
    | put key value =>
      have hw := Call.run_wrote (c := .put key value) trivial hs hrun
      refine ⟨hw.valued_put hv hc.2, fun k => ?_⟩
      rw [hw.newest_put k, lastPut, List.flatMap_append, lastOp_append]
      by_cases hk : key = k
      · simp [hk, Call.ops, lastOp, WriteOp.key]
      · simpa [hk, Call.ops, lastOp, WriteOp.key, lastPut] using hnewest k
    | flush =>
      obtain ⟨hv', hnewest', -⟩ := flush_readsNewest hs hv hrun
      refine ⟨hv', fun k => ?_⟩
      rw [hnewest' k, hnewest k]
      simp [Call.ops]
    | _ => exact hc.elim

theorem session_readsNewest_iff (hcs : ∀ c ∈ cs, c.IsPutOrFlush) (h : Sys.session len o cs = some s) :
    s.ReadsNewest ↔ ∀ key value, lastOp key (cs.flatMap Call.ops) = some (.put key value) →
      s.get key = .ok (some value) := by
  obtain ⟨hv, hnewest⟩ := session_newest hcs h
  have hs := Sys.session_sound h
  constructor
  · intro hr key value hlast
    rw [Sys.get_eq hs.serving hs.bounded, ← hr key, hnewest key, lastPut, hlast]
  · intro hget key
    cases hn : s.newest key with
    | none =>
      -- nothing holds the key
      have hnone : s.answer key = none := by
        rw [hv.answer_eq]
        rw [Sys.newest, Option.or_eq_none_iff] at hn
        rw [hn.1, Option.none_or, firstStored_eq_none]
        intro es hes
        refine firstStored_eq_none.mp hn.2 es ?_
        rw [mem_scanOrder] at hes
        cases ht : s.tables with
        | nil => exact absurd ht hv.levels
        | cons l0 ls =>
          rw [ht] at hes
          rw [newestFirst]
          rcases List.mem_append.mp hes with hes | hes
          · exact List.mem_append_left _ hes
          · exact List.mem_append_right _ (mem_scanOrder.mpr hes)
      rw [hnone]
    | some v =>
      have hlast := hnewest key
      rw [hn, lastPut] at hlast
      split at hlast
      · rename_i k value hop
        obtain rfl : k = key := lastOp_key hop
        have := hget k value hop
        rw [Sys.get_eq hs.serving hs.bounded, Except.ok.injEq] at this
        rw [this, ← hlast]
      · cases hlast

/-- In a session of puts and flushes the last write wins exactly when every
flush is in order. -/
theorem lastWriteWins_iff (len : CompressedLen) (o : Options) (cs : List Call) (hcs : ∀ c ∈ cs, c.IsPutOrFlush) :
    LastWriteWins len o cs ↔ FlushesInOrder len o cs := by
  have hpre : ∀ {pre}, pre <+: cs → ∀ c ∈ pre, c.IsPutOrFlush := fun hp c hc => hcs c (hp.subset hc)
  constructor
  · intro h pre hp s s' hs hrun
    have hs' := Sys.session_snoc.mpr ⟨s, hs, show Call.flush.run s = .ok () s' from hrun⟩
    have hv := (session_newest (hpre ((List.prefix_append _ _).trans hp)) hs).1
    exact (flush_readsNewest (Sys.session_sound hs) hv hrun).2.2.mp
      ((session_readsNewest_iff (hpre hp) hs').mpr (h _ hp s' hs'))
  · intro h pre hp s hs
    refine (session_readsNewest_iff (hpre hp) hs).mp ?_
    refine Sys.session_induction (I := fun pre s => pre <+: cs → s.ReadsNewest) ?_ ?_ hs hp
    · intro s hs _ key
      obtain ⟨-, hmem, htables, -, -⟩ := Sys.fresh_sound hs
      rw [Sys.newest, Sys.answer, hmem, htables]
      simp [newestFirst, scanOrder, firstStored, MemTable.version_new, MemTable.answer, List.flatMap_replicate]
    · intro pre c s s' hs ih hrun hp
      have hsound := Sys.session_sound hs
      have hp' : pre <+: cs := (List.prefix_append _ _).trans hp
      have hv := (session_newest (hpre hp') hs).1
      have hc := hpre hp c (by simp)
      cases c with
      | put key value => 
        have hw := Call.run_wrote (c := .put key value) trivial hsound hrun
        exact hw.readsNewest_put hv hc.2 (ih hp')
      | flush => exact (flush_readsNewest hsound hv hrun).2.2.mpr (h pre hp s s' hs hrun)
      | _ => exact hc.elim

theorem lastWriteWins_iff_twoKeys :
    (∀ c ∈ [Call.put [97] [1], .flush, .put [98] [2], .flush], c.IsPutOrFlush) ∧
      (LastWriteWins .unused .plain [.put [97] [1], .flush, .put [98] [2], .flush] ↔
        FlushesInOrder .unused .plain [.put [97] [1], .flush, .put [98] [2], .flush]) := by
  have hcs : ∀ c ∈ [Call.put [97] [1], .flush, .put [98] [2], .flush], c.IsPutOrFlush := by
    simp [Call.IsPutOrFlush]
  exact ⟨hcs, lastWriteWins_iff _ _ _ hcs⟩

/-- Two flushes of one key leave the older value in front. -/
theorem not_lastWriteWins_flushedTwice :
    ¬LastWriteWins .unused .plain [.put [97] [1], .flush, .put [97] [2], .flush] := by
  intro h
  have hget : (Sys.session .unused .plain [.put [97] [1], .flush, .put [97] [2], .flush]).map (·.get [97]) =
      some (.ok (some [1])) := by decide +kernel
  obtain ⟨s, hs, hs'⟩ := Option.map_eq_some_iff.mp hget
  have := h _ (List.prefix_refl _) s hs [97] [2] (by decide)
  rw [hs'] at this
  cases this

end AiDb
