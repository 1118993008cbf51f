import AiDb.Table.Reader

/-!
# What a table holds

`SSTableBuilder.Holds b es` says that the entries `es` were added to `b`: they
lie in its blocks in key order, and the index names the last key of every
block. The file it finishes is `WellFormed` and holds exactly these entries, and
a reader of a well-formed file finds what is stored under a key.
-/

namespace AiDb

def lastKeyOf (es : List Entry) : Bytes := (es.getLast?.map Entry.key).getD []

def indexOf (blocks : List Block) : Index := blocks.map fun b => (lastKeyOf b.entries, b.handle)

structure Ascending (es : List Entry) : Prop where
  sorted : es.Pairwise fun a b => a.key < b.key
  key_ne : ∀ e ∈ es, e.key ≠ []

structure SstFile.WellFormed (f : SstFile) : Prop where
  nonempty : ∀ b ∈ f.blocks, b.entries ≠ []
  ascending : Ascending f.entries
  index_eq : f.index = indexOf f.blocks
  offsets : f.blocks.Pairwise fun a b => a.handle.offset < b.handle.offset

-- ---------------------------------------------------------------------------
-- Building
-- ---------------------------------------------------------------------------

theorem lastKeyOf_append_singleton : lastKeyOf (es ++ [e]) = e.key := by simp [lastKeyOf]

theorem lastKeyOf_append (h : bs ≠ []) : lastKeyOf (as ++ bs) = lastKeyOf bs := by
  simp [lastKeyOf, List.getLast?_append, List.getLast?_eq_some_getLast h]

theorem indexOf_append : indexOf (as ++ bs) = indexOf as ++ indexOf bs := by simp [indexOf]

theorem Ascending.append_singleton (h : Ascending es) (hne : e.key ≠ [])
    (hlt : ∀ x ∈ es, x.key < e.key) : Ascending (es ++ [e]) where
  sorted := by
    rw [List.pairwise_append]
    refine ⟨h.sorted, by simp, ?_⟩
    intro a ha b hb
    rw [List.mem_singleton.mp hb]
    exact hlt a ha
  key_ne := by
    intro x hx
    rcases List.mem_append.mp hx with hx | hx
    · exact h.key_ne x hx
    · rw [List.mem_singleton.mp hx]
      exact hne

theorem Ascending.le_lastKeyOf (h : Ascending es) (hx : x ∈ es) : x.key ≤ lastKeyOf es := by
  induction es using List.reverseRecOn with
  | nil => cases hx
  | append_singleton es e _ =>
    rw [lastKeyOf_append_singleton]
    rcases List.mem_append.mp hx with hx | hx
    · exact le_of_lt ((List.pairwise_append.mp h.sorted).2.2 x hx e (by simp))
    · rw [List.mem_singleton.mp hx]

/-- The key before the end is below the last one; before the first there is the empty key. -/
theorem Ascending.lastKeyOf_take_lt (h : Ascending es) (hn : n < es.length) : lastKeyOf (es.take n) < lastKeyOf es := by
  have hdrop : es.drop n ≠ [] := by simpa using hn
  have hlast : lastKeyOf es = ((es.drop n).getLast hdrop).key := by
    conv_lhs => rw [← List.take_append_drop n es, lastKeyOf_append hdrop]
    simp [lastKeyOf, List.getLast?_eq_some_getLast hdrop]
  have hmem : (es.drop n).getLast hdrop ∈ es.drop n := List.getLast_mem hdrop
  rw [hlast]
  cases htake : (es.take n).getLast? with
  | none =>
    rw [lastKeyOf, htake]
    exact lt_of_le_of_ne (not_lt.mp (List.not_lt_nil _)) (h.key_ne _ (List.mem_of_mem_drop hmem)).symm
  | some e =>
    have hsorted := h.sorted
    rw [← List.take_append_drop n es, List.pairwise_append] at hsorted
    rw [lastKeyOf, htake]
    exact hsorted.2.2 e (List.mem_of_getLast? htake) _ hmem

theorem Ascending.lastKeyOf_ne (h : Ascending es) (hne : es ≠ []) : lastKeyOf es ≠ [] := by
  rw [lastKeyOf, List.getLast?_eq_some_getLast hne]
  exact h.key_ne _ (List.getLast_mem hne)

namespace SSTableBuilder

structure Holds (b : SSTableBuilder) (es : List Entry) : Prop where
  entries : es = b.blocks.flatMap Block.entries ++ b.dataBlockBuilder.entries
  nonempty : ∀ blk ∈ b.blocks, blk.entries ≠ []
  ascending : Ascending es
  lastKey_eq : b.lastKey = lastKeyOf es
  index_eq : b.takePending.index = indexOf b.blocks
  pending : b.pendingHandle ≠ none → b.dataBlockBuilder.entries = []
  offsets : b.blocks.Pairwise fun x y => x.handle.offset < y.handle.offset
  offset_lt : ∀ blk ∈ b.blocks, blk.handle.offset < b.dataBlockOffset

theorem holds_new (size : Nat) (compression : CompressionType) :
    (SSTableBuilder.new size compression).Holds [] where
  entries := rfl
  nonempty := by simp [SSTableBuilder.new]
  ascending := ⟨.nil, by simp⟩
  lastKey_eq := rfl
  index_eq := rfl
  pending := fun h => absurd rfl h
  offsets := .nil
  offset_lt := by simp [SSTableBuilder.new]

@[simp] theorem takePending_blocks (b : SSTableBuilder) : b.takePending.blocks = b.blocks := by
  unfold takePending; split <;> rfl

@[simp] theorem takePending_dataBlockBuilder (b : SSTableBuilder) :
    b.takePending.dataBlockBuilder = b.dataBlockBuilder := by
  unfold takePending; split <;> rfl

@[simp] theorem takePending_lastKey (b : SSTableBuilder) : b.takePending.lastKey = b.lastKey := by
  unfold takePending; split <;> rfl

@[simp] theorem takePending_dataBlockOffset (b : SSTableBuilder) :
    b.takePending.dataBlockOffset = b.dataBlockOffset := by
  unfold takePending; split <;> rfl

@[simp] theorem takePending_pendingHandle (b : SSTableBuilder) :
    b.takePending.pendingHandle = none := by
  unfold takePending; split <;> simp_all

theorem takePending_of_none {b : SSTableBuilder} (h : b.pendingHandle = none) : b.takePending = b := by
  unfold takePending; rw [h]

theorem takePending_index_of_some {b : SSTableBuilder} (h : b.pendingHandle = some handle) :
    b.takePending.index = b.index ++ [(b.lastKey, handle)] := by
  unfold takePending; rw [h]

theorem Holds.takePending {b : SSTableBuilder} (h : b.Holds es) : b.takePending.Holds es where
  entries := by simpa using h.entries
  nonempty := by simpa using h.nonempty
  ascending := h.ascending
  lastKey_eq := by simpa using h.lastKey_eq
  index_eq := by rw [takePending_of_none b.takePending_pendingHandle]; simpa using h.index_eq
  pending := fun hp => absurd b.takePending_pendingHandle hp
  offsets := by simpa using h.offsets
  offset_lt := by simpa using h.offset_lt

variable {len : CompressedLen}

theorem Holds.flushDataBlock {b : SSTableBuilder} (h : b.Holds es) : (b.flushDataBlock len).Holds es := by
  unfold SSTableBuilder.flushDataBlock
  split
  · exact h
  · rename_i hne
    have hne : b.dataBlockBuilder.entries ≠ [] := by simpa [BlockBuilder.isEmpty] using hne
    -- a block with entries and a pending handle do not occur together
    have hnone : b.pendingHandle = none := by
      by_contra hp
      exact hne (h.pending hp)
    have hindex : b.index = indexOf b.blocks := by
      have := h.index_eq
      rwa [takePending_of_none hnone] at this
    have hlast : b.lastKey = lastKeyOf b.dataBlockBuilder.entries := by
      rw [h.lastKey_eq, h.entries, lastKeyOf_append hne]
    refine ⟨?_, ?_, h.ascending, h.lastKey_eq, ?_, fun _ => rfl, ?_, ?_⟩
    · simpa [BlockBuilder.new] using h.entries
    · intro blk hblk
      rcases List.mem_append.mp hblk with hblk | hblk
      · exact h.nonempty blk hblk
      · rw [List.mem_singleton.mp hblk]
        exact hne
    · rw [takePending_index_of_some rfl, indexOf_append]
      simp only [hindex, hlast]
      rfl
    · refine List.pairwise_append.mpr ⟨h.offsets, by simp, ?_⟩
      intro x hx y hy
      rw [List.mem_singleton.mp hy]
      exact h.offset_lt x hx
    · intro blk hblk
      show blk.handle.offset < b.dataBlockOffset + _
      rcases List.mem_append.mp hblk with hblk | hblk
      · exact Nat.lt_add_right _ (h.offset_lt blk hblk)
      · rw [List.mem_singleton.mp hblk]
        show b.dataBlockOffset < _
        omega

theorem Holds.push {b : SSTableBuilder} (h : b.Holds es) (hnone : b.pendingHandle = none)
    (hne : e.key ≠ []) (hlt : ∀ x ∈ es, x.key < e.key) :
    ({ b with
      dataBlockBuilder := b.dataBlockBuilder.add e
      lastKey := e.key
      numEntries := b.numEntries + 1 } : SSTableBuilder).Holds (es ++ [e]) where
  entries := by simp [BlockBuilder.add, h.entries]
  nonempty := h.nonempty
  ascending := h.ascending.append_singleton hne hlt
  lastKey_eq := lastKeyOf_append_singleton.symm
  index_eq := by
    have := h.index_eq
    rw [takePending_of_none hnone] at this
    rwa [takePending_of_none (by exact hnone)]
  pending := fun hp => absurd hnone hp
  offsets := h.offsets
  offset_lt := h.offset_lt

/-- The order check of `add` compares with the last key only, which is enough. -/
theorem Holds.lt_of_lastKey {b : SSTableBuilder} {e : Entry} (h : b.Holds es)
    (hord : ¬(b.lastKey ≠ [] ∧ e.key ≤ b.lastKey)) : ∀ x ∈ es, x.key < e.key := by
  intro x hx
  have hlast : b.lastKey ≠ [] := by
    rw [h.lastKey_eq]
    exact h.ascending.lastKeyOf_ne (List.ne_nil_of_mem hx)
  have hlt : b.lastKey < e.key := not_le.mp fun hle => hord ⟨hlast, hle⟩
  rw [h.lastKey_eq] at hlt
  exact lt_of_le_of_lt (h.ascending.le_lastKeyOf hx) hlt

theorem Holds.add {b : SSTableBuilder} (h : b.Holds es) (hadd : b.add len e = .ok b') :
    b'.Holds (es ++ [e]) := by
  unfold SSTableBuilder.add at hadd
  split_ifs at hadd with hne hord
  have hp := h.takePending.push b.takePending_pendingHandle hne (h.lt_of_lastKey hord)
  simp only at hadd
  split at hadd
  · cases hadd
    exact hp.flushDataBlock
  · cases hadd
    exact hp

theorem Holds.not_le_lastKey {b : SSTableBuilder} {e : Entry} (h : b.Holds es)
    (hlt : ∀ x ∈ es, x.key < e.key) : ¬(b.lastKey ≠ [] ∧ e.key ≤ b.lastKey) := by
  rintro ⟨hl, hle⟩
  rw [h.lastKey_eq] at hl hle
  cases he : es.getLast? with
  | none => simp [lastKeyOf, he] at hl
  | some x =>
    simp only [lastKeyOf, he, Option.map_some, Option.getD_some] at hle
    exact absurd (hlt x (List.mem_of_getLast? he)) (not_lt.mpr hle)

theorem Holds.add_ok {b : SSTableBuilder} (h : b.Holds es) (len : CompressedLen) (hne : e.key ≠ [])
    (hlt : ∀ x ∈ es, x.key < e.key) : ∃ b', b.add len e = .ok b' := by
  unfold SSTableBuilder.add
  rw [if_neg hne, if_neg (h.not_le_lastKey hlt)]
  simp only
  split <;> exact ⟨_, rfl⟩

theorem Holds.finish_wellFormed {b : SSTableBuilder} (h : b.Holds es) (len : CompressedLen) :
    (b.finish len).WellFormed ∧ (b.finish len).entries = es := by
  have hf : (b.flushDataBlock len).Holds es := h.flushDataBlock
  have hempty : (b.flushDataBlock len).dataBlockBuilder.entries = [] := by
    unfold SSTableBuilder.flushDataBlock
    split
    · rename_i he
      simpa [BlockBuilder.isEmpty] using he
    · rfl
  have hentries : es = (b.flushDataBlock len).blocks.flatMap Block.entries := by
    simpa [hempty] using hf.entries
  have hfile : (b.finish len).entries = es := by
    simpa [SSTableBuilder.finish, SstFile.entries] using hentries.symm
  refine ⟨⟨?_, ?_, ?_, ?_⟩, hfile⟩
  · simpa [SSTableBuilder.finish] using hf.nonempty
  · rw [hfile]
    exact h.ascending
  · simpa [SSTableBuilder.finish] using hf.index_eq
  · simpa [SSTableBuilder.finish] using hf.offsets

end SSTableBuilder

-- ---------------------------------------------------------------------------
-- Looking a key up
-- ---------------------------------------------------------------------------

/-- What is stored under a key, a tombstone included. -/
def stored (es : List Entry) (key : Bytes) : Option Value :=
  (es.find? fun e => e.key = key).map Entry.value

def live : Option Value → Option Value
  | none => none
  | some v => if v.bytes = [] then none else some v

@[simp] theorem live_none : live none = none := rfl

@[simp] theorem live_some : live (some v) = if v.bytes = [] then none else some v := rfl

theorem live_eq_some : live o = some v ↔ v.bytes ≠ [] ∧ o = some v := by
  cases o with
  | none => simp
  | some x =>
    rw [live_some]
    split_ifs with hx
    · simp only [false_iff, not_and, Option.some.injEq]
      rintro hv rfl
      exact hv hx
    · simp only [Option.some.injEq]
      exact ⟨fun h => ⟨h ▸ hx, h⟩, And.right⟩

theorem stored_eq_none : stored es key = none ↔ ∀ e ∈ es, e.key ≠ key := by simp [stored]

theorem stored_append : stored (as ++ bs) key = (stored as key).or (stored bs key) := by
  simp only [stored, List.find?_append]
  cases as.find? fun e => e.key = key <;> simp

theorem mem_of_stored (h : stored es key = some v) : ⟨key, v⟩ ∈ es := by
  simp only [stored, Option.map_eq_some_iff] at h
  obtain ⟨e, he, rfl⟩ := h
  have hk : e.key = key := by simpa using List.find?_some he
  subst hk
  exact List.mem_of_find?_eq_some he

theorem Ascending.stored_of_mem (h : Ascending es) (hm : e ∈ es) : stored es e.key = some e.value := by
  induction es with
  | nil => cases hm
  | cons x xs ih =>
    obtain ⟨hx, hxs⟩ := List.pairwise_cons.mp h.sorted
    rcases List.mem_cons.mp hm with rfl | hm
    · simp [stored]
    · have hne : x.key ≠ e.key := ne_of_lt (hx e hm)
      rw [← ih ⟨hxs, fun y hy => h.key_ne y (List.mem_cons_of_mem x hy)⟩ hm]
      simp [stored, hne]

theorem scanBlock_eq (h : es.Pairwise fun a b => a.key < b.key) :
    scanBlock key es = live (stored es key) := by
  induction es with
  | nil => rfl
  | cons e es ih =>
    obtain ⟨he, hes⟩ := List.pairwise_cons.mp h
    simp only [scanBlock]
    split_ifs with hk hv hlt
    · simp [stored, hk, hv]
    · simp [stored, hk, hv]
    · -- the scan stops at the first greater key
      have hnone : stored (e :: es) key = none := by
        rw [stored_eq_none]
        intro x hx
        rcases List.mem_cons.mp hx with rfl | hx
        · exact hk
        · exact ne_of_gt (hlt.trans (he x hx))
      rw [hnone]
      rfl
    · rw [ih hes]
      simp [stored, hk]

theorem findBlock_cons : findBlock ((k, handle) :: index) key =
    if key ≤ k ∨ index = [] then some handle else findBlock index key := by
  by_cases hk : key ≤ k
  · simp [findBlock, hk]
  · cases index with
    | nil => simp [findBlock, hk]
    | cons e es => simp [findBlock, hk, List.getLast?_cons_cons]

theorem findBlock_spec (key : Bytes) (hne : ∀ b ∈ blocks, b.entries ≠ [])
    (hasc : Ascending (blocks.flatMap Block.entries)) (hb : blocks ≠ []) :
    ∃ b ∈ blocks, findBlock (indexOf blocks) key = some b.handle ∧
      stored (blocks.flatMap Block.entries) key = stored b.entries key := by
  induction blocks with
  | nil => exact absurd rfl hb
  | cons b bs ih =>
    rw [List.flatMap_cons] at hasc
    obtain ⟨hsb, hsbs, hcross⟩ := List.pairwise_append.mp hasc.sorted
    have hascb : Ascending b.entries := ⟨hsb, fun e he => hasc.key_ne e (List.mem_append_left _ he)⟩
    have hascbs : Ascending (bs.flatMap Block.entries) :=
      ⟨hsbs, fun e he => hasc.key_ne e (List.mem_append_right _ he)⟩
    rw [indexOf, List.map_cons, findBlock_cons, List.flatMap_cons, stored_append]
    by_cases hle : key ≤ lastKeyOf b.entries
    · refine ⟨b, List.mem_cons_self, by simp [hle], ?_⟩
      have hrest : stored (bs.flatMap Block.entries) key = none := by
        rw [stored_eq_none]
        intro e he hek
        have hlast := List.getLast_mem (hne b List.mem_cons_self)
        have hlt := hcross _ hlast e he
        rw [hek] at hlt
        have hlk : lastKeyOf b.entries = (b.entries.getLast (hne b List.mem_cons_self)).key := by
          simp [lastKeyOf, List.getLast?_eq_some_getLast (hne b List.mem_cons_self)]
        rw [hlk] at hle
        exact absurd hlt (not_lt.mpr hle)
      rw [hrest, Option.or_none]
    · have hfront : stored b.entries key = none := by
        rw [stored_eq_none]
        rintro e he rfl
        exact hle (hascb.le_lastKeyOf he)
      by_cases hbs : bs = []
      · subst hbs
        exact ⟨b, List.mem_cons_self, by simp, by simp [stored]⟩
      · obtain ⟨b', hb', hfind, hst⟩ :=
          ih (fun x hx => hne x (List.mem_cons_of_mem b hx)) hascbs hbs
        refine ⟨b', List.mem_cons_of_mem b hb', ?_, ?_⟩
        · rw [if_neg (by simp [hle, hbs])]
          exact hfind
        · rw [hfront, hst, Option.none_or]

def SstFile.ReadBy (f : SstFile) (read : BlockRead) : Prop :=
  ∀ b ∈ f.blocks, read b.handle = .ok b.entries

def SSTableReader.Of (r : SSTableReader) (f : SstFile) : Prop :=
  r = ⟨r.arc, r.fileNumber, r.file, f.index, f.entries.map Entry.key, f.size⟩

theorem SSTableReader.get_eq {r : SSTableReader} {f : SstFile} {read : BlockRead} (hr : r.Of f)
    (hf : f.WellFormed) (hread : f.ReadBy read) :
    r.get read key = .ok (live (stored f.entries key)) := by
  rw [hr]
  unfold SSTableReader.get
  dsimp only
  by_cases hmay : Filter.mayContain (f.entries.map Entry.key) key
  · rw [if_pos hmay, hf.index_eq]
    by_cases hb : f.blocks = []
    · simp [hb, indexOf, findBlock, SstFile.entries, stored, live]
    · obtain ⟨b, hmem, hfind, hst⟩ := findBlock_spec key hf.nonempty hf.ascending hb
      have hsorted : b.entries.Pairwise fun x y => x.key < y.key :=
        hf.ascending.sorted.sublist (List.sublist_flatten_of_mem (List.mem_map_of_mem hmem))
      rw [hfind, SstFile.entries, hst]
      simp only [hread b hmem, bind, Except.bind, pure, Except.pure, scanBlock_eq hsorted]
  · -- the filter never denies a key of the table
    have hnone : stored f.entries key = none := by
      rw [stored_eq_none]
      rintro e he rfl
      exact hmay (Filter.mayContain_of_mem (List.mem_map_of_mem he))
    rw [if_neg hmay, hnone]
    rfl

end AiDb
