import AiDb.Compaction.Output

/-!
# Which version a compaction keeps

Among the tables that hold a key, the one at the smallest position gives its
version; a tombstone is dropped on the way to level 1 and below. A table with an
unreadable block hands out the entries before that block only, and the merge
stops at the last of these.
-/

namespace AiDb

open Library

variable {read : BlockRead}

-- ---------------------------------------------------------------------------
-- Reading a table that may have unreadable blocks
-- ---------------------------------------------------------------------------

/-- Every block of the file is read as it was written, or not at all. -/
def SstFile.PartlyReadBy (f : SstFile) (read : BlockRead) : Prop :=
  ∀ b ∈ f.blocks, read b.handle = .ok b.entries ∨ ∃ e, read b.handle = .error e

theorem SstFile.ReadBy.partly {f : SstFile} (h : f.ReadBy read) : f.PartlyReadBy read :=
  fun b hb => .inl (h b hb)

theorem scanBlocks_isPrefix (h : ∀ b ∈ blocks, read b.handle = .ok b.entries ∨ ∃ e, read b.handle = .error e) :
    (scanBlocks read (indexOf blocks)).items <+: blocks.flatMap Block.entries ∧
      ((scanBlocks read (indexOf blocks)).fails = false →
        (scanBlocks read (indexOf blocks)).items = blocks.flatMap Block.entries) := by
  induction blocks with
  | nil => exact ⟨List.nil_prefix, fun _ => rfl⟩
  | cons b bs ih =>
    obtain ⟨hpre, hall⟩ := ih fun b' hb' => h b' (List.mem_cons_of_mem b hb')
    rw [indexOf, List.map_cons, List.flatMap_cons]
    simp only [scanBlocks]
    rcases h b List.mem_cons_self with hr | ⟨e, hr⟩
    · rw [hr]
      exact ⟨(List.prefix_append_right_inj _).mpr hpre, fun hf => congrArg _ (hall hf)⟩
    · rw [hr]
      exact ⟨List.nil_prefix, fun hf => by cases hf⟩

theorem scanBlocks_readBy (h : ∀ b ∈ blocks, read b.handle = .ok b.entries) :
    scanBlocks read (indexOf blocks) = ⟨blocks.flatMap Block.entries, false⟩ := by
  induction blocks with
  | nil => rfl
  | cons b bs ih =>
    have ih := ih fun b' hb' => h b' (List.mem_cons_of_mem b hb')
    simp only [indexOf, List.map_cons, scanBlocks, h b List.mem_cons_self] at ih ⊢
    rw [ih]
    rfl

namespace SstFile

variable {f : SstFile}

theorem WellFormed.scan_isPrefix (hf : f.WellFormed) (h : f.PartlyReadBy read) :
    (scanBlocks read f.index).items <+: f.entries := by
  rw [hf.index_eq]
  exact (scanBlocks_isPrefix h).1

theorem WellFormed.scan_all (hf : f.WellFormed) (h : f.PartlyReadBy read)
    (hok : (scanBlocks read f.index).fails = false) : (scanBlocks read f.index).items = f.entries := by
  rw [hf.index_eq] at hok ⊢
  exact (scanBlocks_isPrefix h).2 hok

theorem WellFormed.scan_readBy (hf : f.WellFormed) (h : f.ReadBy read) :
    scanBlocks read f.index = ⟨f.entries, false⟩ := by
  rw [hf.index_eq]
  exact scanBlocks_readBy h

theorem WellFormed.blocksNonempty (hf : f.WellFormed) (h : f.PartlyReadBy read) :
    BlocksNonempty read f.index := by
  intro e he hr
  rw [hf.index_eq] at he
  obtain ⟨b, hb, rfl⟩ := List.mem_map.mp he
  rcases h b hb with hok | ⟨err, herr⟩
  · rw [hok] at hr
    exact hf.nonempty b hb (Except.ok.inj hr)
  · rw [herr] at hr
    cases hr

end SstFile

namespace Compaction

-- ---------------------------------------------------------------------------
-- The first version of a key
-- ---------------------------------------------------------------------------

structure Opened (reads : Nat → BlockRead) (readers : List SSTableReader) (files : List SstFile) :
    Prop where
  length_eq : readers.length = files.length
  of : ∀ (i : Nat) (r : SSTableReader) (f : SstFile), readers[i]? = some r → files[i]? = some f → r.Of f
  wellFormed : ∀ f ∈ files, f.WellFormed
  read : ∀ (i : Nat) (f : SstFile), files[i]? = some f → f.PartlyReadBy (reads i)

variable {reads : Nat → BlockRead} {readers : List SSTableReader} {files : List SstFile} {i : Nat}

theorem Opened.file {r : SSTableReader} (h : Opened reads readers files) (hi : readers[i]? = some r) :
    ∃ f : SstFile, files[i]? = some f ∧ f.WellFormed ∧ r.indexBlock = f.index ∧ f.PartlyReadBy (reads i) := by
  have hlt : i < files.length := by
    rw [← h.length_eq]
    exact (List.getElem?_eq_some_iff.mp hi).1
  have hf : files[i]? = some files[i] := List.getElem?_eq_getElem hlt
  refine ⟨files[i], hf, h.wellFormed _ (List.getElem_mem hlt), ?_, h.read i _ hf⟩
  rw [h.of i r _ hi hf]

theorem Opened.reader {f : SstFile} (h : Opened reads readers files) (hi : files[i]? = some f) :
    ∃ r : SSTableReader, readers[i]? = some r ∧ r.indexBlock = f.index := by
  have hlt : i < readers.length := by
    rw [h.length_eq]
    exact (List.getElem?_eq_some_iff.mp hi).1
  have hr : readers[i]? = some readers[i] := List.getElem?_eq_getElem hlt
  exact ⟨_, hr, by rw [h.of i _ f hr hi]⟩

theorem Opened.inOrder (h : Opened reads readers files) : MergeIterator.InOrder reads readers where
  blocks i r hi := by
    obtain ⟨f, -, hwf, hindex, hread⟩ := h.file hi
    rw [hindex]
    exact hwf.blocksNonempty hread
  sorted i r hi := by
    obtain ⟨f, -, hwf, hindex, hread⟩ := h.file hi
    rw [hindex]
    exact hwf.ascending.sorted.sublist (hwf.scan_isPrefix hread).sublist

/-- Input `i` is the first that holds the key, with the value `v`. -/
structure FirstHolder (files : List SstFile) (key : Bytes) (i : Nat) (v : Value) : Prop where
  holds : ∃ f : SstFile, files[i]? = some f ∧ stored f.entries key = some v
  first : ∀ (j : Nat) (f : SstFile), j < i → files[j]? = some f → stored f.entries key = none

abbrev sources (reads : Nat → BlockRead) (readers : List SSTableReader) : Sources MergeEntry :=
  MergeIterator.sourcesFrom reads 0 readers

theorem Opened.sources_eq {f : SstFile} (h : Opened reads readers files) (hi : files[i]? = some f) :
    sources reads readers i = MergeIterator.tagged i (scanBlocks (reads i) f.index) := by
  obtain ⟨r, hr, hindex⟩ := h.reader hi
  simp [sources, MergeIterator.sourcesFrom, hr, hindex]

theorem Opened.mem_sources (h : Opened reads readers files) (hx : x ∈ (sources reads readers i).items) :
    x.iteratorIndex = i ∧ ∃ f : SstFile, files[i]? = some f ∧ stored f.entries x.entry.key = some x.entry.value := by
  obtain ⟨r, e, hr, he, rfl⟩ := MergeIterator.mem_sourcesFrom.mp hx
  obtain ⟨f, hf, hwf, hindex, hread⟩ := h.file hr
  rw [hindex] at he
  exact ⟨rfl, f, hf, hwf.ascending.stored_of_mem ((hwf.scan_isPrefix hread).subset he)⟩

theorem Opened.handed_out {f : SstFile} (h : Opened reads readers files) (hi : files[i]? = some f)
    (hord : (sources reads readers).Ordered MergeEntry.rank) (hs : stored f.entries key = some v)
    (htime : (sources reads readers).InTime MergeEntry.rank ⟨⟨key, v⟩, i⟩) :
    ⟨⟨key, v⟩, i⟩ ∈ (sources reads readers i).items := by
  have hwf := h.wellFormed f (List.mem_of_getElem? hi)
  have hread := h.read i f hi
  have hmem : ⟨key, v⟩ ∈ f.entries := mem_of_stored hs
  rw [h.sources_eq hi]
  refine List.mem_map.mpr ⟨⟨key, v⟩, ?_, rfl⟩
  cases hf : (scanBlocks (reads i) f.index).fails with
  | false =>
    rw [hwf.scan_all hread hf]
    exact hmem
  | true =>
    -- the key is below the last key handed out, so it was handed out as well
    obtain ⟨rest, hrest⟩ := hwf.scan_isPrefix hread
    cases hl : (scanBlocks (reads i) f.index).items.getLast? with
    | none =>
      have hnil := hord.fails_nonempty (i := i) (by rw [h.sources_eq hi]; exact hf)
      rw [h.sources_eq hi] at hnil
      exact absurd (by simp [MergeIterator.tagged, List.getLast?_eq_none_iff.mp hl]) hnil
    | some l =>
      have hlt := htime i ⟨l, i⟩ (by rw [h.sources_eq hi]; exact hf)
        (by rw [h.sources_eq hi]; simp [MergeIterator.tagged, hl])
      rw [← MergeEntry.before_iff] at hlt
      have hkey : key < l.key := by
        rcases hlt with hlt | ⟨-, hlt⟩
        · exact hlt
        · exact absurd hlt (lt_irrefl i)
      rw [← hrest] at hmem
      rcases List.mem_append.mp hmem with hmem | hmem
      · exact hmem
      · have hsorted := hwf.ascending.sorted
        rw [← hrest] at hsorted
        have := (List.pairwise_append.mp hsorted).2.2 l (List.mem_of_getLast? hl) _ hmem
        exact absurd hkey (not_lt.mpr (le_of_lt this))

theorem Opened.stored_collect (h : Opened reads readers files)
    (hnew : MergeIterator.new reads readers = .ok m) (hfuel : mergeFuel reads readers ≤ fuel)
    (hfirst : FirstHolder files key i v) :
    ((sources reads readers).InTime MergeEntry.rank ⟨⟨key, v⟩, i⟩ →
      stored (m.collect reads fuel) key = some v) ∧
    (¬(sources reads readers).InTime MergeEntry.rank ⟨⟨key, v⟩, i⟩ →
      stored (m.collect reads fuel) key = none) := by
  obtain ⟨out, hout, hsorted, hmem⟩ := MergeIterator.collect_spec h.inOrder hnew hfuel
  obtain ⟨f, hf, hst⟩ := hfirst.holds
  -- every entry of the key comes from an input at or after the first holder
  have hge : ∀ x ∈ out, x.entry.key = key → (⟨⟨key, v⟩, i⟩ : MergeEntry).rank ≤ x.rank := by
    intro x hx hkey
    obtain ⟨⟨j, hj⟩, -⟩ := (hmem x).mp hx
    obtain ⟨rfl, g, hg, hstored⟩ := h.mem_sources hj
    rw [← not_lt, ← MergeEntry.before_iff]
    rintro (hlt | ⟨-, hlt⟩)
    · exact absurd hkey (ne_of_lt hlt)
    · rw [hkey, hfirst.first _ g hlt hg] at hstored
      cases hstored
  rw [hout]
  constructor
  · intro htime
    have hx : (⟨⟨key, v⟩, i⟩ : MergeEntry) ∈ out :=
      (hmem _).mpr ⟨⟨i, h.handed_out hf (h.inOrder.ordered hnew) hst htime⟩, htime⟩
    cases hfind : out.find? fun x => x.entry.key = key with
    | none =>
      have := List.find?_eq_none.mp hfind _ hx
      simp at this
    | some y =>
      have hykey : y.entry.key = key := by simpa using List.find?_some hfind
      -- the first entry of the key has the least rank among them
      have hle : y.rank ≤ (⟨⟨key, v⟩, i⟩ : MergeEntry).rank := by
        obtain ⟨-, before, after, hsplit, hbefore⟩ := List.find?_eq_some_iff_append.mp hfind
        rw [hsplit] at hx hsorted
        rcases List.mem_append.mp hx with hx | hx
        · have := hbefore _ hx
          simp at this
        · rcases List.mem_cons.mp hx with hx | hx
          · rw [hx]
          · exact le_of_lt ((List.pairwise_cons.mp (List.pairwise_append.mp hsorted).2.1).1 _ hx)
      have hrank := le_antisymm hle (hge y (List.mem_of_find?_eq_some hfind) hykey)
      obtain ⟨⟨j, hj⟩, -⟩ := (hmem y).mp (List.mem_of_find?_eq_some hfind)
      obtain ⟨hyj, g, hg, hstored⟩ := h.mem_sources hj
      have hji : j = i := by rw [← hyj]; exact (Prod.mk.inj hrank).2
      subst hji
      rw [hf] at hg
      cases hg
      rw [hykey, hst] at hstored
      simp only [stored, List.find?_map, Function.comp_def, hfind, Option.map_some]
      exact hstored.symm
  · intro hlate
    rw [stored_eq_none]
    intro e he hkey
    obtain ⟨x, hx, rfl⟩ := List.mem_map.mp he
    refine hlate fun j y hfails hlast => ?_
    exact lt_of_le_of_lt (hge x hx hkey) (((hmem x).mp hx).2 j y hfails hlast)

theorem Opened.inTime_of_readBy (h : Opened reads readers files)
    (hall : ∀ (i : Nat) (f : SstFile), files[i]? = some f → f.ReadBy (reads i)) (x : MergeEntry) :
    (sources reads readers).InTime MergeEntry.rank x := by
  intro j y hfails _
  cases hj : readers[j]? with
  | none => simp [sources, MergeIterator.sourcesFrom, hj] at hfails
  | some r =>
    obtain ⟨f, hf, hwf, -, -⟩ := h.file hj
    rw [h.sources_eq hf, hwf.scan_readBy (hall j f hf)] at hfails
    cases hfails

theorem findSome_stored (files : List SstFile) (key : Bytes) :
    match files.findSome? fun f => stored f.entries key with
    | some v => ∃ i, FirstHolder files key i v
    | none => ∀ f ∈ files, stored f.entries key = none := by
  induction files with
  | nil => simp
  | cons f fs ih =>
    rw [List.findSome?_cons]
    cases hf : stored f.entries key with
    | some v => exact ⟨0, ⟨f, rfl, hf⟩, fun j _ hj => absurd hj (Nat.not_lt_zero j)⟩
    | none =>
      dsimp only
      cases hfs : fs.findSome? fun f => stored f.entries key with
      | none =>
        rw [hfs] at ih
        intro g hg
        rcases List.mem_cons.mp hg with rfl | hg
        · exact hf
        · exact ih g hg
      | some v =>
        rw [hfs] at ih
        obtain ⟨i, hholds, hfirst⟩ := ih
        refine ⟨i + 1, by simpa using hholds, ?_⟩
        rintro (_ | j) g hj hg
        · cases hg
          exact hf
        · exact hfirst j g (by omega) (by simpa using hg)

theorem Opened.stored_collect_readBy (h : Opened reads readers files)
    (hall : ∀ (i : Nat) (f : SstFile), files[i]? = some f → f.ReadBy (reads i))
    (hnew : MergeIterator.new reads readers = .ok m) (hfuel : mergeFuel reads readers ≤ fuel) :
    stored (m.collect reads fuel) key =
      files.findSome? fun f => stored f.entries key := by
  have hfind := findSome_stored files key
  cases hv : files.findSome? fun f => stored f.entries key with
  | some v =>
    rw [hv] at hfind
    obtain ⟨i, hfirst⟩ := hfind
    exact (h.stored_collect hnew hfuel hfirst).1 (h.inTime_of_readBy hall _)
  | none =>
    rw [hv] at hfind
    obtain ⟨out, hout, -, hmem⟩ := MergeIterator.collect_spec h.inOrder hnew hfuel
    rw [hout, stored_eq_none]
    intro e he hkey
    obtain ⟨x, hx, rfl⟩ := List.mem_map.mp he
    obtain ⟨⟨j, hj⟩, -⟩ := (hmem x).mp hx
    obtain ⟨-, g, hg, hstored⟩ := h.mem_sources hj
    rw [hkey, hfind g (List.mem_of_getElem? hg)] at hstored
    cases hstored

theorem Opened.new_ok (h : Opened reads readers files)
    (hall : ∀ (i : Nat) (f : SstFile), files[i]? = some f → f.ReadBy (reads i)) :
    ∃ m, MergeIterator.new reads readers = .ok m := by
  cases hnew : MergeIterator.new reads readers with
  | ok m => exact ⟨m, rfl⟩
  | error e =>
    obtain ⟨i, r, hi, hscan⟩ :=
      (MergeIterator.newFrom_error 0 (by simpa using h.inOrder.blocks)).mp ⟨e, hnew⟩
    obtain ⟨f, hf, hwf, hindex, -⟩ := h.file hi
    rw [Nat.zero_add, hindex, hwf.scan_readBy (hall i f hf)] at hscan
    exact absurd (congrArg Source.fails hscan) Bool.false_ne_true

theorem Opened.mem_collect (h : Opened reads readers files)
    (hnew : MergeIterator.new reads readers = .ok m) (hfuel : mergeFuel reads readers ≤ fuel)
    (he : e ∈ m.collect reads fuel) : ∃ f ∈ files, e ∈ f.entries := by
  obtain ⟨out, hout, -, hmem⟩ := MergeIterator.collect_spec h.inOrder hnew hfuel
  rw [hout] at he
  obtain ⟨x, hx, rfl⟩ := List.mem_map.mp he
  obtain ⟨⟨j, hj⟩, -⟩ := (hmem x).mp hx
  obtain ⟨-, g, hg, hstored⟩ := h.mem_sources hj
  exact ⟨g, List.mem_of_getElem? hg, mem_of_stored hstored⟩

theorem Opened.collect_sorted (h : Opened reads readers files)
    (hnew : MergeIterator.new reads readers = .ok m) (hfuel : mergeFuel reads readers ≤ fuel) :
    (m.collect reads fuel).Pairwise fun a b => a.key ≤ b.key := by
  obtain ⟨out, hout, hsorted, -⟩ := MergeIterator.collect_spec h.inOrder hnew hfuel
  rw [hout]
  refine List.pairwise_map.mpr (hsorted.imp fun hab => ?_)
  rw [← MergeEntry.before_iff] at hab
  rcases hab with hab | ⟨hab, -⟩
  · exact le_of_lt hab
  · exact le_of_eq hab

-- ---------------------------------------------------------------------------
-- Survivors
-- ---------------------------------------------------------------------------

def kept (outputLevel : Nat) (v : Option Value) : Option Value :=
  if outputLevel > 0 then live v else v

theorem mem_survivors (h : e ∈ survivors lvl last es) : e ∈ es ∧ (lvl > 0 → e.value.bytes ≠ []) := by
  induction es generalizing last with
  | nil => cases h
  | cons x xs ih =>
    simp only [survivors] at h
    split_ifs at h with hlast htomb
    · exact (ih h).imp_left (List.mem_cons_of_mem x)
    · exact (ih h).imp_left (List.mem_cons_of_mem x)
    · rcases List.mem_cons.mp h with rfl | h
      · exact ⟨List.mem_cons_self, fun hl hv => htomb ⟨hl, hv⟩⟩
      · exact (ih h).imp_left (List.mem_cons_of_mem x)

theorem mem_discarded (h : k ∈ discarded lvl last es) : lvl > 0 ∧ ∃ e ∈ es, e.key = k ∧ e.value.bytes = [] := by
  induction es generalizing last with
  | nil => cases h
  | cons x xs ih =>
    have hcons : (lvl > 0 ∧ ∃ e ∈ xs, e.key = k ∧ e.value.bytes = []) →
        lvl > 0 ∧ ∃ e ∈ x :: xs, e.key = k ∧ e.value.bytes = [] := by
      rintro ⟨hl, e, he, hk⟩
      exact ⟨hl, e, List.mem_cons_of_mem x he, hk⟩
    simp only [discarded] at h
    split_ifs at h with hlast htomb
    · exact hcons (ih h)
    · rcases List.mem_cons.mp h with rfl | h
      · exact ⟨htomb.1, x, List.mem_cons_self, rfl, htomb.2⟩
      · exact hcons (ih h)
    · exact hcons (ih h)

/-- Keys ascend, and none is below `last`. -/
def From (last : Option Bytes) (es : List Entry) : Prop :=
  (es.Pairwise fun a b => a.key ≤ b.key) ∧ ∀ l, last = some l → ∀ e ∈ es, l ≤ e.key

theorem From.tail (h : From last (x :: xs)) : From (some x.key) xs := by
  obtain ⟨hx, hxs⟩ := List.pairwise_cons.mp h.1
  refine ⟨hxs, ?_⟩
  rintro l ⟨⟩ e he
  exact hx e he

theorem survivors_key_ne (h : From last es) (he : e ∈ survivors lvl last es) : last ≠ some e.key := by
  induction es generalizing last with
  | nil => cases he
  | cons x xs ih =>
    simp only [survivors] at he
    have hrest : e ∈ survivors lvl (some x.key) xs → last ≠ some e.key := by
      rintro hes rfl
      -- `e` is after `x`, and `x` is not before the last key
      refine ih h.tail hes (congrArg some (le_antisymm ?_ ?_))
      · exact h.tail.2 _ rfl e (mem_survivors hes).1
      · exact h.2 _ rfl x List.mem_cons_self
    split_ifs at he with hlast htomb
    · exact hrest (hlast ▸ he)
    · exact hrest he
    · rcases List.mem_cons.mp he with rfl | he
      · exact hlast
      · exact hrest he

theorem discarded_key_ne (h : From last es) (hk : k ∈ discarded lvl last es) : last ≠ some k := by
  induction es generalizing last with
  | nil => cases hk
  | cons x xs ih =>
    simp only [discarded] at hk
    have hrest : k ∈ discarded lvl (some x.key) xs → last ≠ some k := by
      rintro hxs rfl
      obtain ⟨-, e, he, rfl, -⟩ := mem_discarded hxs
      refine ih h.tail hxs (congrArg some (le_antisymm ?_ ?_))
      · exact h.tail.2 _ rfl e he
      · exact h.2 _ rfl x List.mem_cons_self
    split_ifs at hk with hlast htomb
    · exact hrest (hlast ▸ hk)
    · rcases List.mem_cons.mp hk with rfl | hk
      · exact hlast
      · exact hrest hk
    · exact hrest hk

theorem stored_survivors (h : From last es) (hk : last ≠ some k) :
    stored (survivors lvl last es) k = kept lvl (stored es k) := by
  induction es generalizing last with
  | nil => simp [survivors, stored, kept]
  | cons x xs ih =>
    simp only [survivors]
    by_cases hxk : x.key = k
    · subst hxk
      have hnone : stored (survivors lvl (some x.key) xs) x.key = none := by
        rw [stored_eq_none]
        intro e he heq
        exact survivors_key_ne h.tail he (by rw [heq])
      have hx : stored (x :: xs) x.key = some x.value := by simp [stored]
      rw [if_neg hk, hx]
      split_ifs with htomb
      · rw [hnone]
        simp [kept, htomb.1, htomb.2]
      · have hkeep : kept lvl (some x.value) = some x.value := by
          unfold kept
          split_ifs with hl
          · simp [show x.value.bytes ≠ [] from fun hv => htomb ⟨hl, hv⟩]
          · rfl
        simp [stored, hkeep]
    · have hx : stored (x :: xs) k = stored xs k := by simp [stored, hxk]
      rw [hx]
      split_ifs with hlast
      · exact ih (hlast ▸ h.tail) hk
      · exact ih h.tail (by simpa using hxk)
      · rw [← ih h.tail (by simpa using hxk)]
        simp [stored, hxk]

theorem survivors_sorted (h : From last es) : (survivors lvl last es).Pairwise fun a b => a.key < b.key := by
  induction es generalizing last with
  | nil => exact .nil
  | cons x xs ih =>
    simp only [survivors]
    split_ifs with hlast
    · exact ih (hlast ▸ h.tail)
    · exact ih h.tail
    · refine List.pairwise_cons.mpr ⟨fun e he => ?_, ih h.tail⟩
      refine lt_of_le_of_ne (h.tail.2 _ rfl e (mem_survivors he).1) fun heq => ?_
      exact survivors_key_ne h.tail he (congrArg some heq)

/-- The tombstones that are dropped are those that come first among the versions of their key. -/
theorem mem_discarded_iff (h : From last es) (hk : last ≠ some k) :
    k ∈ discarded lvl last es ↔ lvl > 0 ∧ ∃ v, stored es k = some v ∧ v.bytes = [] := by
  induction es generalizing last with
  | nil => simp [discarded, stored]
  | cons x xs ih =>
    simp only [discarded]
    by_cases hxk : x.key = k
    · subst hxk
      have hx : stored (x :: xs) x.key = some x.value := by simp [stored]
      have hnot : x.key ∉ discarded lvl (some x.key) xs := fun hmem => discarded_key_ne h.tail hmem rfl
      rw [if_neg hk, hx]
      split_ifs with htomb
      · simp [htomb.1, htomb.2]
      · simpa [hnot] using htomb
    · have hx : stored (x :: xs) k = stored xs k := by simp [stored, hxk]
      rw [hx]
      split_ifs with hlast
      · exact ih (hlast ▸ h.tail) hk
      · rw [List.mem_cons, or_iff_right (Ne.symm hxk)]
        exact ih h.tail (by simpa using hxk)
      · exact ih h.tail (by simpa using hxk)

theorem Opened.survivors_ascending (h : Opened reads readers files)
    (hnew : MergeIterator.new reads readers = .ok m) (hfuel : mergeFuel reads readers ≤ fuel) :
    Ascending (survivors lvl none (m.collect reads fuel)) where
  sorted := survivors_sorted ⟨h.collect_sorted hnew hfuel, nofun⟩
  key_ne e he := by
    obtain ⟨f, hf, hef⟩ := h.mem_collect hnew hfuel (mem_survivors he).1
    exact (h.wellFormed f hf).ascending.key_ne e hef

end Compaction

end AiDb
