import AiDb.Sstable.Index
import AiDb.Sstable.Restarts

/-!
# The search of an index

`find_block` is the search from the front, as long as every key fits its length field and
the sums of the bounds of the search by halves are below `2 ^ 32`. A key whose length does
not fit is cut short when it is read, and what follows it is taken for its handle; a sum
that does not fit is an overflow.
-/

namespace AiDb.Sstable

open Library (Outcome)

def IndexBlockBuilder.addAll (index : Index) : IndexBlockBuilder :=
  index.foldl (fun b e => b.addEntry e.1 e.2) .new

theorem IndexBlockBuilder.builder_addAll (index : Index) :
    (addAll index).builder = (BlockBuilder.new 1).addAll (index.map indexEntry) := by
  induction index using List.reverseRecOn with
  | nil => rfl
  | append_singleton index e ih =>
    rw [List.map_append, BlockBuilder.addAll_append, ← ih, addAll, List.foldl_append]
    rfl

/-- The keys of an index: strictly increasing, and none of them empty. -/
structure Increasing (index : Index) : Prop where
  sorted : index.Pairwise fun a b => a.1 < b.1
  key_ne : ∀ e ∈ index, e.1 ≠ []

theorem Increasing.ascending (h : Increasing index) : Ascending (index.map indexEntry) where
  sorted := List.pairwise_map.mpr h.sorted
  key_ne := List.forall_mem_map.mpr h.key_ne

theorem numRestarts_index_le (index : Index) : (blockOf 1 (index.map indexEntry)).numRestarts ≤ max 1 index.length := by
  cases index with
  | nil => exact Nat.le_refl 1
  | cons e index =>
    rw [List.map_cons, IndexBlock.numRestarts_blockOf, List.length_cons, List.length_map]
    exact Nat.le_max_right _ _

theorem IndexBlock.new_addAll (index : Index) (hmany : index.length < 2 ^ 32) :
    IndexBlock.new (IndexBlockBuilder.addAll index).finish = .ok ⟨blockOf 1 (index.map indexEntry)⟩ := by
  have hrestarts : ((BlockBuilder.new 1).addAll (index.map indexEntry)).restarts.length < 2 ^ 32 :=
    lt_of_le_of_lt (numRestarts_index_le index) (by omega)
  have hnew := BlockBuilder.new_finish _ hrestarts
  simp only [IndexBlock.new, IndexBlockBuilder.finish, IndexBlockBuilder.builder_addAll, hnew]
  rfl

namespace IndexBlock

/-- Where every key in front of the right bound is below `key`, the left bound moves up to
the right one, and beyond `2 ^ 31` entries the last sum of the two does not fit. -/
theorem searchRestarts_stopped {index : IndexBlock} (hmany : 2 ^ 31 < right) (hlt : left < right)
    (hbelow : ∀ n < right, (index.block.iter.seekToFirst.skip n).2.valid = true ∧
      (index.block.iter.seekToFirst.skip n).2.key < key) :
    index.searchRestarts key left right = .stopped := by
  induction hd : right - left using Nat.strong_induction_on generalizing left with
  | _ d ih =>
    rw [searchRestarts, dif_pos hlt]
    by_cases hsum : left + right < 2 ^ 32
    · obtain ⟨hvalid, hkey⟩ := hbelow ((left + right) / 2) (by omega)
      rw [if_pos hsum]
      simp only [hvalid, hkey, Bool.not_true, Bool.false_eq_true, if_false, if_true]
      exact ih _ (by omega) (by omega) rfl
    · exact if_neg hsum

theorem findBlock_stopped {index : Index} (hkeys : Increasing index) (hlong : ∀ e ∈ index, e.1.length < 2 ^ 32)
    (hmany : 2 ^ 31 < index.length) :
    (⟨blockOf 1 (index.map indexEntry)⟩ : IndexBlock).findBlock (lastKeyOf (index.map indexEntry)) = .stopped := by
  have hfits : ∀ e ∈ index.map indexEntry, Fits e := by
    intro e he
    obtain ⟨x, hx, rfl⟩ := List.mem_map.mp he
    exact ⟨hlong x hx, by simp [indexEntry]⟩
  have hne : index.map indexEntry ≠ [] := by
    rintro hnil
    rw [List.map_eq_nil_iff.mp hnil] at hmany
    exact absurd hmany (Nat.not_lt_zero _)
  have hnum : (blockOf 1 (index.map indexEntry)).numRestarts = index.length := by
    obtain ⟨e, rest, rfl⟩ := List.exists_cons_of_ne_nil (List.map_eq_nil_iff.not.mp hne)
    rw [List.map_cons, numRestarts_blockOf, List.length_cons, List.length_map, List.length_cons]
  have hbelow : ∀ n < index.length, ((blockOf 1 (index.map indexEntry)).iter.seekToFirst.skip n).2.valid = true ∧
      ((blockOf 1 (index.map indexEntry)).iter.seekToFirst.skip n).2.key < lastKeyOf (index.map indexEntry) := by
    intro n hn
    obtain ⟨hvalid, hkey⟩ := skip_key hfits hne (n := n) (by simpa using hn.le)
    exact ⟨hvalid, hkey ▸ hkeys.ascending.lastKeyOf_take_lt (by simpa using hn)⟩
  have hstop : (⟨blockOf 1 (index.map indexEntry)⟩ : IndexBlock).searchRestarts (lastKeyOf (index.map indexEntry)) 0
      index.length = .stopped := searchRestarts_stopped hmany (by omega) hbelow
  unfold findBlock
  simp only [hnum]
  rw [if_neg (by omega), hstop, Outcome.stopped_bind]

/-- The search of an index by halves finds what a search from the front finds, the first
entry whose key is not below the target, or else the last entry, exactly as long as the
sums of its bounds fit. -/
theorem findBlock_linear_iff (index : Index) (hkeys : Increasing index) (hfit : ∀ e ∈ index, e.2.Fits)
    (hlong : ∀ e ∈ index, e.1.length < 2 ^ 32) (hmany : index.length < 2 ^ 32) :
    ((∀ pre e post, index = pre ++ e :: post → (IndexBlockBuilder.addAll pre).builder.Takes e.1) ∧
      ∃ block, IndexBlock.new (IndexBlockBuilder.addAll index).finish = .ok block ∧
        ∀ target, block.findBlock target =
          .ok (((index.find? fun e => target ≤ e.1).or index.getLast?).map Prod.snd)) ↔
      index.length ≤ 2 ^ 31 := by
  have hasc := hkeys.ascending
  refine ⟨?_, fun hfew => ⟨?_, ⟨blockOf 1 (index.map indexEntry)⟩, new_addAll index hmany, fun target => ?_⟩⟩
  · rintro ⟨-, block, hnew, hfound⟩
    obtain rfl : _ = block := Except.ok.inj ((new_addAll index hmany).symm.trans hnew)
    by_contra hover
    have hstop := hfound (lastKeyOf (index.map indexEntry))
    rw [findBlock_stopped hkeys hlong (not_le.mp hover)] at hstop
    cases hstop
  · rintro pre e post rfl
    rw [IndexBlockBuilder.builder_addAll]
    rw [List.map_append, List.map_cons] at hasc
    exact BlockBuilder.takes_of_ascending 1 hasc
  · rw [findBlock_eq hasc hlong hfit hfew, AiDb.findBlock]
    cases index.find? fun e => decide (target ≤ e.1) with
    | none => simp
    | some e => simp

theorem findBlock_linear_iff_two : ∃ block,
    IndexBlock.new (IndexBlockBuilder.addAll [([97], ⟨0, 10⟩), ([98], ⟨10, 20⟩)]).finish = .ok block ∧
      block.findBlock [97, 0] = .ok (some ⟨10, 20⟩) ∧ block.findBlock [99] = .ok (some ⟨10, 20⟩) := by
  obtain ⟨-, block, hnew, hfound⟩ := (findBlock_linear_iff [([97], ⟨0, 10⟩), ([98], ⟨10, 20⟩)] ⟨by decide, by decide⟩
    (by simp [BlockHandle.Fits]) (by simp) (by simp)).mpr (by simp)
  exact ⟨block, hnew, (hfound [97, 0]).trans (by decide +kernel), (hfound [99]).trans (by decide +kernel)⟩

end IndexBlock

-- ---------------------------------------------------------------------------
-- A key that does not fit
-- ---------------------------------------------------------------------------

theorem BlockBuilder.shared_new (interval : Nat) (key : Bytes) : (new interval).shared key = 0 := by
  simp [shared, new]

/-- Of a first key that is too long only the rest of its length modulo `2 ^ 32` is read as
the key, and the value is taken from what comes behind that. -/
theorem BlockIterator.advance_first_long (interval : Nat) (es : List Entry) (hlong : 2 ^ 32 ≤ e.key.length)
    (hv : e.value.bytes.length < 2 ^ 32) :
    (blockOf interval (e :: es)).iter.seekToFirst.advance.1 = true ∧
      (blockOf interval (e :: es)).iter.seekToFirst.advance.2.key = e.key.take (e.key.length % 2 ^ 32) ∧
      (blockOf interval (e :: es)).iter.seekToFirst.advance.2.value =
        (e.key.drop (e.key.length % 2 ^ 32)).take e.value.bytes.length := by
  obtain ⟨hstands, hvalid⟩ := seekToFirst_stands interval (e :: es)
  generalize (blockOf interval (e :: es)).iter.seekToFirst = it at hstands hvalid ⊢
  obtain ⟨tail, htail⟩ := ((BlockBuilder.new interval).add e.key e.value.bytes).buffer_addAll es
  have hbuffer : ((BlockBuilder.new interval).addAll (e :: es)).buffer =
      (BlockBuilder.new interval).entry e.key e.value.bytes ++ tail := htail
  have hvalue : e.value.bytes.length % 2 ^ 32 = e.value.bytes.length := Nat.mod_eq_of_lt hv
  have hcur : it.current < it.block.restartOffset := by
    rw [hstands.current, hstands.block]
    show 0 < List.length (BlockBuilder.buffer _)
    rw [List.nil_append, hbuffer, List.length_append, BlockBuilder.length_entry]
    omega
  obtain ⟨rest, hrest⟩ : ∃ rest, it.block.data.drop it.current =
      leBytes 4 0 ++ leBytes 4 e.key.length ++ leBytes 4 e.value.bytes.length ++ (e.key ++ rest) := by
    rw [hstands.current, hstands.block]
    show ∃ rest, List.drop 0 (BlockBuilder.finish _) = _
    rw [List.nil_append, BlockBuilder.finish, hbuffer, BlockBuilder.entry, BlockBuilder.shared_new]
    refine ⟨e.value.bytes ++ (tail ++ (((BlockBuilder.new interval).addAll (e :: es)).restarts.flatMap (leBytes 4) ++
      leBytes 4 ((BlockBuilder.new interval).addAll (e :: es)).restarts.length)), ?_⟩
    simp
  have hparse := parseNextEntry_fields hcur hrest (by rw [hvalue, List.length_append]; omega)
  have hadv : it.advance = (true, it.parseNextEntry) := by
    rw [advance, if_pos (by simpa using hvalid), hparse]
  -- the key is cut inside itself, and so is the value
  have hle : e.key.length % 2 ^ 32 ≤ e.key.length := Nat.mod_le _ _
  have hroom : e.value.bytes.length ≤ (e.key.drop (e.key.length % 2 ^ 32)).length := by
    rw [List.length_drop]
    omega
  rw [hadv, hparse]
  refine ⟨rfl, ?_, ?_⟩
  · show it.key.take 0 ++ _ = _
    rw [List.take_zero, List.nil_append, List.take_append_of_le_length hle]
  · show ((e.key ++ rest).drop _).take _ = _
    rw [hvalue, List.drop_append_of_le_length hle, List.take_append_of_le_length hroom]

namespace IndexBlock

theorem searchRestarts_nil (index : IndexBlock) (left right : Nat) (hmany : left + right < 2 ^ 32) :
    index.searchRestarts [] left right = .ok left := by
  induction hd : right - left using Nat.strong_induction_on generalizing right with
  | _ d ih =>
    rw [searchRestarts]
    split
    · have hmid := ih ((left + right) / 2 - left) (by omega) ((left + right) / 2) (by omega) rfl
      simp [hmid]
    · rfl

theorem findBlock_nil_long (e : Bytes × BlockHandle) (index : Index) (hlong : 2 ^ 32 ≤ e.1.length)
    (hmany : (e :: index).length < 2 ^ 32) :
    (⟨blockOf 1 ((e :: index).map indexEntry)⟩ : IndexBlock).findBlock [] =
      .lift ((BlockHandle.decode ((e.1.drop (e.1.length % 2 ^ 32)).take 16)).map some) := by
  have hv : (indexEntry e).value.bytes.length = 16 := BlockHandle.length_encode e.2
  have hfits : (indexEntry e).value.bytes.length < 2 ^ 32 := by
    rw [hv]
    decide
  have hname : (indexEntry e).key = e.1 := rfl
  obtain ⟨hadv, -, hvalue⟩ := BlockIterator.advance_first_long 1 (index.map indexEntry) hlong hfits
  rw [hv, hname] at hvalue
  have hnum : (blockOf 1 ((e :: index).map indexEntry)).numRestarts = (e :: index).length := by
    rw [List.map_cons, numRestarts_blockOf, List.length_cons, List.length_map, List.length_cons]
  unfold findBlock
  simp only [hnum]
  rw [if_neg (by simp), searchRestarts_nil _ _ _ (by omega), Outcome.ok_bind]
  simp only [Nat.zero_sub, BlockIterator.skip, if_true]
  rw [List.map_cons, BlockIterator.visited, dif_pos hadv, searchFrom, hvalue]
  cases BlockHandle.decode ((e.1.drop (e.1.length % 2 ^ 32)).take 16) with
  | error err => rfl
  | ok handle => exact congrArg Outcome.lift (if_pos (not_lt.mp (List.not_lt_nil _)))

/-- An index of one key of `2 ^ 32` zero bytes: its handle is read as sixteen zero bytes. -/
theorem not_findBlock_linear : ¬∀ index : Index, Increasing index → (∀ e ∈ index, e.2.Fits) →
    ∃ block, IndexBlock.new (IndexBlockBuilder.addAll index).finish = .ok block ∧
      ∀ target, block.findBlock target =
        .ok (((index.find? fun e => target ≤ e.1).or index.getLast?).map Prod.snd) := by
  intro h
  obtain ⟨n, hmod, hle⟩ : ∃ n, n % 2 ^ 32 = 0 ∧ 2 ^ 32 ≤ n := ⟨2 ^ 32, Nat.mod_self _, le_refl _⟩
  generalize hkey : List.replicate n (0 : UInt8) = key at *
  have hlen : key.length = n := by rw [← hkey, List.length_replicate]
  have hcut : (key.drop (key.length % 2 ^ 32)).take 16 = List.replicate 16 0 := by
    rw [hlen, hmod, List.drop_zero, ← hkey, List.take_replicate, Nat.min_eq_left (by omega)]
  have hne : key ≠ [] := by
    rintro rfl
    simp at hlen
    omega
  obtain ⟨block, hnew, hfound⟩ := h [(key, ⟨0, 100⟩)] ⟨by simp, by simpa using hne⟩ (by simp [BlockHandle.Fits])
  obtain rfl : _ = block := Except.ok.inj ((new_addAll _ (by simp)).symm.trans hnew)
  have hdecode : BlockHandle.decode (List.replicate 16 0) = .ok ⟨0, 0⟩ := by decide
  have hnil := hfound []
  rw [findBlock_nil_long _ _ (hlen ▸ hle) (by simp), hcut, hdecode] at hnil
  have hleast : [] ≤ key := not_lt.mp (List.not_lt_nil _)
  simp [Except.map, hleast] at hnil

end IndexBlock

end AiDb.Sstable
