import AiDb.Sstable.Block

/-!
# Restart points

Every `interval` entries the builder notes where it is and cuts the next key against
nothing. So an iterator can begin there with an empty key, and comes by all the entries
from there on.
-/

namespace AiDb.Sstable

namespace BlockBuilder

def offsetAfter (interval : Nat) (es : List Entry) (n : Nat) : Nat := ((new interval).addAll (es.take n)).buffer.length

/-- The restart points of a builder with these entries, and what its counter counts. -/
structure Spaced (b : BlockBuilder) (interval : Nat) (es : List Entry) : Prop where
  pos : 0 < b.restarts.length
  count : b.counter + (b.restarts.length - 1) * interval = es.length
  counter_le : b.counter ≤ interval
  counter_pos : es ≠ [] → 0 < b.counter
  restarts : ∀ r < b.restarts.length, b.restarts[r]? = some (offsetAfter interval es (r * interval))

theorem offsetAfter_append (h : n ≤ es.length) (more : List Entry) :
    offsetAfter interval (es ++ more) n = offsetAfter interval es n := by
  simp [offsetAfter, List.take_append_of_le_length h]

theorem Spaced.mul_le {b : BlockBuilder} (h : b.Spaced interval es) (hr : r < b.restarts.length) :
    r * interval ≤ es.length := by
  have hle : r * interval ≤ (b.restarts.length - 1) * interval := Nat.mul_le_mul_right _ (by omega)
  have := h.count
  omega

theorem Spaced.mul_lt {b : BlockBuilder} (h : b.Spaced interval es) (hr : r < b.restarts.length) (hne : es ≠ []) :
    r * interval < es.length := by
  have hle : r * interval ≤ (b.restarts.length - 1) * interval := Nat.mul_le_mul_right _ (by omega)
  have := h.count
  have := h.counter_pos hne
  omega

theorem Spaced.add {b : BlockBuilder} (h : b.Spaced interval es) (hb : b = (new interval).addAll es) (hi : 1 ≤ interval)
    (e : Entry) : (b.add e.key e.value.bytes).Spaced interval (es ++ [e]) := by
  have hinterval : b.blockRestartInterval = interval := by rw [hb, interval_addAll]; rfl
  have hcount := h.count
  have hpos := h.pos
  have hkept : ∀ r < b.restarts.length, b.restarts[r]? = some (offsetAfter interval (es ++ [e]) (r * interval)) :=
    fun r hr => by rw [offsetAfter_append (h.mul_le hr), h.restarts r hr]
  by_cases hrestart : b.counter ≥ interval
  · -- the counter is full: the entry starts anew where the buffer ends
    have hfull : b.restarts.length * interval = es.length := by
      have := h.counter_le
      obtain ⟨m, hm⟩ := Nat.exists_eq_add_of_lt hpos
      rw [hm] at hcount ⊢
      simp only [Nat.zero_add, Nat.add_sub_cancel] at hcount ⊢
      rw [Nat.succ_mul]
      omega
    have hrestarts : (b.add e.key e.value.bytes).restarts = b.restarts ++ [b.buffer.length] := by
      simp [BlockBuilder.add, hinterval, hrestart]
    have hcounter : (b.add e.key e.value.bytes).counter = 1 := by simp [BlockBuilder.add, hinterval, hrestart]
    refine ⟨by simp [hrestarts], ?_, by omega, fun _ => by omega, fun r hr => ?_⟩
    · simp [hrestarts, hcounter, hfull, Nat.add_comm]
    · rw [hrestarts, List.length_append, List.length_singleton] at hr
      rw [hrestarts]
      rcases Nat.lt_or_ge r b.restarts.length with hlt | hge
      · rw [List.getElem?_append_left hlt, hkept r hlt]
      · obtain rfl : r = b.restarts.length := by omega
        rw [hfull, offsetAfter_append (le_refl _)]
        simp [offsetAfter, ← hb]
  · have hrestarts : (b.add e.key e.value.bytes).restarts = b.restarts := by simp [BlockBuilder.add, hinterval, hrestart]
    have hcounter : (b.add e.key e.value.bytes).counter = b.counter + 1 := by
      simp [BlockBuilder.add, hinterval, hrestart]
    refine ⟨by rwa [hrestarts], ?_, by omega, fun _ => by omega, fun r hr => ?_⟩
    · rw [hrestarts, hcounter, List.length_append, List.length_singleton]
      omega
    · rw [hrestarts] at hr ⊢
      exact hkept r hr

theorem spaced_addAll (hi : 1 ≤ interval) (es : List Entry) : ((new interval).addAll es).Spaced interval es := by
  induction es using List.reverseRecOn with
  | nil =>
    refine ⟨Nat.zero_lt_one, by simp [new], Nat.zero_le _, fun h => absurd rfl h, fun r hr => ?_⟩
    obtain rfl : r = 0 := by simpa [new] using hr
    simp [new, offsetAfter]
  | append_singleton es e ih =>
    rw [addAll_append]
    exact ih.add rfl hi e

theorem shared_at_restart {es : List Entry} (hi : 1 ≤ interval) (h : r * interval ≤ es.length) (key : Bytes) :
    ((new interval).addAll (es.take (r * interval))).shared key = 0 := by
  have hspaced := spaced_addAll hi (es.take (r * interval))
  have hlastKey := lastKey_addAll interval (es.take (r * interval))
  have hinterval : ((new interval).addAll (es.take (r * interval))).blockRestartInterval = interval := by
    rw [interval_addAll]
    rfl
  generalize (new interval).addAll (es.take (r * interval)) = b at hspaced hlastKey hinterval ⊢
  unfold shared
  rw [hinterval]
  split_ifs with hfull hlast
  · rfl
  · -- the counter is neither full nor at its start, though it counts a multiple of the interval
    exfalso
    have hne : es.take (r * interval) ≠ [] := by
      rintro hnil
      rw [hnil] at hlastKey
      exact hlast hlastKey
    have hcounter := hspaced.counter_pos hne
    have hcount := hspaced.count
    rw [List.length_take, Nat.min_eq_left h] at hcount
    have hmod : b.counter % interval = 0 := by
      have hm := congrArg (· % interval) hcount
      simpa using hm
    rw [Nat.mod_eq_of_lt (by omega)] at hmod
    omega
  · rfl

theorem flatMap_leBytes_drop (ns : List Nat) (r : Nat) (h : ns[r]? = some n) :
    ∃ rest, (ns.flatMap (leBytes 4)).drop (r * 4) = leBytes 4 n ++ rest := by
  induction ns generalizing r with
  | nil => simp at h
  | cons m ns ih =>
    cases r with
    | zero =>
      obtain rfl : m = n := by simpa using h
      exact ⟨ns.flatMap (leBytes 4), by simp⟩
    | succ r =>
      obtain ⟨rest, hrest⟩ := ih r (by simpa using h)
      refine ⟨rest, ?_⟩
      rw [List.flatMap_cons, Nat.succ_mul, Nat.add_comm, ← List.drop_drop, List.drop_left' length_leBytes, hrest]

theorem getRestartPoint_eq (b : BlockBuilder) (h : b.restarts[r]? = some n) (hn : n < 2 ^ 32) :
    (⟨b.finish, b.buffer.length, b.restarts.length⟩ : Block).getRestartPoint r = n := by
  obtain ⟨rest, hrest⟩ := flatMap_leBytes_drop b.restarts r h
  have hlt : r * 4 ≤ (b.restarts.flatMap (leBytes 4)).length := by
    have := (List.getElem?_eq_some_iff.mp h).1
    simp [List.length_flatMap]
    omega
  unfold Block.getRestartPoint finish
  rw [List.append_assoc, ← List.drop_drop, List.drop_left, List.drop_append_of_le_length hlt, hrest,
    List.append_assoc, List.take_left' length_leBytes, fromLe_leBytes_of_lt hn]

end BlockBuilder

-- ---------------------------------------------------------------------------
-- Decoding from a restart point
-- ---------------------------------------------------------------------------

theorem BlockIterator.visited_seekToRestartPoint (hi : 1 ≤ interval) (hfit : ∀ e ∈ es, Fits e)
    (hbuffer : (blockOf interval es).restartOffset < 2 ^ 32) (hr : r < (blockOf interval es).numRestarts) :
    ((blockOf interval es).iter.seekToRestartPoint r).visited =
      (es.drop (r * interval)).map fun e => (e.key, e.value.bytes) := by
  have hspaced := BlockBuilder.spaced_addAll hi es
  have hr : r < ((BlockBuilder.new interval).addAll es).restarts.length := hr
  have hsplit := List.take_append_drop (r * interval) es
  -- the restart point is the place behind the entries before it
  obtain ⟨tail, htail⟩ := ((BlockBuilder.new interval).addAll (es.take (r * interval))).buffer_addAll (es.drop (r * interval))
  rw [← BlockBuilder.addAll_append, hsplit] at htail
  have hoffset : BlockBuilder.offsetAfter interval es (r * interval) ≤ (blockOf interval es).restartOffset := by
    show List.length (BlockBuilder.buffer _) ≤ ((BlockBuilder.new interval).addAll es).buffer.length
    rw [htail, List.length_append]
    omega
  have hcurrent : (blockOf interval es).getRestartPoint r = BlockBuilder.offsetAfter interval es (r * interval) :=
    BlockBuilder.getRestartPoint_eq _ (hspaced.restarts r hr) (by omega)
  cases hes : es with
  | nil =>
    subst hes
    obtain rfl : r = 0 := by simpa [BlockBuilder.new] using hr
    rw [show (blockOf interval []).iter.seekToRestartPoint 0 = (blockOf interval []).iter.seekToFirst from rfl,
      visited_seekToFirst (by simp)]
    simp
  | cons x xs =>
    rw [← hes]
    have hlt := hspaced.mul_lt hr (by simp [hes])
    obtain ⟨e, todo, htodo⟩ : ∃ e todo, es.drop (r * interval) = e :: todo :=
      List.exists_cons_of_ne_nil (by simpa using hlt)
    rw [htodo] at hsplit ⊢
    have hmem : ∀ y ∈ e :: todo, Fits y := fun y hy => hfit y (List.mem_of_mem_drop (htodo ▸ hy))
    have hlen := (BlockBuilder.new interval).addAll (es.take (r * interval)) |>.length_addAll_buffer (e :: todo)
    rw [← BlockBuilder.addAll_append, hsplit, List.length_cons] at hlen
    have hvalid : ((blockOf interval es).iter.seekToRestartPoint r).valid = true := by
      show decide ((blockOf interval es).getRestartPoint r < (blockOf interval es).restartOffset) = true
      rw [hcurrent]
      refine decide_eq_true ?_
      show List.length (BlockBuilder.buffer _) < ((BlockBuilder.new interval).addAll es).buffer.length
      omega
    have hblock : ((blockOf interval es).iter.seekToRestartPoint r).block =
        blockOf interval (es.take (r * interval) ++ e :: todo) := by
      rw [hsplit]
      rfl
    obtain ⟨hadv, hstands, hv, hkey, hvalue⟩ := advance_entry hblock hcurrent
      (by rw [BlockBuilder.shared_at_restart hi hlt.le]; rfl) hvalid (hmem e List.mem_cons_self)
    rw [visited, dif_pos hadv, hstands.visited_eq (fun _ => hv) fun y hy => hmem y (List.mem_cons_of_mem e hy), hkey,
      hvalue, List.map_cons]

theorem BlockBuilder.takes_of_ascending (interval : Nat) (hasc : Ascending (pre ++ e :: post)) :
    ((new interval).addAll pre).Takes e.key := by
  refine ⟨hasc.key_ne e (by simp), fun hlast => ?_⟩
  rw [lastKey_addAll] at hlast ⊢
  obtain rfl | ⟨xs, x, rfl⟩ := List.eq_nil_or_concat' pre
  · exact absurd rfl hlast
  rw [lastKeyOf_append_singleton]
  have hsorted := hasc.sorted
  rw [List.append_assoc, List.pairwise_append] at hsorted
  exact (List.pairwise_cons.mp hsorted.2.1).1 e (by simp)

/-- A block with any restart interval: the builder takes the entries, `finish` has the
length it announced and is a block again, and from each restart point an iterator with
an empty key comes by exactly the entries from there on. -/
theorem block_codec (interval : Nat) (hi : 1 ≤ interval) (es : List Entry) (hasc : Ascending es) (hfit : ∀ e ∈ es, Fits e)
    (hbuffer : ((BlockBuilder.new interval).addAll es).buffer.length < 2 ^ 32) :
    (∀ pre e post, es = pre ++ e :: post → ((BlockBuilder.new interval).addAll pre).Takes e.key) ∧
      ((BlockBuilder.new interval).addAll es).finish.length = ((BlockBuilder.new interval).addAll es).currentSize ∧
      ∃ b, Block.new ((BlockBuilder.new interval).addAll es).finish = .ok b ∧
        (∀ r < b.numRestarts, (b.iter.seekToRestartPoint r).visited =
          (es.drop (r * interval)).map fun e => (e.key, e.value.bytes)) ∧
        b.iter.seekToFirst.visited = es.map fun e => (e.key, e.value.bytes) := by
  have hspaced := BlockBuilder.spaced_addAll hi es
  have hrestarts : ((BlockBuilder.new interval).addAll es).restarts.length < 2 ^ 32 := by
    have hmul := hspaced.mul_le (Nat.sub_lt hspaced.pos Nat.zero_lt_one)
    have hlen := (BlockBuilder.new interval).length_addAll_buffer es
    have hle : ((BlockBuilder.new interval).addAll es).restarts.length - 1 ≤
        (((BlockBuilder.new interval).addAll es).restarts.length - 1) * interval := Nat.le_mul_of_pos_right _ hi
    omega
  refine ⟨?_, BlockBuilder.length_finish _, blockOf interval es, BlockBuilder.new_finish _ hrestarts, ?_, ?_⟩
  · rintro pre e post rfl
    exact BlockBuilder.takes_of_ascending interval hasc
  · exact fun r hr => BlockIterator.visited_seekToRestartPoint hi hfit hbuffer hr
  · exact BlockIterator.visited_seekToFirst hfit

/-- Three entries, the second of which begins with the key of the first, and a restart
point after two of them. -/
theorem block_codec_three : ∃ b,
    Block.new ((BlockBuilder.new 2).addAll [⟨[97], ⟨[1], 0⟩⟩, ⟨[97, 98], ⟨[], 0⟩⟩, ⟨[99], ⟨[2], 0⟩⟩]).finish = .ok b ∧
      b.iter.seekToFirst.visited = [([97], [1]), ([97, 98], []), ([99], [2])] := by
  obtain ⟨-, -, b, hb, -, hvisited⟩ := block_codec 2 (by decide) [⟨[97], ⟨[1], 0⟩⟩, ⟨[97, 98], ⟨[], 0⟩⟩, ⟨[99], ⟨[2], 0⟩⟩]
    ⟨by decide, by decide⟩ (by simp [Fits]) (by decide +kernel)
  exact ⟨b, hb, hvisited⟩

end AiDb.Sstable
