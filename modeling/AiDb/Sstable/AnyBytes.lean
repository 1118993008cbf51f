import AiDb.Sstable.Untrusted

/-!
# Iterating over arbitrary bytes

Whatever the bytes of a block are, an iterator that starts at its first restart point
stays in it: each entry it comes to takes twelve bytes at least, so it comes to an end,
and an advance that fails is followed by no other one.
-/

namespace AiDb.Sstable

open Library Outcome

namespace BlockIterator

/-- The answers of so many calls of `advance`, and where they leave the iterator. -/
def advancesChecked : Nat → BlockIterator → Outcome Error (List Bool × BlockIterator)
  | 0, it => .ok ([], it)
  | n + 1, it => do
    let step ← it.advanceChecked
    let rest ← advancesChecked n step.2
    return (step.1 :: rest.1, rest.2)

theorem parseNextEntry_block (it : BlockIterator) : it.parseNextEntry.block = it.block := by
  unfold parseNextEntry
  dsimp only
  split_ifs <;> rfl

theorem advance_block (it : BlockIterator) : it.advance.2.block = it.block := by
  unfold advance
  split
  · exact it.parseNextEntry_block
  · rfl

theorem InRoom.step {it : BlockIterator} (h : it.InRoom) : it.advance.2.InRoom := by
  unfold InRoom
  rw [advance_block]
  exact h

theorem visited_of_stopped {it : BlockIterator} (h : it.advance.1 = false) : it.visited = [] := by
  rw [visited, dif_neg (by simp [h])]

theorem visited_of_moved {it : BlockIterator} (h : it.advance.1 = true) :
    it.visited = (it.advance.2.key, it.advance.2.value) :: it.advance.2.visited := by
  rw [visited, dif_pos h]

theorem advance_of_invalid {it : BlockIterator} (h : it.valid = false) : it.advance = (false, it) := by
  simp [advance, h]

theorem length_visited (it : BlockIterator) : 12 * it.visited.length ≤ it.block.data.length - it.current := by
  induction it using visited.induct with
  | case1 it h ih =>
    obtain ⟨hroom, hmoved, hblock⟩ := advance_current h
    rw [hblock] at ih
    rw [visited_of_moved h, List.length_cons]
    omega
  | case2 it h =>
    rw [visited_of_stopped (by simpa using h)]
    simp

theorem advancesChecked_eq {it : BlockIterator} (h : it.InRoom) (n : Nat) :
    ∃ it', it.advancesChecked n =
      .ok (List.replicate (min n it.visited.length) true ++ List.replicate (n - it.visited.length) false, it') := by
  induction n generalizing it with
  | zero => exact ⟨it, by simp [advancesChecked]⟩
  | succ n ih =>
    obtain ⟨it', hrest⟩ := ih h.step
    refine ⟨it', ?_⟩
    rw [advancesChecked, advanceChecked_eq h, ok_bind, hrest, ok_bind]
    cases hmoved : it.advance.1 with
    | true =>
      rw [visited_of_moved hmoved]
      simp [Nat.succ_min_succ, List.replicate_succ]
    | false =>
      have hinvalid : it.advance.2.valid = false := it.advance_valid.trans hmoved
      have hnone : it.advance.2.visited = [] := visited_of_stopped (by rw [advance_of_invalid hinvalid])
      rw [visited_of_stopped hmoved, hnone]
      simp [List.replicate_succ]

end BlockIterator

/-- Over a block whose sizes add up the iterator makes no access outside it, moves at most
once for every twelve bytes, and then stays where it is. -/
theorem iteration_safe (b : Block) (hsizes : b.restartOffset + 4 * b.numRestarts + 4 = b.data.length)
    (hdata : b.data.length < 2 ^ 63) :
    ∃ it moves, b.iter.seekToFirstChecked = .ok it ∧ moves ≤ b.data.length / 12 ∧
      ∀ n, ∃ it', it.advancesChecked n = .ok (List.replicate (min n moves) true ++ List.replicate (n - moves) false, it') := by
  have hroom : b.iter.InRoom := ⟨by show b.restartOffset + 4 ≤ b.data.length; omega, hdata⟩
  refine ⟨b.iter.seekToFirst, b.iter.seekToFirst.visited.length, BlockIterator.seekToFirstChecked_eq hroom, ?_,
    BlockIterator.advancesChecked_eq hroom⟩
  have hlength := b.iter.seekToFirst.length_visited
  have hblock : b.iter.seekToFirst.block.data.length = b.data.length := rfl
  omega

/-- A block of four zero bytes, with no entry and no restart point, and one with an entry
whose value is cut off by the restart point. -/
theorem iteration_safe_restartless :
    (∃ it moves, (Block.mk [0, 0, 0, 0] 0 0).iter.seekToFirstChecked = .ok it ∧ moves ≤ 4 / 12 ∧
      ∀ n, ∃ it', it.advancesChecked n = .ok (List.replicate (min n moves) true ++ List.replicate (n - moves) false, it')) ∧
    ∃ it moves, (Block.mk ([0, 0, 0, 0, 1, 0, 0, 0, 9, 0, 0, 0, 97] ++ [0, 0, 0, 0, 1, 0, 0, 0]) 13 1).iter.seekToFirstChecked =
        .ok it ∧ moves ≤ 21 / 12 ∧
      ∀ n, ∃ it', it.advancesChecked n = .ok (List.replicate (min n moves) true ++ List.replicate (n - moves) false, it') :=
  ⟨iteration_safe ⟨[0, 0, 0, 0], 0, 0⟩ rfl (by decide), iteration_safe ⟨_, 13, 1⟩ rfl (by decide)⟩

end AiDb.Sstable
