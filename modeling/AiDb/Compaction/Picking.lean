import AiDb.Db
import AiDb.Library.Checked

/-!
# The ranges of the picker

`CompactionPicker::pick_compaction` with its overflows and indices checked. The number
of levels is a free option: with one level there is none to compact level 0 into, and
with sixteen or more the loop can come to a level whose target size is past 2^64.
-/

namespace AiDb.Compaction

open Library Library.Outcome

-- ---------------------------------------------------------------------------
-- The picker with its checks
-- ---------------------------------------------------------------------------

def targetSizeForLevelChecked (level : Nat) : Outcome Empty Nat :=
  if level = 0 then .ok u64Max
  else do
    let megabytes ← .pow 64 10 (level % 2 ^ 32)
    let kilobytes ← .mul 64 megabytes 1024
    .mul 64 kilobytes 1024

def calculateLevelSizeChecked (level : List SSTableReader) : Outcome Empty Nat :=
  .sum 64 (level.map SSTableReader.fileSize) 0

def pickLevelCompactionChecked (levels : Levels) (level : Nat) : Outcome Empty (Option CompactionTask) :=
  if levels.length ≤ level then .ok none
  else do
    match ← .index levels level with
    | [] => return none
    | r :: _ => return some ⟨[r], level, level + 1⟩

def pickLoopChecked (levels : Levels) : (rounds : Nat) → (level : Nat) → Outcome Empty (Option CompactionTask)
  | 0, _ => .ok none
  | rounds + 1, level => do
    let totalSize ← calculateLevelSizeChecked (← .index levels level)
    let targetSize ← targetSizeForLevelChecked level
    if totalSize > targetSize then pickLevelCompactionChecked levels level
    else pickLoopChecked levels rounds (level + 1)

def pickCompactionChecked (maxLevels : Nat) (levels : Levels) : Outcome Empty (Option CompactionTask) := do
  let level0 ← .index levels 0
  if level0.length ≥ maxLevel0Files then return some ⟨level0, 0, 1⟩
  else do
    let last ← .sub maxLevels 1
    pickLoopChecked levels (last - 1) 1

-- ---------------------------------------------------------------------------
-- The loop
-- ---------------------------------------------------------------------------

def targetSize (level : Nat) : Nat := 10 ^ level * 1024 * 1024

theorem targetSize_lt_iff (level : Nat) : targetSize level < 2 ^ 64 ↔ level ≤ 13 := by
  unfold targetSize
  constructor
  · intro h
    by_contra hlevel
    have hpow : 10 ^ 14 ≤ 10 ^ level := Nat.pow_le_pow_right (by decide) (by omega)
    omega
  · intro h
    have hpow : 10 ^ level ≤ 10 ^ 13 := Nat.pow_le_pow_right (by decide) h
    omega

theorem targetSizeForLevelChecked_eq {level : Nat} (h : 1 ≤ level) (hlevel : level < 2 ^ 32) :
    targetSizeForLevelChecked level = .check (level ≤ 13) (targetSize level) := by
  unfold targetSizeForLevelChecked
  rw [if_neg (by omega), Nat.mod_eq_of_lt hlevel]
  by_cases hlow : level ≤ 13
  · have htarget := (targetSize_lt_iff level).mpr hlow
    unfold targetSize at htarget ⊢
    have hmul : 10 ^ level * 1024 < 2 ^ 64 := lt_of_le_of_lt (Nat.le_mul_of_pos_right _ (by decide)) htarget
    have hpow : 10 ^ level < 2 ^ 64 := lt_of_le_of_lt (Nat.le_mul_of_pos_right _ (by decide)) hmul
    rw [pow_eq hpow, ok_bind, mul_eq hmul, ok_bind, mul_eq htarget, check_pos hlow]
  · have htarget := mt (targetSize_lt_iff level).mp hlow
    rw [check_neg hlow]
    unfold targetSize at htarget
    by_cases hpow : 10 ^ level < 2 ^ 64
    · rw [pow_eq hpow, ok_bind]
      by_cases hmul : 10 ^ level * 1024 < 2 ^ 64
      · rw [mul_eq hmul, ok_bind]
        exact check_neg htarget _
      · rw [Outcome.mul, check_neg hmul, stopped_bind]
    · rw [Outcome.pow, check_neg hpow, stopped_bind]

theorem calculateLevelSizeChecked_eq (level : List SSTableReader) :
    calculateLevelSizeChecked level = .check (calculateLevelSize level < 2 ^ 64) (calculateLevelSize level) := by
  unfold calculateLevelSizeChecked calculateLevelSize
  rw [sum_eq _ _ (by decide), Nat.zero_add]

/-- The loop comes past the levels from `first` on, below `level`. -/
def Skips (levels : Levels) (first level : Nat) : Prop :=
  ∀ j, first ≤ j → j < level → calculateLevelSize (levels.getD j []) ≤ targetSize j

theorem Skips.cons (h : calculateLevelSize (levels.getD first []) ≤ targetSize first)
    (hrest : Skips levels (first + 1) level) : Skips levels first level := by
  intro j hfirst hj
  rcases Nat.eq_or_lt_of_le hfirst with rfl | hlt
  · exact h
  · exact hrest j hlt hj

/-- Every level that the loop comes to has a size and a target below 2^64. -/
def LoopInRange (levels : Levels) (first last : Nat) : Prop :=
  ∀ level, first ≤ level → level < last → Skips levels first level →
    calculateLevelSize (levels.getD level []) < 2 ^ 64 ∧ level ≤ 13

theorem loopInRange_iff (hlt : first < last) :
    LoopInRange levels first last ↔ (calculateLevelSize (levels.getD first []) < 2 ^ 64 ∧ first ≤ 13) ∧
      (calculateLevelSize (levels.getD first []) ≤ targetSize first → LoopInRange levels (first + 1) last) := by
  constructor
  · intro h
    refine ⟨h first le_rfl hlt fun j hle hj => absurd hle (not_le.mpr hj), fun hskip level hlow hhigh hskips => ?_⟩
    exact h level (by omega) hhigh (hskips.cons hskip)
  · rintro ⟨hhere, hrest⟩ level hlow hhigh hskips
    rcases Nat.eq_or_lt_of_le hlow with rfl | hgt
    · exact hhere
    · exact hrest (hskips first le_rfl hgt) level hgt hhigh fun j hle hj => hskips j (by omega) hj

theorem pickLevelCompactionChecked_returns (levels : Levels) (level : Nat) :
    (pickLevelCompactionChecked levels level).Returns := by
  unfold pickLevelCompactionChecked
  split
  · simp
  · rename_i h
    rw [index_eq (not_le.mp h), ok_bind]
    split <;> simp

/-- Level 14 has no target, so the loop stops there at the latest. -/
theorem pickLoopChecked_returns (levels : Levels) (rounds first : Nat) (hpos : 1 ≤ first) (hlow : first ≤ 14)
    (hlast : first + rounds ≤ levels.length) :
    (pickLoopChecked levels rounds first).Returns ↔ LoopInRange levels first (first + rounds) := by
  induction rounds generalizing first with
  | zero =>
    simp only [pickLoopChecked, returns_ok, true_iff]
    exact fun level hle hlt => absurd hle (by omega)
  | succ rounds ih =>
    have hfiles : levels.getD first [] = levels[first] := List.getD_eq_getElem _ _ (by omega)
    rw [loopInRange_iff (by omega), pickLoopChecked, index_eq (by omega), ok_bind, calculateLevelSizeChecked_eq,
      targetSizeForLevelChecked_eq hpos (by omega), hfiles]
    by_cases hsize : calculateLevelSize levels[first] < 2 ^ 64
    · rw [check_pos hsize, ok_bind]
      by_cases htarget : first ≤ 13
      · rw [check_pos htarget, ok_bind]
        by_cases hover : calculateLevelSize levels[first] > targetSize first
        · rw [if_pos hover]
          exact iff_of_true (pickLevelCompactionChecked_returns levels first)
            ⟨⟨hsize, htarget⟩, fun hle => absurd hle (not_le.mpr hover)⟩
        · rw [if_neg hover, ih (first + 1) (by omega) (by omega) (by omega), Nat.add_right_comm, Nat.add_assoc]
          exact ⟨fun h => ⟨⟨hsize, htarget⟩, fun _ => h⟩, fun h => h.2 (not_lt.mp hover)⟩
      · rw [check_neg htarget, stopped_bind]
        exact iff_of_false not_returns_stopped fun h => htarget h.1.2
    · rw [check_neg hsize, stopped_bind]
      exact iff_of_false not_returns_stopped fun h => hsize h.1.1

theorem pickLoopChecked_task {levels : Levels} {rounds first : Nat} {task : CompactionTask}
    (h : pickLoopChecked levels rounds first = .ok (some task)) :
    ∃ level r rest, first ≤ level ∧ level < first + rounds ∧ levels[level]? = some (r :: rest) ∧
      task = ⟨[r], level, level + 1⟩ := by
  induction rounds generalizing first with
  | zero => simp [pickLoopChecked] at h
  | succ rounds ih =>
    simp only [pickLoopChecked, Outcome.bind_eq_ok] at h
    obtain ⟨files, hfiles, size, hsize, target, htarget, h⟩ := h
    split_ifs at h with hover
    · unfold pickLevelCompactionChecked at h
      split_ifs at h with hout
      · cases h
      · rw [index_eq (not_le.mp hout), ok_bind] at h
        split at h
        · cases h
        · rename_i r rest hlevel
          cases h
          refine ⟨first, r, rest, le_rfl, by omega, ?_, rfl⟩
          rw [List.getElem?_eq_getElem (not_le.mp hout), hlevel]
    · obtain ⟨level, r, rest, hlow, hhigh, hlevel, rfl⟩ := ih h
      exact ⟨level, r, rest, by omega, by omega, hlevel, rfl⟩

-- ---------------------------------------------------------------------------
-- The picker without checks
-- ---------------------------------------------------------------------------

theorem targetSizeForLevel_of_low {level : Nat} (hpos : 1 ≤ level) (hlow : level ≤ 13) :
    targetSizeForLevel level = some (targetSize level) := by
  have htarget := (targetSize_lt_iff level).mpr hlow
  unfold targetSizeForLevel
  rw [if_neg (by omega), if_pos (by unfold u64Max; unfold targetSize at htarget; omega)]
  rfl

theorem pickLevelCompaction_of_checked {levels : Levels} {level : Nat} {picked : Option CompactionTask}
    (h : pickLevelCompactionChecked levels level = .ok picked) : pickLevelCompaction levels level = picked := by
  unfold pickLevelCompactionChecked at h
  unfold pickLevelCompaction
  split_ifs at h with hout
  · rw [List.getD_eq_default _ _ hout]
    exact Outcome.ok.inj h
  · rw [index_eq (not_le.mp hout), ok_bind] at h
    rw [List.getD_eq_getElem _ _ (not_le.mp hout)]
    split at h <;> simp_all

theorem pickLoop_of_checked {levels : Levels} {rounds first : Nat} {picked : Option CompactionTask} (hpos : 1 ≤ first)
    (hlow : first ≤ 14) (h : pickLoopChecked levels rounds first = .ok picked) :
    pickLoop levels rounds first = some picked := by
  induction rounds generalizing first with
  | zero =>
    obtain rfl := Outcome.ok.inj h
    rfl
  | succ rounds ih =>
    simp only [pickLoopChecked, Outcome.bind_eq_ok, calculateLevelSizeChecked_eq, check_eq_ok] at h
    obtain ⟨files, hfiles, size, ⟨-, rfl⟩, target, htarget, h⟩ := h
    rw [targetSizeForLevelChecked_eq hpos (by omega), check_eq_ok] at htarget
    obtain ⟨htarget, rfl⟩ := htarget
    have hlevel : levels.getD first [] = files := by
      rw [List.getD_eq_getElem?_getD, index_eq_ok.mp hfiles, Option.getD_some]
    rw [pickLoop, targetSizeForLevel_of_low hpos htarget, hlevel]
    simp only [Option.bind_eq_bind, Option.bind_some]
    split_ifs at h ⊢ with hover
    · exact congrArg some (pickLevelCompaction_of_checked h)
    · exact ih (by omega) (by omega) h

/-- What the checked picker returns is what the picker of the database does. -/
theorem pickCompaction_of_checked {levels : Levels} {maxLevels : Nat} {picked : Option CompactionTask}
    (h : pickCompactionChecked maxLevels levels = .ok picked) : pickCompaction maxLevels levels = some picked := by
  simp only [pickCompactionChecked, Outcome.bind_eq_ok] at h
  obtain ⟨level0, hlevel0, h⟩ := h
  have hhead : levels.headD [] = level0 := by
    rw [List.headD_eq_head?_getD, List.head?_eq_getElem?, index_eq_ok.mp hlevel0, Option.getD_some]
  unfold pickCompaction
  rw [hhead]
  split_ifs at h ⊢ with hfull
  · obtain rfl := Outcome.ok.inj h
    unfold pickLevel0Compaction
    rw [hhead]
    split
    · exact absurd hfull (by decide)
    · rfl
  · obtain ⟨last, hlast, h⟩ := Outcome.bind_eq_ok.mp h
    obtain ⟨-, rfl⟩ := check_eq_ok.mp hlast
    exact pickLoop_of_checked le_rfl (by decide) h

-- ---------------------------------------------------------------------------
-- Every accepted configuration
-- ---------------------------------------------------------------------------

/-- The task names tables of one level, and the next level to put them into. -/
def CompactionTask.Fits (task : CompactionTask) (maxLevels : Nat) (levels : Levels) : Prop :=
  task.inputs ≠ [] ∧ (∃ level, levels[task.level]? = some level ∧ ∀ r ∈ task.inputs, r ∈ level) ∧
    task.outputLevel = task.level + 1 ∧ task.outputLevel < maxLevels

/-- Four tables of level 0 have a level to go to; with fewer, the loop stays in range. -/
def PicksInRange (maxLevels : Nat) (levels : Levels) : Prop :=
  if maxLevel0Files ≤ (levels.headD []).length then 2 ≤ maxLevels else LoopInRange levels 1 (maxLevels - 1)

theorem maxLevels_pos_of_valid {o : Options} (h : o.validate = .ok ()) : 1 ≤ o.maxLevels := by
  unfold Options.validate at h
  split_ifs at h
  omega

theorem pickCompaction_safe_iff (o : Options) (levels : Levels) (hvalid : o.validate = .ok ())
    (hlevels : levels.length = o.maxLevels) :
    (∃ picked, pickCompactionChecked o.maxLevels levels = .ok picked ∧
        ∀ task, picked = some task → task.Fits o.maxLevels levels) ↔
      PicksInRange o.maxLevels levels := by
  have hpos := maxLevels_pos_of_valid hvalid
  unfold pickCompactionChecked PicksInRange
  have hhead : levels.headD [] = levels[0] := by
    rw [List.headD_eq_head?_getD, List.head?_eq_getElem?, List.getElem?_eq_getElem (by omega), Option.getD_some]
  rw [index_eq (by omega), ok_bind, hhead]
  by_cases hfull : levels[0].length ≥ maxLevel0Files
  · rw [if_pos hfull, if_pos hfull]
    constructor
    · rintro ⟨picked, hpicked, htask⟩
      exact (htask _ (Outcome.ok.inj hpicked).symm).2.2.2
    · intro htwo
      refine ⟨_, rfl, fun task htask => ?_⟩
      obtain rfl := Option.some.inj htask
      refine ⟨?_, ⟨levels[0], List.getElem?_eq_getElem (show 0 < levels.length by omega), fun r hr => hr⟩, rfl, htwo⟩
      exact List.ne_nil_of_length_pos (lt_of_lt_of_le (by decide) hfull)
  · rw [if_neg hfull, if_neg hfull, sub_eq hpos, ok_bind]
    have hlast : LoopInRange levels 1 (1 + (o.maxLevels - 1 - 1)) ↔ LoopInRange levels 1 (o.maxLevels - 1) :=
      ⟨fun h level hlow hhigh => h level hlow (by omega), fun h level hlow hhigh => h level hlow (by omega)⟩
    rw [← hlast, ← pickLoopChecked_returns levels _ 1 le_rfl (by omega) (by omega), returns_iff_ok]
    refine exists_congr fun picked => and_iff_left_of_imp fun hpicked task htask => ?_
    subst htask
    obtain ⟨level, r, rest, hlow, hhigh, hlevel, rfl⟩ := pickLoopChecked_task hpicked
    refine ⟨by simp, ⟨r :: rest, hlevel, by simp⟩, rfl, ?_⟩
    dsimp only
    omega

def tableOfMiB (n mib : Nat) : SSTableReader := ⟨n, n, n, [], [], mib * 1024 * 1024⟩

/-- Four tables of level 0 before a level 1 that is full too, and two tables that are too
large for level 2. -/
theorem pickCompaction_safe_iff_full :
    let level0 := [tableOfMiB 5 1, tableOfMiB 4 1, tableOfMiB 3 1, tableOfMiB 2 1]
    let frontFull := [level0, [tableOfMiB 1 11], [], [], [], [], []]
    let deepFull := [[tableOfMiB 4 1], [tableOfMiB 3 9], [tableOfMiB 2 60, tableOfMiB 1 60], [], [], [], []]
    (∃ task, pickCompactionChecked Options.default.maxLevels frontFull = .ok (some task) ∧ task.inputs = level0 ∧
        task.Fits Options.default.maxLevels frontFull) ∧
      ∃ task, pickCompactionChecked Options.default.maxLevels deepFull = .ok (some task) ∧ task.inputs = [tableOfMiB 2 60] ∧
        task.Fits Options.default.maxLevels deepFull := by
  intro level0 frontFull deepFull
  have hfront : PicksInRange Options.default.maxLevels frontFull := by
    rw [PicksInRange, if_pos (by decide)]
    decide
  have hdeep : PicksInRange Options.default.maxLevels deepFull := by
    rw [PicksInRange, if_neg (by decide)]
    intro level hlow hhigh _
    have hlevel : level ≤ 5 := by
      simp only [Options.default] at hhigh
      omega
    interval_cases level <;> decide
  obtain ⟨picked, hpicked, hfits⟩ := (pickCompaction_safe_iff Options.default frontFull rfl rfl).mpr hfront
  obtain ⟨picked', hpicked', hfits'⟩ := (pickCompaction_safe_iff Options.default deepFull rfl rfl).mpr hdeep
  obtain rfl : some ⟨level0, 0, 1⟩ = picked := Outcome.ok.inj hpicked
  obtain rfl : some ⟨[tableOfMiB 2 60], 2, 3⟩ = picked' := Outcome.ok.inj hpicked'
  exact ⟨⟨_, hpicked, rfl, hfits _ rfl⟩, _, hpicked', rfl, hfits' _ rfl⟩

/-- One level with four tables, and sixteen levels with none. -/
theorem not_pickCompaction_safe_ends :
    { Options.default with maxLevels := 1 }.validate = .ok () ∧
      { Options.default with maxLevels := 16 }.validate = .ok () ∧
      (∀ r : SSTableReader, pickCompactionChecked 1 [[r, r, r, r]] = .ok (some ⟨[r, r, r, r], 0, 1⟩)) ∧
      ¬(pickCompactionChecked 16 (List.replicate 16 [])).Returns := by
  refine ⟨rfl, rfl, fun r => rfl, ?_⟩
  have hstopped : pickCompactionChecked 16 (List.replicate 16 []) = .stopped := by rfl
  rw [hstopped]
  exact not_returns_stopped

end AiDb.Compaction
