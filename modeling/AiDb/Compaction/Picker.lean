import AiDb.Table.Reader

/-!
# Picking a compaction

Level 0 is compacted as a whole when it has four tables; a deeper level hands
on its first table when its size exceeds the level's target.
-/

namespace AiDb.Compaction

abbrev Levels := List (List SSTableReader)

def maxLevel0Files : Nat := 4

structure CompactionTask where
  inputs : List SSTableReader
  level : Nat
  outputLevel : Nat

def u64Max : Nat := 2 ^ 64 - 1

/-- `target_size_for_level`: `10^level` MiB, or an arithmetic overflow. -/
def targetSizeForLevel (level : Nat) : Option Nat :=
  if level = 0 then some u64Max
  else if 10 ^ level * 1024 * 1024 ≤ u64Max then some (10 ^ level * 1024 * 1024)
  else none

def calculateLevelSize (level : List SSTableReader) : Nat := (level.map SSTableReader.fileSize).sum

def pickLevel0Compaction (levels : Levels) : Option CompactionTask :=
  match levels.headD [] with
  | [] => none
  | inputs => some ⟨inputs, 0, 1⟩

def pickLevelCompaction (levels : Levels) (level : Nat) : Option CompactionTask :=
  match levels.getD level [] with
  | [] => none
  | r :: _ => some ⟨[r], level, level + 1⟩

/-- The loop over the levels from 1 on; the outer `none` is an overflow. -/
def pickLoop (levels : Levels) : (rounds : Nat) → (level : Nat) → Option (Option CompactionTask)
  | 0, _ => some none
  | rounds + 1, level => do
    let target ← targetSizeForLevel level
    if calculateLevelSize (levels.getD level []) > target then
      return pickLevelCompaction levels level
    else pickLoop levels rounds (level + 1)

def pickCompaction (maxLevels : Nat) (levels : Levels) : Option (Option CompactionTask) :=
  if (levels.headD []).length ≥ maxLevel0Files then some (pickLevel0Compaction levels)
  else pickLoop levels (maxLevels - 2) 1

end AiDb.Compaction
