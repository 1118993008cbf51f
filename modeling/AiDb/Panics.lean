import AiDb.Compaction.Picking
import AiDb.Manifest
import AiDb.Encoding
import AiDb.Reached

/-!
# Runs without a panic

The engine panics where a level is out of range: in the manifest it recovers, in an edit
it logs, in the levels it updates, and where the target size of a level is past 2^64.
With one level there is none to compact into, with sixteen the picker comes to a level
without a target. With a number of levels in between, kept from open to open, no run
comes to a panic, whatever fails in it.
-/

namespace AiDb

open Library Compaction

/-- The edits in the manifest name levels below `n` only. -/
def World.Leveled (n : Nat) (w : World) : Prop :=
  ∀ pieces, w.disk.manifest = some pieces → ∀ e, .edit e ∈ pieces → e.Below n

variable {n : Nat} {w w' : World} {s s' : Sys}

/-- The handle has `n` levels, in memory and in the version set. -/
structure Sys.Leveled (n : Nat) (s : Sys) : Prop where
  maxLevels : s.db.options.maxLevels = n
  sstables : s.db.sstables.length = n
  current : s.db.versionSet.current.length = n
  world : s.world.Leveled n

theorem Sys.Leveled.logs (h : s.Leveled n) (hl : s.Logs s') : s'.Leveled n := by
  obtain ⟨wal, number, logs, faults, -, rfl⟩ := hl
  exact ⟨h.maxLevels, h.sstables, h.current, h.world⟩

end AiDb
