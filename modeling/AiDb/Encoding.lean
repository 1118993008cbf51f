import AiDb.Reached
import AiDb.Sstable.Refinement

/-!
# The table files of a run

Whatever a run does, a table that is finished is one that the builder makes of its
entries. So there is a file of the format for it, of its size, and a reader of that
file answers as the reader of the decoded table.
-/

namespace AiDb

open Library Compaction Sstable

variable {snap : Snap} {w w' : World} {d : Disk}

-- ---------------------------------------------------------------------------
-- One table
-- ---------------------------------------------------------------------------

def Made (snap : Snap) (f : SstFile) : Prop :=
  ∃ blockSize c d, Usable snap (2 ^ 32) c ∧ f.entries ≠ [] ∧
    (AiDb.SSTableBuilder.new blockSize c).addEach (packedLen snap) f.entries = .ok d ∧ f = d.finish (packedLen snap)

/-- Compression takes what it takes in the files, and the finished tables were made by
the builder. -/
structure World.Encoded (snap : Snap) (w : World) : Prop where
  compressedLen : w.compressedLen = packedLen snap
  made : ∀ (file : Nat) (f : SstFile), w.disk.files[file]? = some (.complete f) → Made snap f

theorem World.Encoded.sameFiles (h : w.Encoded snap) (hlen : w'.compressedLen = w.compressedLen)
    (hfiles : w'.disk.files = w.disk.files) : w'.Encoded snap where
  compressedLen := hlen.trans h.compressedLen
  made := by
    rw [hfiles]
    exact h.made

theorem World.Encoded.at (h : w.Encoded snap) (hat : w.At d w') (hfiles : d.files = w.disk.files) : w'.Encoded snap :=
  h.sameFiles hat.compressedLen_eq (by rw [hat.disk_eq, hfiles])

structure Sys.Encoded (snap : Snap) (s : Sys) : Prop where
  world : s.world.Encoded snap
  usable : Usable snap (2 ^ 32) s.db.options.compression

variable {s s' : Sys}

theorem Sys.Encoded.logs (h : s.Encoded snap) (hl : s.Logs s') : s'.Encoded snap := by
  obtain ⟨wal, n, logs, faults, -, rfl⟩ := hl
  exact ⟨⟨h.world.compressedLen, h.world.made⟩, h.usable⟩

theorem Sys.Encoded.freeze (h : s.Encoded snap) : s.freeze.Encoded snap := ⟨h.world, h.usable⟩

end AiDb
