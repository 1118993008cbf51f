import AiDb.Bytes

/-!
# Versions and the manifest

The version set lists the table files of each level; every edit is applied in
memory and then written to the manifest as one line of JSON. A line is an edit
followed by a newline, two separate writes. A part of an edit does not parse, nor does
an edit that follows something on the same line.
-/

namespace AiDb.Compaction

structure FileMetaData where
  fileNumber : Nat
  fileSize : Nat
  smallestKey : Bytes
  largestKey : Bytes
  deriving DecidableEq

inductive VersionEdit
  | addFile (level : Nat) (file : FileMetaData)
  | deleteFile (level fileNumber : Nat)
  | setNextFileNumber (n : Nat)
  | setSequenceNumber (n : Nat)
  deriving DecidableEq

/-- What one write leaves in the manifest; `part` is some bytes of an edit, but not all. -/
inductive ManifestPiece
  | edit (e : VersionEdit)
  | part
  | newline
  deriving DecidableEq

/-- What a write leaves that is cut off after `n` bytes. -/
def ManifestPiece.cut : ManifestPiece → (n : Nat) → List ManifestPiece
  | .edit _, _ + 1 => [.part]
  | _, _ => []

abbrev Version := List (List FileMetaData)

def Version.new (maxLevels : Nat) : Version := List.replicate maxLevels []

/-- `Version::apply`; a level outside the vector is an index out of range. -/
def Version.apply (v : Version) : VersionEdit → Option Version
  | .addFile level file =>
    if level < v.length then some (v.modify level (· ++ [file])) else none
  | .deleteFile level n =>
    if level < v.length then some (v.modify level (·.filter (·.fileNumber ≠ n))) else none
  | _ => some v

structure VersionSet where
  current : Version
  nextFileNumber : Nat
  deriving DecidableEq

def VersionSet.new (maxLevels : Nat) : VersionSet := ⟨Version.new maxLevels, 1⟩

def VersionSet.applyEdit (vs : VersionSet) : VersionEdit → Option VersionSet
  | .setNextFileNumber n => some { vs with nextFileNumber := n }
  | .setSequenceNumber _ => some vs
  | e => (vs.current.apply e).map fun v => { vs with current := v }

def manifestLines : (line : List ManifestPiece) → List ManifestPiece → List (List ManifestPiece)
  | line, [] => if line = [] then [] else [line]
  | line, .newline :: ps => line :: manifestLines [] ps
  | line, p :: ps => manifestLines (line ++ [p]) ps

/-- The loop of `VersionSet::recover`; the inner `none` is an index out of
range. What the parser says of a line that is not one edit is left out. -/
def recoverLines (vs : VersionSet) : List (List ManifestPiece) → Except Error (Option VersionSet)
  | [] => .ok (some vs)
  | [] :: lines => recoverLines vs lines
  | [.edit e] :: lines =>
    match vs.applyEdit e with
    | some vs => recoverLines vs lines
    | none => .ok none
  | _ :: _ => .error (.corruption "Failed to parse manifest entry")

end AiDb.Compaction
