import AiDb.Compaction.Merge
import AiDb.Compaction.Version
import AiDb.Wal.Reader

/-!
# The directory and the operating system

The database directory holds table files, log files and the manifest. Every
file operation of the engine asks a script whether it goes through, fails or is
cut by a crash of the process; what it did to the directory before it stopped
stays. `unreadable` says which data blocks cannot be read (a checksum mismatch
or an I/O error). Questions about names and lengths are always answered: an
`exists`, which the engine takes for `false` when it fails, the two listings of
`DB::open`, which it takes for empty, and the length of a log that was just opened.
-/

namespace AiDb

open Compaction

inductive Exit
  | error (e : Error)
  | panic
  | crash
  deriving DecidableEq

/-- A table file that was created but not finished does not open. -/
inductive SstContent
  | incomplete
  | complete (f : SstFile)
  deriving DecidableEq

/-- A log file. `stamps` is a history variable: the stamps of the writes whose
entries were appended to it, in order. -/
structure LogFile where
  bytes : Bytes
  stamps : List Nat

/-- The directory. A table file is found under its number, and stays readable
through an open handle after it was removed; `files` are all that were ever
created. -/
structure Disk where
  dirExists : Bool
  ssts : AList fun _ : Nat => Nat
  files : List SstContent
  logs : AList fun _ : Nat => LogFile
  manifest : Option (List ManifestPiece)

/-- What becomes of a file operation: it goes through, it fails, or the process
crashes in it; the last two after so many bytes of a write. -/
inductive Fault
  | none
  | fail (written : Nat)
  | crash (written : Nat)
  deriving DecidableEq

/-- `handed` is a history variable: the file numbers handed out by
`next_file_number`, each with whether a table file of that number existed. -/
structure World where
  disk : Disk
  faults : List Fault
  unreadable : Nat → Nat → Bool
  compressedLen : CompressedLen
  arcs : Nat
  writes : Nat
  handed : List (Nat × Bool)

abbrev W := EStateM Exit World

namespace World

def readBlock (w : World) (file : Nat) : BlockRead := fun handle =>
  if w.unreadable file handle.offset then .error (.checksumMismatch 0 0)
  else
    match w.disk.files[file]? with
    | some (.complete f) =>
      match f.blocks.find? fun b => b.handle = handle with
      | some b => .ok b.entries
      | none => .error (.checksumMismatch 0 0)
    | _ => .error (.io .unexpectedEof)

end World

def nextFault : W Fault := do
  match (← get).faults with
  | [] => return .none
  | f :: fs =>
    modify fun w => { w with faults := fs }
    return f

/-- One file operation: what it does, and what it has done when it is cut off
after `n` bytes. -/
def fileOp (done : World → World) (cut : Nat → World → World) : W Unit := do
  match ← nextFault with
  | .none => modify done
  | .fail n =>
    modify (cut n)
    throw (.error (.io .other))
  | .crash n =>
    modify (cut n)
    throw .crash

def onDisk (f : Disk → Disk) (w : World) : World := { w with disk := f w.disk }

/-- A file operation that happens as a whole or not at all. -/
def atomicOp (f : Disk → Disk) : W Unit := fileOp (onDisk f) fun _ => id

/-- A read, or a sync: nothing changes. -/
def passiveOp : W Unit := atomicOp id

-- ---------------------------------------------------------------------------
-- Table files
-- ---------------------------------------------------------------------------

/-- `File::create`: a file that exists is truncated. -/
def Disk.createSst (n : Nat) (d : Disk) : Disk :=
  match d.ssts.lookup n with
  | some file => { d with files := d.files.set file .incomplete }
  | none => { d with
      ssts := d.ssts.insert n d.files.length
      files := d.files ++ [.incomplete] }

def Disk.finishSst (n : Nat) (f : SstFile) (d : Disk) : Disk :=
  match d.ssts.lookup n with
  | some file => { d with files := d.files.set file (.complete f) }
  | none => d

def createSst (n : Nat) : W Unit := atomicOp (Disk.createSst n)

/-- The last write of `SSTableBuilder::finish`, after which the footer is in
the file. -/
def finishSst (n : Nat) (f : SstFile) : W Unit := atomicOp (Disk.finishSst n f)

def removeSst (n : Nat) : W Unit :=
  atomicOp fun d => { d with ssts := d.ssts.erase n }

/-- `if path.exists() { remove_file(path)? }`; `exists` does not fail. -/
def removeSstIfExists (n : Nat) : W Unit := do
  if n ∈ (← get).disk.ssts then removeSst n

def SSTableReader.ofFile (arc n file : Nat) (f : SstFile) : SSTableReader :=
  ⟨arc, n, file, f.index, f.entries.map Entry.key, f.size⟩

def openWithCache (n : Nat) : W SSTableReader := do
  passiveOp
  let w ← get
  match w.disk.ssts.lookup n with
  | none => throw (.error (.io .other))
  | some file =>
    match w.disk.files[file]? with
    | some (.complete f) =>
      modify fun w => { w with arcs := w.arcs + 1 }
      return .ofFile w.arcs n file f
    | _ => throw (.error (.corruption "Invalid SSTable magic number"))

def liftExcept (x : Except Error α) : W α :=
  match x with
  | .ok a => pure a
  | .error e => throw (.error e)

/-- `SSTableBuilder::add`; a block it cuts is written to the file. -/
def addEntry (b : SSTableBuilder) (e : Entry) : W SSTableBuilder := do
  let b' ← liftExcept (b.add (← get).compressedLen e)
  if b'.blocks.length ≠ b.blocks.length then passiveOp
  return b'

def addEntries : SSTableBuilder → List Entry → W SSTableBuilder
  | b, [] => return b
  | b, e :: es => do addEntries (← addEntry b e) es

/-- Write the entries to the table file `n` that was just created. Without
entries the builder is abandoned and the file removed. -/
def writeTable (n blockSize : Nat) (compression : CompressionType) (entries : List Entry) :
    W Unit := do
  let b ← addEntries (SSTableBuilder.new blockSize compression) entries
  if entries = [] then removeSstIfExists n
  else finishSst n (b.finish (← get).compressedLen)

-- ---------------------------------------------------------------------------
-- The manifest
-- ---------------------------------------------------------------------------

def Disk.addPieces (ps : List ManifestPiece) (d : Disk) : Disk := { d with manifest := d.manifest.map (· ++ ps) }

def writeManifest (p : ManifestPiece) : W Unit :=
  fileOp (onDisk (Disk.addPieces [p])) fun n => onDisk (Disk.addPieces (p.cut n))

/-- `VersionSet::new`: recover from the manifest, or create it. -/
def newVersionSet (maxLevels : Nat) : W VersionSet := do
  match (← get).disk.manifest with
  | some pieces =>
    passiveOp
    match ← liftExcept (recoverLines (VersionSet.new maxLevels) (manifestLines [] pieces)) with
    | some vs => return vs
    | none => throw .panic
  | none =>
    atomicOp fun d => { d with manifest := some [] }
    return VersionSet.new maxLevels

end AiDb
