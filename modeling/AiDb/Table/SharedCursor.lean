import AiDb.Library.Threads
import AiDb.Table.Contents
import AiDb.Wal.Record

/-!
# Block reads on one reader

The reads of a reader go through clones of one file handle, which share its
position, and through one block cache. A read is a thread here: its seek, its
`read_exact` and each section that the cache runs under its locks are atomic
steps. The file is its bytes; a seek does not fail, and `read_exact` fails at the
end of the file only.
-/

namespace AiDb

open Library

-- ---------------------------------------------------------------------------
-- The block cache
-- ---------------------------------------------------------------------------

structure CacheKey where
  fileId : Nat
  offset : Nat
  deriving DecidableEq

/-- `BlockCache`, without its statistics. The most recently used key is the last of
the queue. -/
structure BlockCache where
  capacity : Nat
  currentSize : Nat
  cache : CacheKey → Option Bytes
  lruQueue : List CacheKey

namespace BlockCache

def new (capacity : Nat) : BlockCache := ⟨capacity, 0, fun _ => none, []⟩

/-- The lookup of `get`, before it touches the key. -/
def lookup (c : BlockCache) (key : CacheKey) : Option Bytes :=
  if c.capacity = 0 then none else c.cache key

def touch (c : BlockCache) (key : CacheKey) : BlockCache :=
  { c with lruQueue := c.lruQueue.erase key ++ [key] }

/-- The second section of `evict_one`, for the key taken off the queue. -/
def remove (c : BlockCache) (key : CacheKey) : BlockCache :=
  match c.cache key with
  | none => c
  | some value =>
    { c with
      cache := Function.update c.cache key none
      currentSize := c.currentSize - value.length }

/-- The last section of `insert`, when there is room. -/
def store (c : BlockCache) (key : CacheKey) (value : Bytes) : BlockCache :=
  let c :=
    match c.cache key with
    | none => c
    | some old =>
      { c with
        currentSize := c.currentSize - old.length
        lruQueue := c.lruQueue.filter (· ≠ key) }
  { c with
    cache := Function.update c.cache key (some value)
    lruQueue := c.lruQueue ++ [key]
    currentSize := c.currentSize + value.length }

@[simp] theorem touch_cache (c : BlockCache) (key : CacheKey) : (c.touch key).cache = c.cache := rfl

theorem remove_cache (c : BlockCache) (key : CacheKey) : (c.remove key).cache = Function.update c.cache key none := by
  unfold remove
  split
  · rename_i h
    rw [← h, Function.update_eq_self]
  · rfl

theorem store_cache (c : BlockCache) (key : CacheKey) (value : Bytes) :
    (c.store key value).cache = Function.update c.cache key (some value) := by
  unfold store
  dsimp only
  split <;> rfl

end BlockCache

-- ---------------------------------------------------------------------------
-- Reading a block
-- ---------------------------------------------------------------------------

def CompressionType.fromU8 (value : UInt8) : Option CompressionType :=
  if value = 0 then some .none
  else if value = 1 then some .snappy
  else none

abbrev Decompress := Bytes → Except String Bytes

/-- What `read_block_data` makes of the bytes it has read: the data, one byte for the
compression and four for the checksum. -/
def decodeBlock (snappy : Decompress) (buffer : Bytes) : Except Error Bytes :=
  let dataSize := buffer.length - 5
  let data := buffer.take dataSize
  let compressionType := buffer.getD dataSize 0
  let storedChecksum := UInt32.ofNat (fromLe (buffer.drop (dataSize + 1)))
  let computedChecksum := Wal.crc32 data
  if computedChecksum ≠ storedChecksum then .error (.checksumMismatch storedChecksum computedChecksum)
  else
    match CompressionType.fromU8 compressionType with
    | none => .error (.corruption "Invalid compression type")
    | some .none => .ok data
    | some .snappy =>
      match snappy data with
      | .ok decompressed => .ok decompressed
      | .error e => .error (.internal ("Decompression failed: " ++ e))
    | some .lz4 => .error (.internal ("Unsupported compression type: " ++ toString compressionType))

def readExact (file : Bytes) (cursor size : Nat) : Except Error Bytes × Nat :=
  if cursor + size ≤ file.length then (.ok ((file.drop cursor).take size), cursor + size)
  else (.error (.io .unexpectedEof), max cursor file.length)

/-- What is stored at a handle: a block read that has the file to itself. -/
def blockAt (snappy : Decompress) (file : Bytes) (handle : BlockHandle) : Except Error Bytes :=
  if handle.size < 5 then .error (.corruption "Block size too small")
  else (readExact file handle.offset handle.size).1.bind (decodeBlock snappy)

-- ---------------------------------------------------------------------------
-- Reads as threads
-- ---------------------------------------------------------------------------

structure TableIo where
  cursor : Nat
  blockCache : Option BlockCache

/-- Where a block read is: before it looked into the cache; with a block it found there;
before its seek; between the seek and the `read_exact`; making room in the cache
for the block it has read, with a key off the queue or not; before its insert; or
past its return. -/
inductive BlockReadPc
  | start
  | touching (data : Bytes)
  | seeking
  | reading
  | evicting (data : Bytes)
  | removing (victim : CacheKey) (data : Bytes)
  | inserting (data : Bytes)
  | returned (r : Except Error Bytes)

/-- `read_block_cached`, or the `read_block_with_handle` of an iterator. -/
structure BlockReader where
  handle : BlockHandle
  cached : Bool
  pc : BlockReadPc

section Next

variable (snappy : Decompress) (file : Bytes) (fileNumber : Nat)

def BlockReader.readData (io : TableIo) (t : BlockReader) : TableIo × BlockReadPc :=
  let (buffer, cursor) := readExact file io.cursor t.handle.size
  let pc :=
    match buffer.bind (decodeBlock snappy) with
    | .error e => .returned (.error e)
    | .ok data => if t.cached then .evicting data else .returned (.ok data)
  ({ io with cursor }, pc)

/-- One turn of the loop of `insert` that makes room, which spins on an empty queue.
Without a cache the read returns. -/
def BlockReader.makeRoom (io : TableIo) (data : Bytes) : TableIo × BlockReadPc :=
  match io.blockCache with
  | none => (io, .returned (.ok data))
  | some c =>
    if c.capacity = 0 then (io, .returned (.ok data))
    else if c.capacity < data.length then (io, .returned (.ok data))
    else if c.capacity < c.currentSize + data.length then
      match c.lruQueue with
      | [] => (io, .evicting data)
      | victim :: rest => ({ io with blockCache := some { c with lruQueue := rest } }, .removing victim data)
    else (io, .inserting data)

def BlockReader.nextPc (io : TableIo) (t : BlockReader) : Option (TableIo × BlockReadPc) :=
  let key : CacheKey := ⟨fileNumber, t.handle.offset⟩
  match t.pc with
  | .start =>
    match if t.cached then io.blockCache.bind fun c => c.lookup key else none with
    | some data => some (io, .touching data)
    | none => some (io, .seeking)
  | .touching data => some ({ io with blockCache := io.blockCache.map (·.touch key) }, .returned (.ok data))
  | .seeking =>
    let io := { io with cursor := t.handle.offset }
    if t.handle.size < 5 then some (io, .returned (.error (.corruption "Block size too small")))
    else some (io, .reading)
  | .reading => some (t.readData snappy file io)
  | .evicting data => some (makeRoom io data)
  | .removing victim data => some ({ io with blockCache := io.blockCache.map (·.remove victim) }, .evicting data)
  | .inserting data =>
    some ({ io with blockCache := io.blockCache.map (·.store key data) }, .returned (.ok data))
  | .returned _ => none

def BlockReader.next (io : TableIo) (t : BlockReader) : Option (TableIo × BlockReader) :=
  match t.nextPc snappy file fileNumber io with
  | none => none
  | some (io, pc) => some (io, { t with pc })

def runReads (io : TableIo) (threads : List BlockReader) (schedule : List Nat) : Option (Config TableIo BlockReader) :=
  (Config.mk io threads).run (BlockReader.next snappy file fileNumber) schedule

end Next

def BlockReader.answer (t : BlockReader) : Option (Except Error Bytes) :=
  match t.pc with
  | .returned r => some r
  | _ => none

-- ---------------------------------------------------------------------------
-- Reads that find the position where they left it
-- ---------------------------------------------------------------------------

def BlockReadPc.isReading : BlockReadPc → Bool
  | .reading => true
  | _ => false

/-- The read is not about to read from another place than its own. -/
def BlockReader.Positioned (io : TableIo) (t : BlockReader) : Prop :=
  t.pc.isReading = true → io.cursor = t.handle.offset

instance (io : TableIo) (t : BlockReader) : Decidable (t.Positioned io) :=
  inferInstanceAs (Decidable (_ → _))

section Sound

variable (snappy : Decompress) (file : Bytes) (fileNumber : Nat) (handles : List BlockHandle)

/-- No block of the table is in the cache under the offset of another. -/
def TableIo.Sound (io : TableIo) : Prop :=
  ∀ c, io.blockCache = some c → ∀ h ∈ handles, ∀ data,
    c.cache ⟨fileNumber, h.offset⟩ = some data → blockAt snappy file h = .ok data

def BlockReadPc.Own (handle : BlockHandle) : BlockReadPc → Prop
  | .start | .seeking => True
  | .reading => 5 ≤ handle.size
  | .touching data | .evicting data | .removing _ data | .inserting data => blockAt snappy file handle = .ok data
  | .returned r => r = blockAt snappy file handle

end Sound

variable {snappy : Decompress} {file : Bytes} {fileNumber : Nat} {handles : List BlockHandle} {io io' : TableIo}
  {t : BlockReader}

theorem TableIo.Sound.of_cache (h : io.Sound snappy file fileNumber handles)
    (hc : ∀ c', io'.blockCache = some c' → ∃ c, io.blockCache = some c ∧
      ∀ key data, c'.cache key = some data → c.cache key = some data) :
    io'.Sound snappy file fileNumber handles := by
  intro c' hc' hd hhd data hdata
  obtain ⟨c, hc, hsub⟩ := hc c' hc'
  exact h c hc hd hhd data (hsub _ data hdata)

theorem TableIo.Sound.touch (h : io.Sound snappy file fileNumber handles) (key : CacheKey) :
    TableIo.Sound snappy file fileNumber handles { io with blockCache := io.blockCache.map (·.touch key) } := by
  refine h.of_cache fun c' hc' => ?_
  obtain ⟨c, hc, rfl⟩ := Option.map_eq_some_iff.mp hc'
  exact ⟨c, hc, fun _ _ hdata => hdata⟩

theorem TableIo.Sound.remove (h : io.Sound snappy file fileNumber handles) (victim : CacheKey) :
    TableIo.Sound snappy file fileNumber handles { io with blockCache := io.blockCache.map (·.remove victim) } := by
  refine h.of_cache fun c' hc' => ?_
  obtain ⟨c, hc, rfl⟩ := Option.map_eq_some_iff.mp hc'
  refine ⟨c, hc, fun key data hdata => ?_⟩
  rw [BlockCache.remove_cache, Function.update_apply] at hdata
  split at hdata
  · cases hdata
  · exact hdata

/-- The insert is the one step that puts a block into the cache; handles are told
apart by their offsets. -/
theorem TableIo.Sound.store (h : io.Sound snappy file fileNumber handles)
    (hinj : ∀ a ∈ handles, ∀ b ∈ handles, a.offset = b.offset → a = b) {hd : BlockHandle} (hhd : hd ∈ handles)
    (hdata : blockAt snappy file hd = .ok data) :
    TableIo.Sound snappy file fileNumber handles
      { io with blockCache := io.blockCache.map (·.store ⟨fileNumber, hd.offset⟩ data) } := by
  intro c' hc' hd' hhd' data' hdata'
  obtain ⟨c, hc, rfl⟩ := Option.map_eq_some_iff.mp hc'
  rw [BlockCache.store_cache, Function.update_apply] at hdata'
  split at hdata'
  · rename_i hkey
    have hoff : hd'.offset = hd.offset := congrArg CacheKey.offset hkey
    rw [hinj hd' hhd' hd hhd hoff, hdata, Option.some.inj hdata']
  · exact h c hc hd' hhd' data' hdata'

theorem BlockReader.readData_own (hsize : 5 ≤ t.handle.size) (hcursor : io.cursor = t.handle.offset) :
    (t.readData snappy file io).2.Own snappy file t.handle := by
  -- at its own offset the read is the one that has the file to itself
  have hat : (readExact file io.cursor t.handle.size).1.bind (decodeBlock snappy) = blockAt snappy file t.handle := by
    rw [blockAt, if_neg (Nat.not_lt.mpr hsize), hcursor]
  unfold BlockReader.readData
  dsimp only
  rw [hat]
  cases hblock : blockAt snappy file t.handle with
  | error e => exact hblock.symm
  | ok data =>
    dsimp only
    split
    · exact hblock
    · exact hblock.symm

theorem BlockReader.makeRoom_sound {handle : BlockHandle} (h : io.Sound snappy file fileNumber handles)
    (hdata : blockAt snappy file handle = .ok data) :
    (makeRoom io data).1.Sound snappy file fileNumber handles ∧ (makeRoom io data).2.Own snappy file handle := by
  unfold BlockReader.makeRoom
  split
  · exact ⟨h, hdata.symm⟩
  · rename_i c hc
    split_ifs
    · exact ⟨h, hdata.symm⟩
    · exact ⟨h, hdata.symm⟩
    · split
      · exact ⟨h, hdata⟩
      · refine ⟨h.of_cache fun c' hc' => ⟨c, hc, ?_⟩, hdata⟩
        cases hc'
        exact fun _ _ hd => hd
    · exact ⟨h, hdata⟩

theorem BlockReader.nextPc_sound (hinj : ∀ a ∈ handles, ∀ b ∈ handles, a.offset = b.offset → a = b)
    (hio : io.Sound snappy file fileNumber handles) (hmem : t.handle ∈ handles)
    (hown : t.pc.Own snappy file t.handle) (hpos : t.Positioned io)
    {pc' : BlockReadPc} (hnext : t.nextPc snappy file fileNumber io = some (io', pc')) :
    io'.Sound snappy file fileNumber handles ∧ pc'.Own snappy file t.handle := by
  obtain ⟨handle, cached, now⟩ := t
  dsimp only at hmem hown
  cases now with
  | start =>
    simp only [BlockReader.nextPc] at hnext
    split at hnext
    · rename_i data hhit
      cases hnext
      refine ⟨hio, ?_⟩
      split at hhit
      · obtain ⟨c, hc, hlookup⟩ := Option.bind_eq_some_iff.mp hhit
        unfold BlockCache.lookup at hlookup
        split at hlookup
        · cases hlookup
        · exact hio c hc handle hmem data hlookup
      · cases hhit
    · cases hnext
      exact ⟨hio, trivial⟩
  | touching data =>
    cases hnext
    exact ⟨hio.touch _, hown.symm⟩
  | seeking =>
    simp only [BlockReader.nextPc] at hnext
    split at hnext
    · rename_i hsize
      cases hnext
      exact ⟨hio, by simp only [BlockReadPc.Own, blockAt, if_pos hsize]⟩
    · rename_i hsize
      cases hnext
      exact ⟨hio, Nat.not_lt.mp hsize⟩
  | reading =>
    have hdata : (BlockReader.readData snappy file io ⟨handle, cached, .reading⟩).2.Own snappy file handle :=
      BlockReader.readData_own hown (hpos rfl)
    cases hnext
    exact ⟨hio, hdata⟩
  | evicting data =>
    have hroom := BlockReader.makeRoom_sound hio hown
    rw [show BlockReader.makeRoom io data = (io', pc') from Option.some.inj hnext] at hroom
    exact hroom
  | removing victim data =>
    cases hnext
    exact ⟨hio.remove victim, hown⟩
  | inserting data =>
    cases hnext
    exact ⟨hio.store hinj hmem hown, hown.symm⟩
  | returned r => cases hnext

theorem SstFile.WellFormed.handle_eq {f : SstFile} (hf : f.WellFormed) :
    ∀ a ∈ f.index.map Prod.snd, ∀ b ∈ f.index.map Prod.snd, a.offset = b.offset → a = b := by
  have hlt : (f.index.map Prod.snd).Pairwise fun a b => a.offset < b.offset := by
    rw [hf.index_eq, indexOf, List.map_map, List.pairwise_map]
    exact hf.offsets
  have hnodup : ((f.index.map Prod.snd).map BlockHandle.offset).Nodup :=
    (List.pairwise_map.mpr hlt).imp fun h => Nat.ne_of_lt h
  exact fun a ha b hb hoff => List.inj_on_of_nodup_map hnodup ha hb hoff

/-- In an interleaving of block reads of one table that all find the file position where
their own seek left it, every read that has returned has returned what is stored at its
own handle, and the cache holds no block under the offset of another. -/
theorem blockReads_own_of_positioned {f : SstFile} (hf : f.WellFormed) {threads : List BlockReader}
    (hstart : ∀ t ∈ threads, t.pc = .start ∧ t.handle ∈ f.index.map Prod.snd)
    (hio : io.Sound snappy file fileNumber (f.index.map Prod.snd)) {schedule : List Nat}
    (hpos : (Config.mk io threads).Along (BlockReader.next snappy file fileNumber) (fun io _ t => t.Positioned io)
      schedule)
    (hrun : runReads snappy file fileNumber io threads schedule = some c) :
    (∀ t ∈ c.threads, ∀ r, t.answer = some r → r = blockAt snappy file t.handle) ∧
      c.shared.Sound snappy file fileNumber (f.index.map Prod.snd) := by
  let I : Config TableIo BlockReader → Prop := fun c =>
    c.shared.Sound snappy file fileNumber (f.index.map Prod.snd) ∧
      ∀ t ∈ c.threads, t.handle ∈ f.index.map Prod.snd ∧ t.pc.Own snappy file t.handle
  have hI : I c := by
    refine Config.run_invariant (I := I) ?_ ⟨hio, fun t ht => ?_⟩ hpos hrun
    · rintro c i t s t' ⟨hsound, hown⟩ hpos ht hnext
      obtain ⟨hmem, howns⟩ := hown t (List.mem_of_getElem? ht)
      unfold BlockReader.next at hnext
      split at hnext
      · cases hnext
      · rename_i io' pc hpc
        cases hnext
        obtain ⟨hsound', hown'⟩ := BlockReader.nextPc_sound hf.handle_eq hsound hmem howns hpos hpc
        exact ⟨hsound', Config.forall_set hown ⟨hmem, hown'⟩⟩
    · obtain ⟨hpc, hmem⟩ := hstart t ht
      refine ⟨hmem, ?_⟩
      rw [hpc]
      trivial
  refine ⟨fun t ht r hr => ?_, hI.1⟩
  have hown := (hI.2 t ht).2
  unfold BlockReader.answer at hr
  split at hr
  · rename_i r' hpc
    cases hr
    rw [hpc] at hown
    exact hown
  · cases hr

def oneEntryBlock (key value : UInt8) : Bytes :=
  leBytes 4 0 ++ leBytes 4 1 ++ leBytes 4 1 ++ [key, value] ++ leBytes 4 0 ++ leBytes 4 1

def twoBlocks : Bytes :=
  [oneEntryBlock 97 49, oneEntryBlock 98 50].flatMap fun data => data ++ 0 :: leBytes 4 (Wal.crc32 data).toNat

def twoBlocksTable : SstFile where
  blocks := [⟨⟨0, 27⟩, [⟨[97], ⟨[49], 0⟩⟩]⟩, ⟨⟨27, 27⟩, [⟨[98], ⟨[50], 1⟩⟩]⟩]
  index := [([97], ⟨0, 27⟩), ([98], ⟨27, 27⟩)]
  size := 12707

example : ((SSTableBuilder.new 1 .none).add (fun _ _ => 0) ⟨[97], ⟨[49], 0⟩⟩ >>= fun b =>
    (b.add (fun _ _ => 0) ⟨[98], ⟨[50], 1⟩⟩).map fun b => b.finish (fun _ _ => 0)) = .ok twoBlocksTable := by decide +kernel

theorem twoBlocksTable_wellFormed : twoBlocksTable.WellFormed where
  nonempty := by decide
  ascending := ⟨by decide, by decide⟩
  index_eq := by decide
  offsets := by decide

theorem TableIo.sound_new (cursor capacity : Nat) :
    TableIo.Sound snappy file fileNumber handles ⟨cursor, some (.new capacity)⟩ := by
  rintro c hc h hh data hdata
  cases hc
  cases hdata

theorem blockReads_own_in_turn : ∃ c, runReads .ok twoBlocks 1 ⟨0, some (.new 1024)⟩
      [⟨⟨0, 27⟩, true, .start⟩, ⟨⟨27, 27⟩, true, .start⟩] [0, 0, 0, 0, 0, 1, 1, 1, 1, 1] = some c ∧
    c.threads.map BlockReader.answer = [some (.ok (oneEntryBlock 97 49)), some (.ok (oneEntryBlock 98 50))] ∧
    (∀ t ∈ c.threads, ∀ r, t.answer = some r → r = blockAt .ok twoBlocks t.handle) ∧
    c.shared.Sound .ok twoBlocks 1 (twoBlocksTable.index.map Prod.snd) := by
  have hcheck : (runReads .ok twoBlocks 1 ⟨0, some (.new 1024)⟩
      [⟨⟨0, 27⟩, true, .start⟩, ⟨⟨27, 27⟩, true, .start⟩] [0, 0, 0, 0, 0, 1, 1, 1, 1, 1]).map
        (fun c => c.threads.map BlockReader.answer) =
      some [some (.ok (oneEntryBlock 97 49)), some (.ok (oneEntryBlock 98 50))] := by decide +kernel
  obtain ⟨c, hc, heq⟩ := Option.map_eq_some_iff.mp hcheck
  refine ⟨c, hc, heq, blockReads_own_of_positioned twoBlocksTable_wellFormed ?_ (TableIo.sound_new 0 1024)
    (Config.along_of_check (by decide +kernel)) hc⟩
  simp [twoBlocksTable]

/-- Both reads have sought their block when the first one reads: it returns the other's block,
whose checksum is right, and caches it under its own offset. -/
theorem blockReads_not_own_sought_between : ∃ c, runReads .ok twoBlocks 1 ⟨0, some (.new 1024)⟩
      [⟨⟨0, 27⟩, true, .start⟩, ⟨⟨27, 27⟩, true, .start⟩] [0, 0, 1, 1, 0, 0, 0] = some c ∧
    ¬(∀ t ∈ c.threads, ∀ r, t.answer = some r → r = blockAt .ok twoBlocks t.handle) ∧
    ¬c.shared.Sound .ok twoBlocks 1 (twoBlocksTable.index.map Prod.snd) := by
  have hthreads : (runReads .ok twoBlocks 1 ⟨0, some (.new 1024)⟩
      [⟨⟨0, 27⟩, true, .start⟩, ⟨⟨27, 27⟩, true, .start⟩] [0, 0, 1, 1, 0, 0, 0]).map
        (fun c => c.threads.map fun t => (t.handle, t.answer)) =
      some [(⟨0, 27⟩, some (.ok (oneEntryBlock 98 50))), (⟨27, 27⟩, none)] := by decide +kernel
  have hcache : (runReads .ok twoBlocks 1 ⟨0, some (.new 1024)⟩
      [⟨⟨0, 27⟩, true, .start⟩, ⟨⟨27, 27⟩, true, .start⟩] [0, 0, 1, 1, 0, 0, 0]).map
        (fun c => c.shared.blockCache.bind (·.cache ⟨1, 0⟩)) = some (some (oneEntryBlock 98 50)) := by decide +kernel
  have hblock : blockAt .ok twoBlocks ⟨0, 27⟩ = .ok (oneEntryBlock 97 49) := by decide +kernel
  have hne : oneEntryBlock 98 50 ≠ oneEntryBlock 97 49 := by decide
  obtain ⟨c, hc, hthreads⟩ := Option.map_eq_some_iff.mp hthreads
  rw [hc, Option.map_some, Option.some.injEq] at hcache
  refine ⟨c, hc, fun hown => ?_, fun hsound => ?_⟩
  · have hmem : (⟨0, 27⟩, some (.ok (oneEntryBlock 98 50))) ∈ c.threads.map fun t => (t.handle, t.answer) := by
      rw [hthreads]
      exact List.mem_cons_self
    obtain ⟨t, ht, heq⟩ := List.mem_map.mp hmem
    obtain ⟨hhandle, hanswer⟩ := by simpa only [Prod.mk.injEq] using heq
    have hr := hown t ht _ hanswer
    rw [hhandle, hblock] at hr
    exact hne (Except.ok.inj hr)
  · obtain ⟨cache, hio, hdata⟩ := Option.bind_eq_some_iff.mp hcache
    have hr := hsound cache hio ⟨0, 27⟩ (by decide) _ hdata
    rw [hblock] at hr
    exact hne (Except.ok.inj hr).symm

end AiDb
