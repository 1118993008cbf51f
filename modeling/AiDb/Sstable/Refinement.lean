import AiDb.Files
import AiDb.Sstable.Layout

/-!
# The bytes of a table and its decoded contents

The database is modelled over decoded tables: blocks of entries at handles, the index,
the keys in the filter and the size of the file. Here the decoded builder and the one
that writes bytes take the same steps, so that the file on disk and its reader are those
of the format.
-/

namespace AiDb

/-- The entries added one after the other, up to the first that is refused. -/
def SSTableBuilder.addEach (len : CompressedLen) : SSTableBuilder → List Entry → Except Error SSTableBuilder
  | b, [] => .ok b
  | b, e :: es => do addEach len (← b.add len e) es

namespace Sstable

def SSTableBuilder.addEach (snap : Snap) : SSTableBuilder → List (Bytes × Bytes) → Except Error SSTableBuilder
  | b, [] => .ok b
  | b, (key, value) :: rest =>
    match b.add snap key value with
    | (.ok (), b) => addEach snap b rest
    | (.error e, _) => .error e

-- ---------------------------------------------------------------------------
-- Sizes
-- ---------------------------------------------------------------------------

/-- More than the entries take in a table, and their keys in its index. -/
def volume (es : List Entry) : Nat := (es.map fun e => e.key.length + e.value.bytes.length + 40).sum

@[simp] theorem volume_append (es es' : List Entry) : volume (es ++ es') = volume es + volume es' := by simp [volume]

@[simp] theorem volume_singleton (e : Entry) : volume [e] = e.key.length + e.value.bytes.length + 40 := by simp [volume]

theorem key_le_volume (h : e ∈ es) : e.key.length + e.value.bytes.length + 40 ≤ volume es :=
  List.le_sum_of_mem (List.mem_map.mpr ⟨e, h, rfl⟩)

theorem currentSize_add_le (d : AiDb.BlockBuilder) (e : Entry) :
    (d.add e).currentSize ≤ d.currentSize + (e.key.length + e.value.bytes.length + 16) := by
  simp only [AiDb.BlockBuilder.currentSize, AiDb.BlockBuilder.add]
  split
  · omega
  · split <;> omega

theorem encodes_indexBlock (index : Index) : ((BlockBuilder.new 1).addAll (index.map indexEntry)).Encodes
    (index.foldl (fun b e => b.add ⟨e.1, ⟨e.2.encode, 0⟩⟩) (AiDb.BlockBuilder.new 1)) := by
  induction index using List.reverseRecOn with
  | nil => exact BlockBuilder.encodes_new 1
  | append_singleton index e ih =>
    rw [List.map_append, BlockBuilder.addAll_append, List.foldl_append]
    exact ih.add (indexEntry e)

theorem indexBlockLen_le (index : Index) : indexBlockLen index ≤ 8 + (index.map fun e => e.1.length + 32).sum := by
  unfold indexBlockLen
  induction index using List.reverseRecOn with
  | nil => decide
  | append_singleton index e ih =>
    rw [List.foldl_append, List.map_append, List.sum_append]
    have hadd := currentSize_add_le
      (index.foldl (fun b e => b.add ⟨e.1, ⟨e.2.encode, 0⟩⟩) (AiDb.BlockBuilder.new 1)) ⟨e.1, ⟨e.2.encode, 0⟩⟩
    simp only [BlockHandle.length_encode] at hadd
    simp only [List.foldl_cons, List.foldl_nil, List.map_cons, List.map_nil, List.sum_cons, List.sum_nil]
    omega

theorem indexOf_volume {blocks : List AiDb.Block} (hne : ∀ b ∈ blocks, b.entries ≠ []) :
    ((indexOf blocks).map fun e => e.1.length + 32).sum ≤ volume (blocks.flatMap AiDb.Block.entries) := by
  induction blocks with
  | nil => exact Nat.zero_le _
  | cons b blocks ih =>
    obtain ⟨e, he, hkey⟩ := lastKeyOf_mem (hne b List.mem_cons_self)
    have hfirst := key_le_volume he
    have hrest := ih fun x hx => hne x (List.mem_cons_of_mem _ hx)
    rw [List.flatMap_cons, volume_append]
    simp only [indexOf, List.map_cons, List.sum_cons, hkey] at hrest ⊢
    omega

-- ---------------------------------------------------------------------------
-- Adding
-- ---------------------------------------------------------------------------

namespace SSTableBuilder

variable {snap : Snap} {limit : Nat} {b : SSTableBuilder} {d d' : AiDb.SSTableBuilder} {es : List Entry}

theorem Encodes.add (h : b.Encodes snap limit d) (hc : Usable snap limit b.compression) (hlimit : limit ≤ 2 ^ 32)
    (hroom : (b.dataBlockBuilder.add e.key e.value.bytes).currentSize < limit)
    (hadd : d.add (packedLen snap) e = .ok d') :
    (b.add snap e.key e.value.bytes).1 = .ok () ∧ (b.add snap e.key e.value.bytes).2.Encodes snap limit d' := by
  have hpush := h.takePending.push e (by rwa [takePending_dataBlockBuilder])
  unfold AiDb.SSTableBuilder.add at hadd
  unfold SSTableBuilder.add
  rw [h.lastKey]
  split at hadd
  · cases hadd
  · rename_i hne
    rw [if_neg hne]
    split at hadd
    · cases hadd
    · rename_i hord
      rw [if_neg hord]
      simp only at hadd ⊢
      rw [hpush.block.currentSize, hpush.blockSize]
      split at hadd
      · rename_i hsize
        cases hadd
        rw [if_pos hsize]
        refine hpush.flushDataBlock ?_ hlimit
        rw [addToFilter_compression]
        exact b.takePending_compression ▸ hc
      · rename_i hsize
        cases hadd
        rw [if_neg hsize]
        exact ⟨rfl, hpush⟩

theorem Encodes.add_error (h : b.Encodes snap limit d) (hadd : d.add len e = .error err) :
    b.add snap e.key e.value.bytes = (.error err, b) := by
  unfold AiDb.SSTableBuilder.add at hadd
  unfold SSTableBuilder.add
  rw [h.lastKey]
  split at hadd
  · rename_i hne
    cases hadd
    rw [if_pos hne]
  · rename_i hne
    rw [if_neg hne]
    split at hadd
    · rename_i hord
      cases hadd
      rw [if_pos hord]
    · simp only at hadd
      split at hadd <;> cases hadd

structure Mirrors (snap : Snap) (b : SSTableBuilder) (d : AiDb.SSTableBuilder) (es : List Entry) : Prop where
  built : b.Built snap (2 ^ 32) es (fedBy true (es.map pairOf))
  encodes : b.Encodes snap (2 ^ 32) d
  holds : d.Holds es
  enabled : b.enableBloomFilter = true
  numEntries : d.numEntries = es.length
  size : d.dataBlockBuilder.currentSize ≤ 8 + volume es

theorem size_flushDataBlock_le (d : AiDb.SSTableBuilder) (len : CompressedLen) :
    (d.flushDataBlock len).dataBlockBuilder.currentSize ≤ max 8 d.dataBlockBuilder.currentSize := by
  unfold AiDb.SSTableBuilder.flushDataBlock
  split
  · exact le_max_right _ _
  · exact le_max_left _ _

theorem counts_of_add (hadd : d.add len e = .ok d') : d'.numEntries = d.numEntries + 1 ∧
    d'.dataBlockBuilder.currentSize ≤ max 8 (d.dataBlockBuilder.currentSize + (e.key.length + e.value.bytes.length + 16)) := by
  have hsize := currentSize_add_le d.dataBlockBuilder e
  unfold AiDb.SSTableBuilder.add at hadd
  split at hadd
  · cases hadd
  · split at hadd
    · cases hadd
    · simp only [AiDb.SSTableBuilder.takePending_dataBlockBuilder] at hadd
      split at hadd
      · cases hadd
        refine ⟨?_, (size_flushDataBlock_le _ len).trans (max_le_max_left 8 hsize)⟩
        unfold AiDb.SSTableBuilder.flushDataBlock AiDb.SSTableBuilder.takePending
        split <;> split <;> rfl
      · cases hadd
        refine ⟨?_, hsize.trans (le_max_right _ _)⟩
        unfold AiDb.SSTableBuilder.takePending
        split <;> rfl

theorem Mirrors.add (h : Mirrors snap b d es) (hsmall : volume (es ++ [e]) + 64 < 2 ^ 32)
    (hadd : d.add (packedLen snap) e = .ok d') :
    ∃ b', b.add snap e.key e.value.bytes = (.ok (), b') ∧ Mirrors snap b' d' (es ++ [e]) := by
  have hholds := h.holds.add hadd
  rw [volume_append, volume_singleton] at hsmall
  have hroom : (b.dataBlockBuilder.add e.key e.value.bytes).currentSize < 2 ^ 32 := by
    rw [(h.encodes.block.add e).currentSize]
    have hadd := currentSize_add_le d.dataBlockBuilder e
    have hsize := h.size
    omega
  obtain ⟨hok, henc⟩ := h.encodes.add h.built.usable (le_refl _) hroom hadd
  have hlast := hholds.ascending
  have hne : e.key ≠ [] := hlast.key_ne e (by simp)
  have hlt : ∀ x ∈ es, x.key < e.key := fun x hx => (List.pairwise_append.mp hlast.sorted).2.2 x hx e (by simp)
  have hbuilt := (h.built.add_ok (le_refl _) e hne hlt ⟨by omega, by omega⟩ hroom).2
  obtain ⟨hnum, hsize⟩ := counts_of_add hadd
  refine ⟨(b.add snap e.key e.value.bytes).2, Prod.ext hok rfl, ?_, henc, hholds, ?_, ?_, ?_⟩
  · rw [List.map_append, List.map_singleton, fedBy_append_singleton]
    rw [h.enabled] at hbuilt
    exact hbuilt
  · rw [add_enableBloomFilter, h.enabled]
  · simp [hnum, h.numEntries]
  · have hold := h.size
    rw [volume_append, volume_singleton]
    omega

/-- The two builders take the same entries, and refuse the same one for the same reason. -/
theorem Mirrors.addEach {rest : List Entry} (h : Mirrors snap b d es) (hsmall : volume (es ++ rest) + 64 < 2 ^ 32) :
    (∀ d', d.addEach (packedLen snap) rest = .ok d' →
      ∃ b', b.addEach snap (rest.map pairOf) = .ok b' ∧ Mirrors snap b' d' (es ++ rest)) ∧
    ∀ err, d.addEach (packedLen snap) rest = .error err → b.addEach snap (rest.map pairOf) = .error err := by
  induction rest generalizing b d es with
  | nil =>
    rw [List.append_nil]
    refine ⟨fun d' hd' => ?_, fun err herr => ?_⟩
    · cases hd'
      exact ⟨b, rfl, h⟩
    · cases herr
  | cons e rest ih =>
    have hfirst : volume (es ++ [e]) + 64 < 2 ^ 32 := by
      refine lt_of_le_of_lt ?_ hsmall
      rw [List.append_cons es e rest, volume_append (es ++ [e]) rest]
      exact Nat.add_le_add_right (Nat.le_add_right _ _) 64
    cases hadd : d.add (packedLen snap) e with
    | error err =>
      have hb := h.encodes.add_error hadd
      refine ⟨fun d' hd' => ?_, fun err' herr => ?_⟩
      · simp [AiDb.SSTableBuilder.addEach, hadd, bind, Except.bind] at hd'
      · simp only [AiDb.SSTableBuilder.addEach, hadd, bind, Except.bind] at herr
        cases herr
        simp [SSTableBuilder.addEach, pairOf, hb]
    | ok d1 =>
      obtain ⟨b1, hb1, h1⟩ := h.add hfirst hadd
      have hrest := ih h1 (by simpa using hsmall)
      simpa [AiDb.SSTableBuilder.addEach, SSTableBuilder.addEach, pairOf, hadd, hb1, bind, Except.bind] using hrest

-- ---------------------------------------------------------------------------
-- Finishing
-- ---------------------------------------------------------------------------

theorem numEntries_flushed (d : AiDb.SSTableBuilder) (len : CompressedLen) :
    (d.flushDataBlock len).takePending.numEntries = d.numEntries := by
  unfold AiDb.SSTableBuilder.flushDataBlock AiDb.SSTableBuilder.takePending
  split <;> split <;> rfl

theorem length_fedBy_filter (h : b.FilterOf (fedBy true taken)) (hne : taken ≠ []) : b.metaBlockData.length = 12 + 12500 := by
  rw [fedBy_eq, if_neg (by simp [hne])] at h
  unfold FilterOf at h
  cases hf : b.bloomFilter with
  | none =>
    rw [hf] at h
    cases h
  | some filter =>
    rw [hf] at h
    cases h with
    | some hof => simp only [metaBlockData, hf, hof.length_encode, hof.numBits, BloomFilter.Fed.default, Filter.defaultBits, numBytes]

theorem Encodes.indexBlockLen (h : b.Encodes snap limit d) : b.indexBlockBuilder.currentSize = indexBlockLen d.index := by
  show b.indexBlockBuilder.builder.currentSize = _
  rw [h.index]
  exact (encodes_indexBlock d.index).currentSize

/-- The file that the builder leaves is that of the decoded table, and has its size. -/
theorem Mirrors.finish (h : Mirrors snap b d es) (hne : es ≠ []) (hsmall : volume es + 64 < 2 ^ 32) :
    b.finish snap = .ok ((d.finish (packedLen snap)).size, (b.sealed snap).file) ∧
      (b.sealed snap).file.length = (d.finish (packedLen snap)).size ∧
      (b.sealed snap).Sealed snap (2 ^ 32) (d.flushDataBlock (packedLen snap)).takePending (d.finish (packedLen snap))
        (fedBy true (es.map pairOf)) := by
  obtain ⟨hok, hflushed⟩ := h.encodes.flushDataBlock h.built.usable (le_refl _)
  obtain ⟨hwf, hentries⟩ := h.holds.finish_wellFormed (packedLen snap)
  have henc : (b.sealed snap).Encodes snap (2 ^ 32) (d.flushDataBlock (packedLen snap)).takePending := hflushed.takePending
  have hindex : (b.sealed snap).indexBlockBuilder.currentSize ≤ 8 + volume es := by
    have hvolume := indexOf_volume hwf.nonempty
    rw [← hwf.index_eq, show (d.finish (packedLen snap)).blocks.flatMap AiDb.Block.entries = es from hentries] at hvolume
    rw [henc.indexBlockLen]
    exact (indexBlockLen_le _).trans (Nat.add_le_add_left hvolume 8)
  have hfilter : (b.sealed snap).FilterOf (fedBy true (es.map pairOf)) := h.built.filter.of_eq (b.sealed_bloomFilter snap)
  have hsealed : (b.sealed snap).Sealed snap (2 ^ 32) (d.flushDataBlock (packedLen snap)).takePending (d.finish (packedLen snap))
      (fedBy true (es.map pairOf)) :=
    ⟨henc, hwf, rfl, rfl, hentries ▸ h.built.fits, hfilter, by omega⟩
  have hsize : (b.sealed snap).writeTail.1 = (d.finish (packedLen snap)).size := by
    have hnum : (d.flushDataBlock (packedLen snap)).takePending.numEntries ≠ 0 := by
      rw [numEntries_flushed, h.numEntries]
      exact mt List.length_eq_zero_iff.mp hne
    have hmeta := length_fedBy_filter hfilter (by simpa using hne)
    have hlen := henc.indexBlockLen
    simp only [writeTail, footer, hmeta, henc.dataBlockOffset, IndexBlockBuilder.finish, BlockBuilder.length_finish]
    simp only [AiDb.SSTableBuilder.finish, if_neg hnum, ← hlen]
    rfl
  have hfinish : b.finish snap = .ok (b.sealed snap).writeTail := by
    unfold SSTableBuilder.finish sealed
    rw [show b.flushDataBlock snap = (.ok (), (b.flushDataBlock snap).2) from Prod.ext hok rfl]
  refine ⟨?_, hsealed.size_eq.symm.trans hsize, hsealed⟩
  rw [hfinish, ← hsize]
  rfl

end SSTableBuilder

-- ---------------------------------------------------------------------------
-- Iterators
-- ---------------------------------------------------------------------------

inductive TableMove
  | seekToFirst
  | advance

/-- What the caller sees after each of these moves: the entry it is at, if there is one. -/
def SSTableIterator.seen (snap : Snap) : SSTableIterator → List TableMove → Except Error (List (Option (Bytes × Bytes)))
  | _, [] => .ok []
  | it, .seekToFirst :: ms => do
    let it ← it.seekToFirst snap
    return none :: (← seen snap it ms)
  | it, .advance :: ms => do
    let (more, it) ← it.advance snap
    return (if more then it.entry else none) :: (← seen snap it ms)

end Sstable

def SSTableIterator.seen (read : BlockRead) : SSTableIterator → List Sstable.TableMove → Except Error (List (Option Entry))
  | _, [] => .ok []
  | it, .seekToFirst :: ms => do
    let it ← it.seekToFirst read
    return none :: (← seen read it ms)
  | it, .advance :: ms => do
    let (more, it) ← it.advance read
    return (if more then it.entry else none) :: (← seen read it ms)

namespace Sstable

namespace BlockIterator

structure Mirrors (iter : BlockIterator) (decoded : AiDb.BlockIterator) : Prop where
  stands : ∃ done, iter.Stands 16 done decoded.rest
  valid : iter.valid = decoded.valid
  current : ∀ e ∈ decoded.current, (iter.key, iter.value) = pairOf e
  fits : ∀ e ∈ decoded.rest, Fits e

variable {iter : BlockIterator} {decoded : AiDb.BlockIterator}

theorem seekToFirst_mirrors (hfit : ∀ e ∈ es, Fits e) :
    (blockOf 16 es).iter.seekToFirst.Mirrors (.seekToFirst es) where
  stands := ⟨[], (seekToFirst_stands 16 es).1⟩
  valid := (seekToFirst_stands 16 es).2
  current := by simp [AiDb.BlockIterator.seekToFirst]
  fits := hfit

theorem Stands.advance_end (h : iter.Stands interval done []) (hv : iter.valid = true) :
    iter.advance = (false, { iter with valid := false }) := by
  have hend : iter.current ≥ iter.block.restartOffset := by
    rw [h.current, h.block, List.append_nil]
    exact le_refl _
  simp [advance, parseNextEntry, hv, hend]

theorem Mirrors.advance (h : iter.Mirrors decoded) : iter.advance.1 = decoded.advance.1 ∧
    iter.advance.2.Mirrors decoded.advance.2 ∧
    (decoded.advance.1 = true → decoded.advance.2.current.map pairOf = some (iter.advance.2.key, iter.advance.2.value)) := by
  obtain ⟨rest, current, valid⟩ := decoded
  obtain ⟨⟨done, hstands⟩, hvalid, hcurrent, hfits⟩ := h
  cases valid with
  | false =>
    have hiter : iter.advance = (false, iter) := by simp [BlockIterator.advance, hvalid]
    rw [hiter]
    exact ⟨rfl, ⟨⟨done, hstands⟩, hvalid, hcurrent, hfits⟩, fun h => by simp [AiDb.BlockIterator.advance] at h⟩
  | true =>
    cases rest with
    | nil =>
      rw [hstands.advance_end hvalid]
      refine ⟨rfl, ⟨⟨done, ?_⟩, rfl, hcurrent, hfits⟩, fun h => by simp [AiDb.BlockIterator.advance] at h⟩
      exact ⟨hstands.block, hstands.current, hstands.key⟩
    | cons e rest =>
      obtain ⟨hadv, hnext, hv, hk, hval⟩ := hstands.advance_cons hvalid (hfits e List.mem_cons_self)
      have hpair : (iter.advance.2.key, iter.advance.2.value) = pairOf e := by rw [hk, hval, pairOf]
      refine ⟨hadv, ⟨⟨_, hnext⟩, hv, ?_, fun x hx => hfits x (List.mem_cons_of_mem e hx)⟩, fun _ => congrArg some hpair.symm⟩
      rintro x hx
      obtain rfl : e = x := Option.some.inj hx
      exact hpair

end BlockIterator

namespace SSTableIterator

structure Mirrors (r : SSTableReader) (f : SstFile) (it : SSTableIterator) (decoded : AiDb.SSTableIterator) : Prop where
  file : it.file = r.file
  index : it.indexIterEntries = f.index
  decodedIndex : decoded.indexIterEntries = f.index
  block : it.currentBlockIndex = decoded.currentBlockIndex
  iter : Option.Rel BlockIterator.Mirrors it.currentBlockIter decoded.currentBlockIter

variable {snap : Snap} {r : SSTableReader} {f : SstFile} {it : SSTableIterator} {decoded : AiDb.SSTableIterator}
  {read : BlockRead}

theorem Mirrors.loadCurrentBlock (h : it.Mirrors r f decoded) (hr : r.Reads snap f) (hread : f.ReadBy read) :
    ∃ it' decoded', it.loadCurrentBlock snap = .ok it' ∧ decoded.loadCurrentBlock read = .ok decoded' ∧
      it'.Mirrors r f decoded' := by
  have hindex : f.index[it.currentBlockIndex]? = (f.blocks[it.currentBlockIndex]?).map fun b => (lastKeyOf b.entries, b.handle) := by
    rw [hr.wellFormed.index_eq, indexOf, List.getElem?_map]
  unfold SSTableIterator.loadCurrentBlock AiDb.SSTableIterator.loadCurrentBlock
  rw [h.index, h.decodedIndex, ← h.block, hindex]
  cases hb : f.blocks[it.currentBlockIndex]? with
  | none => exact ⟨_, _, rfl, rfl, h.file, rfl, rfl, rfl, .none⟩
  | some b =>
    have hmem := List.mem_of_getElem? hb
    have hblock := hr.block hmem
    simp only [Option.map_some, h.file, hread b hmem, bind, Except.bind, pure, Except.pure] at hblock ⊢
    rw [(hr.stored b hmem).blockAt] at hblock ⊢
    simp only at hblock ⊢
    rw [hblock]
    exact ⟨_, _, rfl, rfl, rfl, rfl, rfl, rfl, .some (BlockIterator.seekToFirst_mirrors (hr.fits hmem))⟩

theorem Mirrors.seekToFirst (h : it.Mirrors r f decoded) (hr : r.Reads snap f) (hread : f.ReadBy read) :
    ∃ it' decoded', it.seekToFirst snap = .ok it' ∧ decoded.seekToFirst read = .ok decoded' ∧ it'.Mirrors r f decoded' :=
  Mirrors.loadCurrentBlock ⟨h.file, h.index, h.decodedIndex, rfl, h.iter⟩ hr hread

def Stepped (r : SSTableReader) (f : SstFile) (x : Except Error (Bool × SSTableIterator))
    (y : Except Error (Bool × AiDb.SSTableIterator)) : Prop :=
  ∃ more it decoded, x = .ok (more, it) ∧ y = .ok (more, decoded) ∧ it.Mirrors r f decoded ∧
    (more = true → it.entry = decoded.entry.map pairOf)

theorem Mirrors.stepped {iter : BlockIterator} {inner : AiDb.BlockIterator} (h : it.Mirrors r f decoded) (hi : iter.Mirrors inner) :
    Stepped r f (.ok (iter.advance.1, { it with currentBlockIter := some iter.advance.2 }))
      (.ok (inner.advance.1, { decoded with currentBlockIter := some inner.advance.2 })) := by
  obtain ⟨hflag, hnext, hentry⟩ := hi.advance
  refine ⟨inner.advance.1, { it with currentBlockIter := some iter.advance.2 },
    { decoded with currentBlockIter := some inner.advance.2 }, by rw [hflag], rfl,
    ⟨h.file, h.index, h.decodedIndex, h.block, .some hnext⟩, fun hmore => ?_⟩
  exact (hentry hmore).symm

theorem Mirrors.nextBlock (h : it.Mirrors r f decoded) (hr : r.Reads snap f) (hread : f.ReadBy read) :
    Stepped r f (it.nextBlock snap) (decoded.nextBlock read) := by
  have hmoved : { it with currentBlockIndex := it.currentBlockIndex + 1 }.Mirrors r f
      { decoded with currentBlockIndex := decoded.currentBlockIndex + 1 } :=
    ⟨h.file, h.index, h.decodedIndex, congrArg (· + 1) h.block, h.iter⟩
  obtain ⟨it', decoded', hit, hdec, hload⟩ := hmoved.loadCurrentBlock hr hread
  unfold SSTableIterator.nextBlock AiDb.SSTableIterator.nextBlock
  rw [hit, hdec]
  have hiter := hload.iter
  cases hb : it'.currentBlockIter with
  | none =>
    rw [hb] at hiter
    cases hd : decoded'.currentBlockIter with
    | some inner => rw [hd] at hiter; cases hiter
    | none =>
      simp only [bind, Except.bind, pure, Except.pure, hb, hd]
      exact ⟨false, it', decoded', rfl, rfl, hload, fun hmore => by cases hmore⟩
  | some iter =>
    rw [hb] at hiter
    cases hd : decoded'.currentBlockIter with
    | none => rw [hd] at hiter; cases hiter
    | some inner =>
      rw [hd] at hiter
      cases hiter with
      | some hi =>
        simp only [bind, Except.bind, pure, Except.pure, hb, hd]
        exact hload.stepped hi

theorem Mirrors.advance (h : it.Mirrors r f decoded) (hr : r.Reads snap f) (hread : f.ReadBy read) :
    Stepped r f (it.advance snap) (decoded.advance read) := by
  unfold SSTableIterator.advance AiDb.SSTableIterator.advance
  have hiter := h.iter
  cases hb : it.currentBlockIter with
  | none =>
    rw [hb] at hiter
    cases hd : decoded.currentBlockIter with
    | some inner => rw [hd] at hiter; cases hiter
    | none => exact h.nextBlock hr hread
  | some iter =>
    rw [hb] at hiter
    cases hd : decoded.currentBlockIter with
    | none => rw [hd] at hiter; cases hiter
    | some inner =>
      rw [hd] at hiter
      cases hiter with
      | some hi =>
        obtain ⟨hflag, hnext, -⟩ := hi.advance
        have hstep := h.stepped hi
        dsimp only
        rw [hflag] at hstep ⊢
        split
        · rename_i hmore
          rwa [hmore] at hstep
        · exact Mirrors.nextBlock ⟨h.file, h.index, h.decodedIndex, h.block, .some hnext⟩ hr hread

/-- Whatever the moves, both iterators show the same entries. -/
theorem Mirrors.seen (h : it.Mirrors r f decoded) (hr : r.Reads snap f) (hread : f.ReadBy read) (ms : List TableMove) :
    it.seen snap ms = (decoded.seen read ms).map (List.map (Option.map pairOf)) := by
  induction ms generalizing it decoded with
  | nil => rfl
  | cons m ms ih =>
    cases m with
    | seekToFirst =>
      obtain ⟨it', decoded', hit, hdec, hnext⟩ := h.seekToFirst hr hread
      simp only [SSTableIterator.seen, AiDb.SSTableIterator.seen, hit, hdec, bind, Except.bind, ih hnext, pure, Except.pure]
      cases decoded'.seen read ms <;> simp [Except.map]
    | advance =>
      obtain ⟨more, it', decoded', hit, hdec, hnext, hentry⟩ := h.advance hr hread
      simp only [SSTableIterator.seen, AiDb.SSTableIterator.seen, hit, hdec, bind, Except.bind, ih hnext, pure, Except.pure]
      cases more with
      | false => cases decoded'.seen read ms <;> simp [Except.map]
      | true => cases decoded'.seen read ms <;> simp [Except.map, hentry]

end SSTableIterator

-- ---------------------------------------------------------------------------
-- Readers
-- ---------------------------------------------------------------------------

theorem openFile_fields (h : SSTableReader.openFile snap number file = .ok r) :
    r.fileNumber = number ∧ r.fileSize = file.length := by
  unfold SSTableReader.openFile at h
  split at h
  · cases h
  · simp only [bind, Except.bind, pure, Except.pure] at h
    split at h
    · cases h
    · split at h
      · cases h
      · split at h
        · cases h
        · cases h
          exact ⟨rfl, rfl⟩

/-- The reader of the bytes gives what the decoded reader gives that reads its blocks so. -/
structure SSTableReader.Refines (snap : Snap) (r : SSTableReader) (decoded : AiDb.SSTableReader) (read : BlockRead) : Prop where
  fileNumber : r.fileNumber = decoded.fileNumber
  fileSize : r.fileSize = decoded.fileSize
  index : r.indexBlock.iterEntries = decoded.indexBlock.map .ok
  admits : ∀ key, r.Admits key ↔ Filter.mayContain decoded.keys key = true
  get : ∀ key, r.get snap key = .lift ((decoded.get read key).map (Option.map Value.bytes))
  smallestKey : r.smallestKey snap = decoded.smallestKey read
  largestKey : r.largestKey = .ok decoded.largestKey
  blocks : ∀ e ∈ decoded.indexBlock, r.entriesAt snap e.2 = (read e.2).map (List.map pairOf)
  iterators : ∀ ms, (SSTableIterator.new r).seen snap ms =
    ((AiDb.SSTableIterator.new decoded).seen read ms).map (List.map (Option.map pairOf))

theorem mayContain_iff_claims (keys : List Bytes) (key : Bytes) :
    Filter.mayContain keys key = true ↔ BloomFilter.Fed.Claims { BloomFilter.Fed.default with keys } key := by
  simp [Filter.mayContain, BloomFilter.Fed.Claims, BloomFilter.Fed.default]

theorem smallestKey_eq {decoded : AiDb.SSTableReader} {read : BlockRead} (hof : decoded.Of f) (hwf : f.WellFormed) (hread : f.ReadBy read) :
    decoded.smallestKey read = .ok (f.entries.head?.map Entry.key) := by
  rw [hof]
  unfold AiDb.SSTableReader.smallestKey
  dsimp only
  rw [hwf.index_eq]
  cases hb : f.blocks with
  | nil => simp [indexOf, SstFile.entries, hb]
  | cons b rest =>
    have hmem : b ∈ f.blocks := by simp [hb]
    have hne := hwf.nonempty b hmem
    simp only [indexOf, List.map_cons, hread b hmem, bind, Except.bind, pure, Except.pure, SstFile.entries, hb, List.flatMap_cons]
    cases he : b.entries with
    | nil => exact absurd he hne
    | cons e es => rfl

theorem largestKey_eq {decoded : AiDb.SSTableReader} (hof : decoded.Of f) (hwf : f.WellFormed) :
    decoded.largestKey = f.entries.getLast?.map Entry.key := by
  rw [hof]
  unfold AiDb.SSTableReader.largestKey
  dsimp only
  rw [hwf.index_eq]
  simp only [SstFile.entries, indexOf, List.getLast?_map, Option.map_map]
  cases hb : f.blocks using List.reverseRecOn with
  | nil => simp
  | append_singleton rest b =>
    have hne := hwf.nonempty b (by simp [hb])
    simp [lastKeyOf, List.getLast?_append, List.getLast?_eq_some_getLast hne]

theorem SSTableReader.Reads.refines {r : SSTableReader} {decoded : AiDb.SSTableReader} {read : BlockRead} (h : r.Reads snap f)
    (hof : decoded.Of f) (hread : f.ReadBy read) (hnum : r.fileNumber = decoded.fileNumber) (hsize : r.fileSize = f.size)
    (hadmits : ∀ key, r.Admits key ↔ Filter.mayContain (f.entries.map Entry.key) key = true) : r.Refines snap decoded read where
  fileNumber := hnum
  fileSize := by rw [hsize, hof]
  index := by rw [h.iterEntries, hof]
  admits key := by rw [hadmits, hof]
  get key := by
    rw [AiDb.SSTableReader.get_eq hof h.wellFormed hread, h.get_eq ?_ key]
    · rfl
    · exact fun e he => (hadmits e.key).mpr (Filter.mayContain_of_mem (List.mem_map_of_mem he))
  smallestKey := by rw [h.smallestKey, smallestKey_eq hof h.wellFormed hread]
  largestKey := by rw [h.largestKey, largestKey_eq hof h.wellFormed]
  blocks e he := by
    rw [hof] at he
    rw [show e ∈ _ ↔ e ∈ f.index from Iff.rfl, h.wellFormed.index_eq] at he
    obtain ⟨b, hb, rfl⟩ := List.mem_map.mp he
    rw [h.entriesAt hb, hread b hb]
    rfl
  iterators ms := by
    refine SSTableIterator.Mirrors.seen ⟨rfl, ?_, ?_, rfl, .none⟩ h hread ms
    · simp [SSTableIterator.new, h.iterEntries, List.filterMap_map, Function.comp_def, Except.toOption]
    · rw [hof]
      rfl

namespace SSTableBuilder

variable {snap : Snap} {b : SSTableBuilder} {d : AiDb.SSTableBuilder} {es : List Entry}

/-- Finished and opened again, the table is that of the decoded builder. -/
theorem Mirrors.opens (h : Mirrors snap b d es) (hne : es ≠ []) (hsmall : volume es + 64 < 2 ^ 32) :
    let f := d.finish (packedLen snap)
    ∃ bytes, b.finish snap = .ok (f.size, bytes) ∧ bytes.length = f.size ∧
      ∀ number, ∃ r, SSTableReader.openFile snap number bytes = .ok r ∧
        ∀ decoded read, decoded.Of f → decoded.fileNumber = number → f.ReadBy read → r.Refines snap decoded read := by
  intro f
  obtain ⟨hfinish, hlen, hsealed⟩ := h.finish hne hsmall
  refine ⟨_, hfinish, hlen, fun number => ?_⟩
  obtain ⟨r, hopen, hreads, -, hfilter, -⟩ := hsealed.openFile number
  obtain ⟨hnum, hsize⟩ := openFile_fields hopen
  have hentries : f.entries = es := (h.holds.finish_wellFormed (packedLen snap)).2
  have hblocks : f.blocks ≠ [] := fun hnil => by
    rw [SstFile.entries, hnil] at hentries
    exact hne hentries.symm
  refine ⟨r, hopen, fun decoded read hof hdecoded hread => ?_⟩
  refine hreads.refines hof hread (hnum.trans hdecoded.symm) (hsize.trans hlen) fun key => ?_
  rw [h.built.admits_iff hfilter hblocks, fedBy_eq, if_neg (by simp [hne]), hentries, mayContain_iff_claims, List.map_map]
  have hsmallFilter : 12 + numBytes BloomFilter.Fed.default.numBits + 5 ≤ 100000000 := by decide
  exact ⟨fun hall => hall _ rfl hsmallFilter, fun hclaims x hx _ => Option.some.inj hx ▸ hclaims⟩

end SSTableBuilder

end Sstable

end AiDb
