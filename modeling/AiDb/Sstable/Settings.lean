import AiDb.Sstable.Table

/-!
# Settings between the adds

`set_expected_keys` puts a new filter in place of the one that was fed so far, and
while the filter is disabled `add` does not feed it; `finish` writes whatever filter
there is. The other settings change where blocks are cut and how they are packed.
-/

namespace AiDb.Sstable

/-- The floating point formulas of `BloomFilter::new` at a rate of 0.01, as integers:
the bits for a number of keys, and the hash positions for both. -/
structure Sizing where
  numBits : Nat → UInt64
  numHashes : Nat → Nat → UInt32

/-- The formulas with eight digits of their constants, enough for small numbers of keys. -/
def Sizing.decimal : Sizing where
  numBits expectedKeys := .ofNat ((expectedKeys * 958505838 + 99999999) / 100000000)
  numHashes numBits expectedKeys := .ofNat ((numBits * 69314718 + expectedKeys * 100000000 - 1) / (expectedKeys * 100000000))

/-- For 100 keys the bits and the hash positions are these. -/
example : Sizing.decimal.numBits 100 = 959 ∧ Sizing.decimal.numHashes 959 100 = 7 := by decide

namespace BloomFilter

def optimalNumBits (sizing : Sizing) (expectedKeys : Nat) : Nat := max (sizing.numBits expectedKeys).toNat 64

def optimalNumHashes (sizing : Sizing) (numBits expectedKeys : Nat) : Nat :=
  if expectedKeys = 0 then 1 else min (max (sizing.numHashes numBits expectedKeys).toNat 1) 30

def new (sizing : Sizing) (expectedKeys : Nat) : BloomFilter :=
  if expectedKeys = 0 then withBitsAndHashes 64 1
  else
    let numBits := optimalNumBits sizing expectedKeys
    withBitsAndHashes numBits (optimalNumHashes sizing numBits expectedKeys)

def Fed.new (sizing : Sizing) (expectedKeys : Nat) : Fed :=
  ⟨(BloomFilter.new sizing expectedKeys).numBits, (BloomFilter.new sizing expectedKeys).numHashes, []⟩

theorem new_of (sizing : Sizing) (expectedKeys : Nat) :
    (BloomFilter.new sizing expectedKeys).Of (.new sizing expectedKeys) := by
  unfold Fed.new BloomFilter.new
  split_ifs
  · exact withBitsAndHashes_of (by decide) (by decide) (by decide)
  · have hbits := (sizing.numBits expectedKeys).toNat_lt
    refine withBitsAndHashes_of ?_ ?_ ?_
    · unfold optimalNumBits
      omega
    · unfold optimalNumBits
      omega
    · unfold optimalNumHashes
      split_ifs
      omega

end BloomFilter

def SSTableBuilder.setExpectedKeys (sizing : Sizing) (b : SSTableBuilder) (numKeys : Nat) : SSTableBuilder :=
  if b.enableBloomFilter then { b with bloomFilter := some (.new sizing numKeys) } else b

-- ---------------------------------------------------------------------------
-- Calls in any order
-- ---------------------------------------------------------------------------

inductive BuilderCall
  | add (key value : Bytes)
  | setExpectedKeys (numKeys : Nat)
  | setBloomFilterEnabled (enabled : Bool)
  | setBlockSize (size : Nat)
  | setCompression (compression : CompressionType)

def BuilderCall.attempt : BuilderCall → Option (Bytes × Bytes)
  | .add key value => some (key, value)
  | _ => none

def attempts (calls : List BuilderCall) : List (Bytes × Bytes) := calls.filterMap BuilderCall.attempt

theorem attempts_append_add (calls : List BuilderCall) (key value : Bytes) :
    attempts (calls ++ [.add key value]) = attempts calls ++ [(key, value)] := by
  simp [attempts, BuilderCall.attempt]

theorem attempts_append_setting (calls : List BuilderCall) {c : BuilderCall} (h : c.attempt = none) :
    attempts (calls ++ [c]) = attempts calls := by
  simp [attempts, h]

namespace SSTableBuilder

variable (snap : Snap) (sizing : Sizing)

/-- The builder after a call, whatever the call returned. -/
def call (b : SSTableBuilder) : BuilderCall → SSTableBuilder
  | .add key value => (b.add snap key value).2
  | .setExpectedKeys numKeys => b.setExpectedKeys sizing numKeys
  | .setBloomFilterEnabled enabled => b.setBloomFilterEnabled enabled
  | .setBlockSize size => b.setBlockSize size
  | .setCompression compression => b.setCompression compression

def run (b : SSTableBuilder) (calls : List BuilderCall) : SSTableBuilder := calls.foldl (call snap sizing) b

end SSTableBuilder

/-- What of the calls so far decides the filter: whether it is enabled, which entries
were taken, and what the filter was fed. -/
structure Feeding where
  enabled : Bool
  taken : List (Bytes × Bytes)
  fed : Option BloomFilter.Fed

namespace Feeding

variable (sizing : Sizing)

def call (f : Feeding) : BuilderCall → Feeding
  | .add key value =>
    if Accepts f.taken (key, value) then
      { f with
        taken := f.taken ++ [(key, value)]
        fed := SSTableBuilder.feed f.enabled f.fed key }
    else f
  | .setExpectedKeys numKeys => if f.enabled then { f with fed := some (.new sizing numKeys) } else f
  | .setBloomFilterEnabled enabled => { f with enabled }
  | _ => f

def run (calls : List BuilderCall) : Feeding := calls.foldl (call sizing) ⟨true, [], none⟩

end Feeding

-- ---------------------------------------------------------------------------
-- What the builder holds after the calls
-- ---------------------------------------------------------------------------

namespace SSTableBuilder

variable {snap : Snap} {sizing : Sizing} {limit : Nat} {b : SSTableBuilder} {es : List Entry}
  {fed : Option BloomFilter.Fed} {calls : List BuilderCall}

theorem Encodes.withFilter {d : AiDb.SSTableBuilder} (h : b.Encodes snap limit d) (filter : Option BloomFilter)
    (enabled : Bool) : Encodes snap limit { b with bloomFilter := filter, enableBloomFilter := enabled } d :=
  ⟨h.block, h.interval, h.index, h.lastKey, h.blockSize, h.compression, h.pendingHandle, h.dataBlockOffset,
    h.written, h.stored, h.tiles, h.total, h.room⟩

theorem Encodes.withSettings {d : AiDb.SSTableBuilder} (h : b.Encodes snap limit d) (size : Nat) (c : CompressionType) :
    Encodes snap limit { b with blockSize := size, compression := c } { d with blockSize := size, compression := c } :=
  ⟨h.block, h.interval, h.index, h.lastKey, rfl, rfl, h.pendingHandle, h.dataBlockOffset, h.written, h.stored,
    h.tiles, h.total, h.room⟩

theorem holds_withSettings {d : AiDb.SSTableBuilder} (h : d.Holds es) (size : Nat) (c : CompressionType) :
    AiDb.SSTableBuilder.Holds { d with blockSize := size, compression := c } es := by
  refine ⟨h.entries, h.nonempty, h.ascending, h.lastKey_eq, ?_, h.pending, h.offsets, h.offset_lt⟩
  rw [← h.index_eq]
  unfold AiDb.SSTableBuilder.takePending
  cases d.pendingHandle <;> rfl

theorem Built.setExpectedKeys (h : b.Built snap limit es fed) (numKeys : Nat) :
    (b.setExpectedKeys sizing numKeys).Built snap limit es
      (if b.enableBloomFilter then some (.new sizing numKeys) else fed) := by
  unfold SSTableBuilder.setExpectedKeys
  split_ifs
  · obtain ⟨d, hholds, henc⟩ := h.decoded
    exact ⟨⟨d, hholds, henc.withFilter _ _⟩, h.usable, .some (BloomFilter.new_of sizing numKeys), h.fits⟩
  · exact h

theorem Built.setBloomFilterEnabled (h : b.Built snap limit es fed) (enabled : Bool) :
    (b.setBloomFilterEnabled enabled).Built snap limit es fed := by
  obtain ⟨d, hholds, henc⟩ := h.decoded
  exact ⟨⟨d, hholds, henc.withFilter _ _⟩, h.usable, h.filter, h.fits⟩

theorem Built.setBlockSize (h : b.Built snap limit es fed) (size : Nat) : (b.setBlockSize size).Built snap limit es fed := by
  obtain ⟨d, hholds, henc⟩ := h.decoded
  exact ⟨⟨_, holds_withSettings hholds size d.compression, henc.compression ▸ henc.withSettings size b.compression⟩,
    h.usable, h.filter, h.fits⟩

theorem Built.setCompression (h : b.Built snap limit es fed) (hc : Usable snap limit c) :
    (b.setCompression c).Built snap limit es fed := by
  obtain ⟨d, hholds, henc⟩ := h.decoded
  exact ⟨⟨_, holds_withSettings hholds d.blockSize c, henc.blockSize ▸ henc.withSettings b.blockSize c⟩, hc, h.filter, h.fits⟩

theorem run_append_singleton (b : SSTableBuilder) (calls : List BuilderCall) (c : BuilderCall) :
    b.run snap sizing (calls ++ [c]) = (b.run snap sizing calls).call snap sizing c := by
  simp [run]

/-- Every block stays below the limit: the block that an add that is to be taken goes
into, with its entry. -/
def RunFits (snap : Snap) (sizing : Sizing) (limit : Nat) (calls : List BuilderCall) : Prop :=
  ∀ pre key value post, calls = pre ++ .add key value :: post → Accepts (accepted (attempts pre)) (key, value) →
    ((new.run snap sizing pre).dataBlockBuilder.add key value).currentSize < limit

theorem RunFits.append_left (h : RunFits snap sizing limit (calls ++ more)) : RunFits snap sizing limit calls := by
  rintro pre key value post rfl
  exact h pre key value (post ++ more) (by simp)

theorem runFits_of_forall (h : ∀ n < calls.length, ∀ e ∈ (calls[n]?).bind BuilderCall.attempt,
    ((new.run snap sizing (calls.take n)).dataBlockBuilder.add e.1 e.2).currentSize < limit) :
    RunFits snap sizing limit calls := by
  rintro pre key value post rfl -
  have hpre := h pre.length (by simp) (key, value) (by simp [BuilderCall.attempt])
  rwa [List.take_left] at hpre

/-- Of a run of calls on a builder: the compressions that are set can be undone, the
lengths of the entries fit their fields, and the blocks stay below the limit. -/
structure Feasible (snap : Snap) (sizing : Sizing) (limit : Nat) (calls : List BuilderCall) : Prop where
  usable : ∀ c, .setCompression c ∈ calls → Usable snap limit c
  fits : ∀ e ∈ attempts calls, e.1.length < 2 ^ 32 ∧ e.2.length < 2 ^ 32
  blocks : RunFits snap sizing limit calls

theorem Feasible.append_left (h : Feasible snap sizing limit (calls ++ more)) : Feasible snap sizing limit calls where
  usable c hc := h.usable c (List.mem_append_left _ hc)
  fits e he := h.fits e (by rw [attempts, List.filterMap_append]; exact List.mem_append_left _ he)
  blocks := h.blocks.append_left

structure Follows (snap : Snap) (limit : Nat) (b : SSTableBuilder) (calls : List BuilderCall) (f : Feeding) : Prop where
  built : b.Built snap limit ((accepted (attempts calls)).map entryOf) f.fed
  enabled : b.enableBloomFilter = f.enabled
  taken : f.taken = accepted (attempts calls)

theorem Follows.add {f : Feeding} (h : b.Follows snap limit calls f) (hlimit : limit ≤ 2 ^ 32)
    (hfit : key.length < 2 ^ 32 ∧ value.length < 2 ^ 32)
    (hroom : Accepts (accepted (attempts calls)) (key, value) → (b.dataBlockBuilder.add key value).currentSize < limit) :
    (b.add snap key value).2.Follows snap limit (calls ++ [.add key value]) (f.call sizing (.add key value)) := by
  have hnext := @Built.attempt snap limit b (attempts calls) (key, value) f.fed h.built hlimit hfit hroom
  have henabled := (b.add_enableBloomFilter snap key value).trans h.enabled
  have htaken := accepted_append_singleton (attempts calls) (key, value)
  rw [← attempts_append_add] at hnext htaken
  unfold Feeding.call
  dsimp only
  rw [h.taken]
  by_cases hacc : Accepts (accepted (attempts calls)) (key, value)
  · rw [if_pos hacc] at hnext htaken ⊢
    rw [h.enabled] at hnext
    exact ⟨hnext, henabled, htaken.symm⟩
  · rw [if_neg hacc] at hnext htaken ⊢
    exact ⟨hnext, henabled, h.taken.trans htaken.symm⟩

theorem Follows.setExpectedKeys {f : Feeding} (h : b.Follows snap limit calls f) (numKeys : Nat) :
    (b.setExpectedKeys sizing numKeys).Follows snap limit (calls ++ [.setExpectedKeys numKeys])
      (f.call sizing (.setExpectedKeys numKeys)) := by
  have hnext := @Built.setExpectedKeys snap sizing limit b _ f.fed h.built numKeys
  have hattempts := attempts_append_setting calls (c := .setExpectedKeys numKeys) rfl
  have henabled : (b.setExpectedKeys sizing numKeys).enableBloomFilter = b.enableBloomFilter := by
    unfold SSTableBuilder.setExpectedKeys
    split_ifs <;> rfl
  unfold Feeding.call
  dsimp only
  rw [h.enabled] at hnext henabled
  split_ifs at hnext ⊢
  · exact ⟨hattempts ▸ hnext, henabled, hattempts ▸ h.taken⟩
  · exact ⟨hattempts ▸ hnext, henabled, hattempts ▸ h.taken⟩

theorem run_follows (hlimit : limit ≤ 2 ^ 32) (h : Feasible snap sizing limit calls) :
    (new.run snap sizing calls).Follows snap limit calls (.run sizing calls) := by
  induction calls using List.reverseRecOn with
  | nil => exact ⟨start_built (.inl rfl) 4096 true, rfl, rfl⟩
  | append_singleton calls c ih =>
    have hfollows := ih h.append_left
    have hfeeding : Feeding.run sizing (calls ++ [c]) = (Feeding.run sizing calls).call sizing c := by simp [Feeding.run]
    rw [run_append_singleton, hfeeding]
    cases c with
    | add key value =>
      have hfit := h.fits (key, value) (by simp [attempts_append_add])
      exact hfollows.add hlimit hfit (h.blocks calls key value [] rfl)
    | setExpectedKeys numKeys => exact hfollows.setExpectedKeys numKeys
    | setBloomFilterEnabled enabled =>
      have hattempts := attempts_append_setting calls (c := .setBloomFilterEnabled enabled) rfl
      exact ⟨hattempts ▸ hfollows.built.setBloomFilterEnabled enabled, rfl, hattempts ▸ hfollows.taken⟩
    | setBlockSize size =>
      have hattempts := attempts_append_setting calls (c := .setBlockSize size) rfl
      exact ⟨hattempts ▸ hfollows.built.setBlockSize size, hfollows.enabled, hattempts ▸ hfollows.taken⟩
    | setCompression compression =>
      have hattempts := attempts_append_setting calls (c := .setCompression compression) rfl
      have hc := h.usable compression (by simp)
      exact ⟨hattempts ▸ hfollows.built.setCompression hc, hfollows.enabled, hattempts ▸ hfollows.taken⟩

/-- The filter of a finished table lets a key of it pass where it claims the key, or is
too large for the reader. -/
theorem Built.admits_iff {r : SSTableReader} {f : SstFile} (h : b.Built snap limit es fed)
    (hfilter : r.bloomFilter = (b.sealed snap).readFilter f) (hne : f.blocks ≠ []) (key : Bytes) :
    r.Admits key ↔ ∀ x ∈ fed, 12 + numBytes x.numBits + 5 ≤ 100000000 → x.Claims key := by
  have hrel := h.filter
  unfold FilterOf at hrel
  unfold SSTableReader.Admits
  rw [hfilter, readFilter, if_neg hne, sealed_bloomFilter, metaBlockData, sealed_bloomFilter]
  cases hb : b.bloomFilter with
  | none =>
    rw [hb] at hrel
    cases hrel
    split_ifs <;> simp
  | some filter =>
    rw [hb] at hrel
    cases hrel with
    | @some _ x hof =>
      have hsize : filter.encode.length = 12 + numBytes x.numBits := by rw [hof.length_encode, hof.numBits]
      dsimp only
      rw [hsize]
      split_ifs with hlarge
      · simp only [Option.mem_def, Option.some.injEq, forall_eq', hof.mayContain_iff, hlarge, true_imp_iff]
      · simp only [Option.mem_def, reduceCtorEq, false_imp_iff, implies_true, Option.some.injEq, forall_eq', hlarge]

end SSTableBuilder

/-- The reader passes over the filter, or the filter claims every key taken with a value. -/
def Feeding.Keeps (f : Feeding) : Prop :=
  ∀ fed ∈ f.fed, 12 + numBytes fed.numBits + 5 ≤ 100000000 → ∀ e ∈ f.taken, e.2 ≠ [] → fed.Claims e.1

/-- With the settings made in any order between the adds, the taken keys are found
exactly where the filter, fed as it was, keeps them. -/
theorem settings_keep_keys_iff (snap : Snap) (sizing : Sizing) (limit number : Nat) (calls : List BuilderCall)
    (hlimit : limit ≤ 2 ^ 32) (h : SSTableBuilder.Feasible snap sizing limit calls)
    (hindex : ((SSTableBuilder.new.run snap sizing calls).sealed snap).indexBlockBuilder.currentSize < 2 ^ 32) :
    ∃ size file r, (SSTableBuilder.new.run snap sizing calls).finish snap = .ok (size, file) ∧
      SSTableReader.openFile snap number file = .ok r ∧
      ((∀ e ∈ accepted (attempts calls), e.2 ≠ [] → r.get snap e.1 = .ok (some e.2)) ↔
        (Feeding.run sizing calls).Keeps) := by
  obtain ⟨hbuilt, -, htaken⟩ := SSTableBuilder.run_follows hlimit h
  obtain ⟨size, file, r, f, hfinish, hopen, hreads, hentries, hfilter⟩ := hbuilt.opens hlimit hindex number
  refine ⟨size, file, r, hfinish, hopen, ?_⟩
  have hasc : Ascending ((accepted (attempts calls)).map entryOf) := by
    rw [← hentries]
    exact hreads.wellFormed.ascending
  have hfound : ∀ e ∈ accepted (attempts calls), e.2 ≠ [] →
      (r.get snap e.1 = .ok (some e.2) ↔ r.Admits e.1) := by
    intro e he hv
    refine ⟨fun hget => ?_, fun hadmits => ?_⟩
    · by_contra hdeny
      rw [SSTableReader.get_of_not_admits hdeny] at hget
      cases hget
    · rw [hreads.get hadmits, hentries, live_stored_of_mem hasc he hv]
  have hadmits : ∀ e ∈ accepted (attempts calls), (r.Admits e.1 ↔
      ∀ fed ∈ (Feeding.run sizing calls).fed, 12 + numBytes fed.numBits + 5 ≤ 100000000 → fed.Claims e.1) := by
    intro e he
    refine hbuilt.admits_iff hfilter (fun hnil => ?_) e.1
    rw [SstFile.entries, hnil] at hentries
    simp only [List.flatMap_nil] at hentries
    exact absurd he (by simp [List.map_eq_nil_iff.mp hentries.symm])
  unfold Feeding.Keeps
  rw [htaken]
  constructor
  · intro hall fed hfed hsize e he hv
    exact (hadmits e he).mp ((hfound e he hv).mp (hall e he hv)) fed hfed hsize
  · intro hkeeps e he hv
    exact (hfound e he hv).mpr ((hadmits e he).mpr fun fed hfed hsize => hkeeps fed hfed hsize e he hv)

theorem settings_keep_keys_iff_sized : ∃ size file r,
    (SSTableBuilder.new.run ⟨.ok, .ok⟩ .decimal [.setExpectedKeys 1, .add [97] [49],
      .setBlockSize 1, .add [98] [50]]).finish ⟨.ok, .ok⟩ = .ok (size, file) ∧
      SSTableReader.openFile ⟨.ok, .ok⟩ 2 file = .ok r ∧ r.get ⟨.ok, .ok⟩ [97] = .ok (some [49]) := by
  have hfeasible : SSTableBuilder.Feasible ⟨.ok, .ok⟩ .decimal (2 ^ 32) [.setExpectedKeys 1,
      .add [97] [49], .setBlockSize 1, .add [98] [50]] :=
    ⟨by simp, by decide, SSTableBuilder.runFits_of_forall (by decide +kernel)⟩
  obtain ⟨size, file, r, hfinish, hopen, hiff⟩ :=
    settings_keep_keys_iff ⟨.ok, .ok⟩ .decimal (2 ^ 32) 2 _ le_rfl hfeasible (by decide +kernel)
  refine ⟨size, file, r, hfinish, hopen, hiff.mpr ?_ ([97], [49]) (by decide +kernel) (by decide)⟩
  rintro fed ⟨⟩ - e he -
  exact BloomFilter.Fed.claims_of_mem (List.mem_map_of_mem he)

/-- The expected number of keys set after the add: the new filter denies the key. -/
theorem not_settings_keep_keys_sizedLate : ∃ size file r,
    (SSTableBuilder.new.run ⟨.ok, .ok⟩ .decimal [.add [97] [49], .setExpectedKeys 100]).finish
        ⟨.ok, .ok⟩ = .ok (size, file) ∧
      SSTableReader.openFile ⟨.ok, .ok⟩ 2 file = .ok r ∧
      ([97], [49]) ∈ accepted (attempts [.add [97] [49], .setExpectedKeys 100]) ∧ r.get ⟨.ok, .ok⟩ [97] = .ok none := by
  have hfeasible : SSTableBuilder.Feasible ⟨.ok, .ok⟩ .decimal (2 ^ 32) [.add [97] [49],
      .setExpectedKeys 100] := ⟨by simp, by decide, SSTableBuilder.runFits_of_forall (by decide +kernel)⟩
  obtain ⟨hbuilt, -, -⟩ := SSTableBuilder.run_follows le_rfl hfeasible
  obtain ⟨size, file, r, f, hfinish, hopen, -, hentries, hfilter⟩ := hbuilt.opens le_rfl (by decide +kernel) 2
  have hne : f.blocks ≠ [] := fun hnil => by
    rw [SstFile.entries, hnil] at hentries
    cases hentries
  refine ⟨size, file, r, hfinish, hopen, by decide +kernel, SSTableReader.get_of_not_admits fun hadmits => ?_⟩
  have hclaims := (hbuilt.admits_iff hfilter hne [97]).mp hadmits _ rfl (by decide +kernel)
  -- no key was fed to the new filter
  obtain ⟨k, hk, -⟩ := hclaims _ (List.mem_map_of_mem (List.mem_range.mpr (by decide : 0 < 7)))
  cases hk

end AiDb.Sstable
