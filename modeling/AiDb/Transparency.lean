import AiDb.Caching
import AiDb.Reached

/-!
# What the cache holds

A block is cached under the number of its table and its offset, and nothing takes it
out when the table goes or another takes its number. So the cache agrees with the
tables as long as no number is handed out that a table of the handle or a cached
block has already.
-/

namespace AiDb

open Library Compaction

variable {d d' : Disk} {r : SSTableReader} {f : SstFile} {w : World}

theorem Disk.lookup_removeSsts_ne (h : ∀ r ∈ rs, r.fileNumber ≠ m) : (d.removeSsts rs).ssts.lookup m = d.ssts.lookup m := by
  induction rs generalizing d with
  | nil => rfl
  | cons r rs ih =>
    have hne : m ≠ r.fileNumber := (h r List.mem_cons_self).symm
    refine (ih fun x hx => h x (List.mem_cons_of_mem r hx)).trans ?_
    exact AList.lookup_erase_ne hne

-- ---------------------------------------------------------------------------
-- Blocks
-- ---------------------------------------------------------------------------

def SstFile.StoresAt (f : SstFile) (offset : Nat) (data : Bytes) : Prop :=
  ∃ b ∈ f.blocks, b.handle.offset = offset ∧ Sstable.blockData 16 b.entries = data

theorem SstFile.WellFormed.block_unique (h : f.WellFormed) (ha : a ∈ f.blocks) (hb : b ∈ f.blocks)
    (heq : a.handle.offset = b.handle.offset) : a = b := by
  have hnodup : (f.blocks.map fun b => b.handle.offset).Nodup :=
    List.pairwise_map.mpr (h.offsets.imp fun hlt => ne_of_lt hlt)
  exact List.inj_on_of_nodup_map hnodup ha hb heq

theorem SSTableReader.findBlock_mem (h : d.Serves r f) (hfind : findBlock r.indexBlock key = some handle) :
    ∃ b ∈ f.blocks, b.handle = handle := by
  have hindex : r.indexBlock = indexOf f.blocks := by
    rw [h.of]
    exact h.wellFormed.index_eq
  have hmem : handle ∈ r.indexBlock.map Prod.snd := by
    unfold findBlock at hfind
    split at hfind
    · rename_i e he
      cases hfind
      exact List.mem_map_of_mem (List.mem_of_find?_eq_some he)
    · obtain ⟨e, he, rfl⟩ := Option.map_eq_some_iff.mp hfind
      exact List.mem_map_of_mem (List.mem_of_getLast? he)
  rw [hindex, indexOf, List.map_map] at hmem
  obtain ⟨b, hb, rfl⟩ := List.mem_map.mp hmem
  exact ⟨b, hb, rfl⟩

theorem World.readData_stores (h : w.disk.files[r.file]? = some (.complete f)) (hd : w.readData r.file handle = .ok data) :
    f.StoresAt handle.offset data := by
  unfold World.readData World.readBlock at hd
  split at hd
  · cases hd
  rw [h] at hd
  dsimp only at hd
  split at hd
  · rename_i b hb
    cases hd
    have hhandle : b.handle = handle := by simpa using List.find?_some hb
    exact ⟨b, List.mem_of_find?_eq_some hb, by rw [hhandle], rfl⟩
  · cases hd

theorem World.readData_block (hread : f.ReadBy (w.readBlock r.file)) (hb : b ∈ f.blocks) :
    w.readData r.file b.handle = .ok (Sstable.blockData 16 b.entries) := by
  rw [World.readData, hread b hb]
  rfl

-- ---------------------------------------------------------------------------
-- The invariant
-- ---------------------------------------------------------------------------

/-- Every reader has the file of its own number open, and no two have one number. -/
structure Sys.OwnFiles (s : Sys) : Prop where
  lookup : ∀ r ∈ s.db.sstables.flatten, s.world.disk.ssts.lookup r.fileNumber = some r.file
  serves : ∀ r ∈ s.db.sstables.flatten, ∃ f, s.world.disk.Serves r f
  arc_lt : ∀ r ∈ s.db.sstables.flatten, r.arc < s.world.arcs
  arcs : (s.db.sstables.flatten.map SSTableReader.arc).Nodup
  numbers : (s.db.sstables.flatten.map SSTableReader.fileNumber).Nodup

def CSys.find (s : CSys) (key : CacheKey) : Option Bytes := s.blockCache.bind (·.find key)

def CSys.Coherent (s : CSys) : Prop :=
  ∀ r ∈ s.sys.db.sstables.flatten, ∀ offset data, s.find ⟨r.fileNumber, offset⟩ = some data →
    ∃ f, s.sys.world.disk.Serves r f ∧ f.StoresAt offset data

structure CSys.Good (s : CSys) : Prop where
  own : s.sys.OwnFiles
  coherent : s.Coherent

structure CSys.Fresh (s : CSys) (n : Nat) : Prop where
  tables : ∀ r ∈ s.sys.db.sstables.flatten, r.fileNumber ≠ n
  cache : ∀ offset, s.find ⟨n, offset⟩ = none

variable {s s' start : CSys}

theorem Disk.Serves.unique (h : d.Serves r f) (h' : d.Serves r f') : f = f' := by
  have := h.content.symm.trans h'.content
  simpa using this

/-- The tables `gone` make room for `out`, which has a fresh number, and the cache gets
blocks of `out` at most. -/
theorem CSys.Good.replace (h : s.Good) (hfresh : s.Fresh n) (harcs : s.sys.world.arcs ≤ s'.sys.world.arcs)
    {gone kept out : List SSTableReader} (hperm : s.sys.db.sstables.flatten.Perm (gone ++ kept))
    (hperm' : s'.sys.db.sstables.flatten.Perm (out ++ kept))
    (hkept : ∀ x ∈ kept, x.fileNumber ≠ n → s'.sys.world.disk.ssts.lookup x.fileNumber = some x.file ∧
      s'.sys.world.disk.files[x.file]? = s.sys.world.disk.files[x.file]?)
    (hout : out = [] ∨ ∃ r f, out = [r] ∧ r.fileNumber = n ∧ s.sys.world.arcs ≤ r.arc ∧ r.arc < s'.sys.world.arcs ∧
      s'.sys.world.disk.ssts.lookup n = some r.file ∧ s'.sys.world.disk.Serves r f)
    (hcache : ∀ m offset data, s'.find ⟨m, offset⟩ = some data → s.find ⟨m, offset⟩ = some data ∨
      m = n ∧ ∀ r ∈ out, ∀ f, s'.sys.world.disk.Serves r f → f.StoresAt offset data) :
    s'.Good ∧ ∀ m, m ≠ n → s.Fresh m → s'.Fresh m := by
  have hold : ∀ x ∈ kept, x ∈ s.sys.db.sstables.flatten := fun x hx =>
    hperm.mem_iff.mpr (List.mem_append_right _ hx)
  have hne : ∀ x ∈ kept, x.fileNumber ≠ n := fun x hx => hfresh.tables x (hold x hx)
  have hmem : ∀ x ∈ s'.sys.db.sstables.flatten, x ∈ out ∨ x ∈ kept := fun x hx =>
    List.mem_append.mp (hperm'.mem_iff.mp hx)
  have hserves : ∀ x ∈ kept, ∃ f, s.sys.world.disk.Serves x f ∧ s'.sys.world.disk.Serves x f := by
    intro x hx
    obtain ⟨f, hf⟩ := h.own.serves x (hold x hx)
    exact ⟨f, hf, (hkept x hx (hne x hx)).2.trans hf.content, hf.of, hf.wellFormed⟩
  -- the numbers and the allocations of those kept are still apart
  have hnodup : ∀ g : SSTableReader → Nat, (s.sys.db.sstables.flatten.map g).Nodup →
      (∀ r ∈ out, ∀ x ∈ kept, g x ≠ g r) → (s'.sys.db.sstables.flatten.map g).Nodup := by
    intro g hg hdiff
    rw [(hperm.map g).nodup_iff, List.map_append, List.nodup_append] at hg
    rw [(hperm'.map g).nodup_iff, List.map_append, List.nodup_append]
    refine ⟨?_, hg.2.1, ?_⟩
    · rcases hout with rfl | ⟨r, f, rfl, -⟩
      · exact List.nodup_nil
      · exact List.nodup_singleton _
    · intro a ha b hb
      obtain ⟨r, hr, rfl⟩ := List.mem_map.mp ha
      obtain ⟨x, hx, rfl⟩ := List.mem_map.mp hb
      exact (hdiff r hr x hx).symm
  have hnew : ∀ r ∈ out, r.fileNumber = n ∧ s.sys.world.arcs ≤ r.arc ∧ r.arc < s'.sys.world.arcs ∧
      s'.sys.world.disk.ssts.lookup n = some r.file ∧ ∃ f, s'.sys.world.disk.Serves r f := by
    intro r hr
    rcases hout with rfl | ⟨r', f, rfl, hn, hge, hlt, hl, hf⟩
    · cases hr
    · obtain rfl := List.mem_singleton.mp hr
      exact ⟨hn, hge, hlt, hl, f, hf⟩
  refine ⟨⟨⟨?_, ?_, ?_, ?_, ?_⟩, ?_⟩, ?_⟩
  · intro x hx
    rcases hmem x hx with hx | hx
    · rw [(hnew x hx).1]
      exact (hnew x hx).2.2.2.1
    · exact (hkept x hx (hne x hx)).1
  · intro x hx
    rcases hmem x hx with hx | hx
    · exact (hnew x hx).2.2.2.2
    · obtain ⟨f, -, hf⟩ := hserves x hx
      exact ⟨f, hf⟩
  · intro x hx
    rcases hmem x hx with hx | hx
    · exact (hnew x hx).2.2.1
    · exact lt_of_lt_of_le (h.own.arc_lt x (hold x hx)) harcs
  · refine hnodup _ h.own.arcs fun r hr x hx => ?_
    have hlt := h.own.arc_lt x (hold x hx)
    have hge := (hnew r hr).2.1
    omega
  · refine hnodup _ h.own.numbers fun r hr x hx => ?_
    rw [(hnew r hr).1]
    exact hne x hx
  · intro x hx offset data hdata
    rcases hmem x hx with hx | hx
    · obtain ⟨f, hf⟩ := (hnew x hx).2.2.2.2
      rw [(hnew x hx).1] at hdata
      rcases hcache _ _ _ hdata with hdata | ⟨-, hstores⟩
      · rw [hfresh.cache] at hdata
        cases hdata
      · exact ⟨f, hf, hstores x hx f hf⟩
    · obtain ⟨f, hf, hf'⟩ := hserves x hx
      rcases hcache _ _ _ hdata with hdata | ⟨heq, -⟩
      · obtain ⟨g, hg, hstores⟩ := h.coherent x (hold x hx) offset data hdata
        exact ⟨f, hf', hf.unique hg ▸ hstores⟩
      · exact absurd heq (hne x hx)
  · intro m hm hfm
    refine ⟨fun x hx => ?_, fun offset => ?_⟩
    · rcases hmem x hx with hx | hx
      · rw [(hnew x hx).1]
        exact hm.symm
      · exact hfm.tables x (hold x hx)
    · by_contra hfind
      obtain ⟨data, hdata⟩ := Option.ne_none_iff_exists'.mp hfind
      rcases hcache _ _ _ hdata with hdata | ⟨heq, -⟩
      · rw [hfm.cache] at hdata
        cases hdata
      · exact hm heq

-- ---------------------------------------------------------------------------
-- Tables that are written
-- ---------------------------------------------------------------------------

/-- In the middle of a step from `start`: as long as every number that was handed out
was fresh then, the cache agrees with the tables, and no other number was taken. -/
structure CSys.Since (start s : CSys) : Prop where
  two_le : 2 ≤ start.sys.db.nextFileNumber
  le : start.sys.db.nextFileNumber ≤ s.sys.db.nextFileNumber
  sane : s.sys.world.disk.Sane
  good : (∀ n, start.sys.db.nextFileNumber ≤ n → n < s.sys.db.nextFileNumber → start.Fresh n) →
    s.Good ∧ ∀ n, s.sys.db.nextFileNumber ≤ n → start.Fresh n → s.Fresh n

theorem CSys.Good.since (h : s.Good) (hsane : s.sys.world.disk.Sane) (htwo : 2 ≤ s.sys.db.nextFileNumber) : s.Since s :=
  ⟨htwo, le_refl _, hsane, fun _ => ⟨h, fun _ _ hf => hf⟩⟩

theorem CSys.Good.tablesKept (h : s.Good) (hk : s.sys.TablesKept s'.sys) (hcache : s'.blockCache = s.blockCache) : s'.Good := by
  have hserves : ∀ r f, s.sys.world.disk.Serves r f → s'.sys.world.disk.Serves r f :=
    fun r f hf => ⟨by rw [hk.files]; exact hf.content, hf.of, hf.wellFormed⟩
  refine ⟨⟨?_, ?_, ?_, ?_, ?_⟩, ?_⟩
  · rw [hk.sstables, hk.ssts]
    exact h.own.lookup
  · rw [hk.sstables]
    exact fun r hr => (h.own.serves r hr).imp (hserves r)
  · rw [hk.sstables, hk.arcs]
    exact h.own.arc_lt
  · rw [hk.sstables]
    exact h.own.arcs
  · rw [hk.sstables]
    exact h.own.numbers
  · intro r hr offset data hdata
    rw [hk.sstables] at hr
    rw [CSys.find, hcache] at hdata
    obtain ⟨f, hf, hstores⟩ := h.coherent r hr offset data hdata
    exact ⟨f, hserves r f hf, hstores⟩

theorem CSys.Fresh.tablesKept (h : s.Fresh n) (hk : s.sys.TablesKept s'.sys) (hcache : s'.blockCache = s.blockCache) :
    s'.Fresh n where
  tables := by rw [hk.sstables]; exact h.tables
  cache offset := by rw [CSys.find, hcache]; exact h.cache offset

theorem CSys.Since.tablesKept (h : start.Since s) (hk : s.sys.TablesKept s'.sys) (hcache : s'.blockCache = s.blockCache) :
    start.Since s' where
  two_le := h.two_le
  le := by rw [hk.nextFileNumber]; exact h.le
  sane := h.sane.of_sub (by rw [hk.ssts]; exact fun _ _ => id) hk.files
  good hhanded := by
    rw [hk.nextFileNumber] at hhanded ⊢
    obtain ⟨hgood, hrest⟩ := h.good hhanded
    exact ⟨hgood.tablesKept hk hcache, fun n hn hf => (hrest n hn hf).tablesKept hk hcache⟩

theorem CSys.Since.handOut (h : start.Since s) (hsane : s'.sys.world.disk.Sane)
    (hnext : s'.sys.db.nextFileNumber = s.sys.db.nextFileNumber + 1)
    (hgood : s.Good → s.Fresh s.sys.db.nextFileNumber →
      s'.Good ∧ ∀ m, m ≠ s.sys.db.nextFileNumber → s.Fresh m → s'.Fresh m) : start.Since s' where
  two_le := h.two_le
  le := by rw [hnext]; exact Nat.le_succ_of_le h.le
  sane := hsane
  good hhanded := by
    rw [hnext] at hhanded ⊢
    obtain ⟨hs, hrest⟩ := h.good fun n hle hlt => hhanded n hle (Nat.lt_succ_of_lt hlt)
    obtain ⟨hs', hfresh⟩ := hgood hs (hrest _ (le_refl _) (hhanded _ h.le (Nat.lt_succ_self _)))
    exact ⟨hs', fun n hn hf => hfresh n (Nat.ne_of_gt hn) (hrest n (Nat.le_of_succ_le hn) hf)⟩

theorem CSys.Since.notInstalled (h : start.Since s) (hd : s.sys.world.disk.Written s.sys.db.nextFileNumber es d)
    (hat : s'.sys.AtTables s.sys.handOut.db s.sys.handOut.world d)
    (hcache : ∀ m offset data, s'.find ⟨m, offset⟩ = some data →
      s.find ⟨m, offset⟩ = some data ∨ m = s.sys.db.nextFileNumber) : start.Since s' := by
  obtain ⟨⟨vs, hdb⟩, manifest, hat⟩ := hat
  have hsst : s'.sys.db.sstables = s.sys.db.sstables := by rw [hdb]; rfl
  refine h.handOut ?_ (by rw [hdb]; rfl) fun hgood hfresh => ?_
  · rw [hat.disk_eq]
    exact (hd.sane h.sane).of_sub (fun _ _ => id) rfl
  refine hgood.replace hfresh hat.arcs_le (List.Perm.refl ([] ++ s.sys.db.sstables.flatten)) (by rw [hsst]; exact .refl _) ?_
    (.inl rfl) fun m offset data hdata => ?_
  · intro x hx hne
    rw [hat.disk_eq]
    exact hd.spares h.sane _ _ hne (hgood.own.lookup x hx)
  · exact (hcache m offset data hdata).imp_right fun hm => ⟨hm, fun r hr => (nomatch hr)⟩

theorem flushMemtableToSstable_since (m : MemTable) (cache : Option SharedCache) {t : Sys} (h : start.Since ⟨t, cache⟩) :
    Triple (flushMemtableToSstable m) t (fun _ t' => start.Since ⟨t', cache⟩) (fun _ t' => start.Since ⟨t', cache⟩) := by
  refine (flushMemtableToSstable_spec m t).mono ?_ ?_
  · rintro _ t' (⟨hes, hdb, hat⟩ | ⟨hes, f, r, hwf, -, hdb, hat, ho⟩)
    · exact h.notInstalled (.abandoned rfl) (.intro hdb hat) fun _ _ _ => .inl
    have hnumber : r.fileNumber = t.db.nextFileNumber := by rw [ho.reader]; rfl
    have hsst : t'.db.sstables = t.db.sstables.modify 0 (r :: ·) := by rw [hdb]; rfl
    refine h.handOut ?_ (by rw [hdb]; rfl) fun hgood hfresh => ?_
    · rw [hat.disk_eq]
      exact h.sane.withSst _ hwf
    have hkept : ∀ x ∈ t.db.sstables.flatten, x.fileNumber ≠ t.db.nextFileNumber →
        t'.world.disk.ssts.lookup x.fileNumber = some x.file ∧
          t'.world.disk.files[x.file]? = t.world.disk.files[x.file]? := by
      intro x hx hne
      rw [hat.disk_eq]
      exact h.sane.spares_withSst _ f _ _ hne (hgood.own.lookup x hx)
    have hcache : ∀ k offset data, CSys.find ⟨t', cache⟩ ⟨k, offset⟩ = some data →
        CSys.find ⟨t, cache⟩ ⟨k, offset⟩ = some data := fun _ _ _ => id
    cases hl : t.db.sstables with
    | nil =>
      have hflat : t'.db.sstables.flatten = t.db.sstables.flatten := by rw [hsst, hl]; rfl
      exact hgood.replace hfresh hat.arcs_le (List.Perm.refl ([] ++ t.db.sstables.flatten)) (by rw [hflat]; exact .refl _)
        hkept (.inl rfl) fun k offset data hdata => .inl (hcache k offset data hdata)
    | cons l ls =>
      have hflat : t'.db.sstables.flatten = [r] ++ t.db.sstables.flatten := by rw [hsst, hl]; rfl
      refine hgood.replace hfresh hat.arcs_le (List.Perm.refl ([] ++ t.db.sstables.flatten)) (by rw [hflat]) hkept
        (.inr ⟨r, f, rfl, hnumber, ho.arc_ge, ho.arc_lt, ?_, ho.serves hwf (by rw [hat.disk_eq])⟩)
        fun k offset data hdata => .inl (hcache k offset data hdata)
      rw [hat.disk_eq]
      exact ho.lookup
  · rintro _ t' ⟨hdb, d, hwritten, hat⟩
    exact h.notInstalled hwritten (.intro hdb hat) fun _ _ _ => .inl

-- ---------------------------------------------------------------------------
-- Reads
-- ---------------------------------------------------------------------------

/-- The cache got no blocks but such of the reader's file, under its number. -/
def SSTableReader.Caches (r : SSTableReader) (w : World) (cache cache' : Option SharedCache) : Prop :=
  ∀ m offset data, cache'.bind (·.find ⟨m, offset⟩) = some data → cache.bind (·.find ⟨m, offset⟩) = some data ∨
    m = r.fileNumber ∧ ∃ handle : BlockHandle, handle.offset = offset ∧ w.readData r.file handle = .ok data

theorem SSTableReader.Caches.refl (r : SSTableReader) (w : World) (cache : Option SharedCache) : r.Caches w cache cache :=
  fun _ _ _ => .inl

theorem SSTableReader.readBlockCached_caches (r : SSTableReader) (w : World) (handle : BlockHandle)
    (cache : Option SharedCache) : r.Caches w cache (r.readBlockCached w handle cache).2 := by
  cases cache with
  | none => exact .refl r w none
  | some cache =>
    intro m offset data hdata
    simp only [SSTableReader.readBlockCached] at hdata
    cases hget : cache.get ⟨r.fileNumber, handle.offset⟩ with
    | mk found cache' =>
      have hfind : ∀ k, cache'.find k = cache.find k := fun k => by
        rw [← SharedCache.find_get cache ⟨r.fileNumber, handle.offset⟩, hget]
      rw [hget] at hdata
      cases found with
      | some _ => exact .inl (by simpa [hfind] using hdata)
      | none =>
        cases hread : w.readData r.file handle with
        | error e => exact .inl (by simpa [hread, hfind] using hdata)
        | ok block =>
          rw [hread] at hdata
          rcases SharedCache.find_insert hdata with hold | ⟨hkey, rfl⟩
          · exact .inl (by simpa [hfind] using hold)
          · obtain ⟨rfl, rfl⟩ := CacheKey.mk.injEq .. ▸ hkey
            exact .inr ⟨rfl, handle, rfl, hread⟩

theorem SSTableReader.getCached_caches (r : SSTableReader) (w : World) (key : Bytes) (cache : Option SharedCache) :
    r.Caches w cache (r.getCached w key cache).2 := by
  unfold SSTableReader.getCached
  split
  · split
    · exact .refl r w cache
    · exact r.readBlockCached_caches w _ cache
  · exact .refl r w cache

theorem SSTableReader.smallestKeyCached_caches (r : SSTableReader) (w : World) (cache : Option SharedCache) :
    r.Caches w cache (r.smallestKeyCached w cache).2 := by
  unfold SSTableReader.smallestKeyCached
  split
  · exact .refl r w cache
  · exact r.readBlockCached_caches w _ cache

theorem onSys_spec {m : M α} {Q : α → Sys → Prop} {E : Exit → Sys → Prop} (h : Triple m s.sys Q E) :
    Triple (onSys m) s (fun a s' => s'.blockCache = s.blockCache ∧ Q a s'.sys)
      (fun e s' => s'.blockCache = s.blockCache ∧ E e s'.sys) := by
  unfold Triple at h ⊢
  unfold onSys
  cases hr : m s.sys with
  | ok a t => rw [hr] at h; exact ⟨rfl, h⟩
  | error e t => rw [hr] at h; exact ⟨rfl, h⟩

theorem throughCache_spec {read : World → Option SharedCache → Except Error α × Option SharedCache}
    {P : Option SharedCache → Prop} (h : P (read s.sys.world s.blockCache).2) :
    Triple (throughCache read) s (fun _ s' => s'.sys = s.sys ∧ P s'.blockCache) (fun _ s' => s'.sys = s.sys ∧ P s'.blockCache) := by
  unfold Triple throughCache
  cases hr : read s.sys.world s.blockCache with
  | mk result cache =>
    rw [hr] at h
    cases result with
    | ok a => exact ⟨rfl, h⟩
    | error e => exact ⟨rfl, h⟩

theorem CSys.Good.caches (h : s.Good) (hr : r ∈ s.sys.db.sstables.flatten) (hsys : s'.sys = s.sys)
    (hc : r.Caches s.sys.world s.blockCache s'.blockCache) : s'.Good := by
  refine ⟨by rw [hsys]; exact h.own, fun x hx offset data hdata => ?_⟩
  rw [hsys] at hx ⊢
  rcases hc _ _ _ hdata with hold | ⟨hnumber, handle, rfl, hread⟩
  · exact h.coherent x hx offset data hold
  · obtain rfl := List.inj_on_of_nodup_map h.own.numbers hx hr hnumber
    obtain ⟨f, hf⟩ := h.own.serves x hx
    exact ⟨f, hf, World.readData_stores hf.content hread⟩

-- ---------------------------------------------------------------------------
-- Compactions
-- ---------------------------------------------------------------------------

/-- The output `r` of the task was put into its level, whichever inputs are off the
directory. -/
structure Sys.Installed (s : Sys) (task : CompactionTask) (f : SstFile) (r : SSTableReader) (s' : Sys) : Prop where
  job : s.jobEntries task = .ok f.entries
  nonempty : f.entries ≠ []
  wellFormed : f.WellFormed
  opens : (s.world.disk.withSst s.db.nextFileNumber f).Opens s.world s'.world s.db.nextFileNumber f r
  level : task.level < s.db.sstables.length
  outputLevel : task.outputLevel < s.db.sstables.length
  atTables : ∃ removed, removed <+: task.inputs ∧
    s'.AtTables { s.handOut.db with sstables := updateLevels task r s.db.sstables } s.handOut.world
      ((s.world.disk.withSst s.db.nextFileNumber f).removeSsts removed)

theorem Sys.Installed.compacted {s s' : Sys} (h : s.Installed task f r s') : ∃ removed, s.Compacted task removed s' := by
  obtain ⟨removed, -, hat⟩ := h.atTables
  exact ⟨removed, _, f, r, h.job, h.nonempty, h.wellFormed, rfl, h.opens, h.level, h.outputLevel, hat⟩

theorem logEdits_spec (es : List VersionEdit) {db : DB} {t : Sys} (h : t.AtTables db w d) :
    Triple (logEdits es) t (fun _ t' => t'.AtTables db w d) (fun _ t' => t'.AtTables db w d) := by
  induction es generalizing t with
  | nil => exact Triple.pure h
  | cons e es ih => exact (logEdit_spec e h).bind fun _ _ h1 => ih h1

theorem finishCompaction_spec (task : CompactionTask) (file : FileMetaData) {t t₁ : Sys}
    (hjob : t.jobEntries task = .ok f.entries) (hne : f.entries ≠ []) (hwf : f.WellFormed) (hdb : t₁.db = t.handOut.db) (hat : t.handOut.world.At (t.world.disk.withSst t.db.nextFileNumber f) t₁.world)
    (ho : (t.world.disk.withSst t.db.nextFileNumber f).Opens t.world t₁.world t.db.nextFileNumber f r) :
    Triple (finishCompaction task (some (r, file))) t₁ (fun _ t' => t.Installed task f r t')
      (fun _ t' => t'.AtTables t.handOut.db t.handOut.world (t.world.disk.withSst t.db.nextFileNumber f) ∨
        t.Installed task f r t') := by
  have hat₁ : t₁.AtTables t.handOut.db t₁.world (t.world.disk.withSst t.db.nextFileNumber f) := by
    refine .intro hdb ?_
    have := World.At.refl t₁.world
    rwa [hat.disk_eq] at this
  unfold finishCompaction
  refine ((logEdits_spec _ hat₁).mono (fun _ _ => id) fun _ t' h => .inl (h.trans hat)).bind fun _ t₂ h₂ => ?_
  obtain ⟨⟨vs, hdb₂⟩, manifest, hat₂⟩ := h₂
  have hlevels : t₂.db.sstables = t.db.sstables := by rw [hdb₂]; rfl
  unfold installOutput
  refine Triple.get_bind (Triple.get_bind ?_)
  rw [hlevels]
  split
  · rename_i hlen
    refine Triple.modify_bind ?_
    have hdone : ∀ removed t', removed <+: task.inputs →
        t'.db = { t₂.db with sstables := updateLevels task r t₂.db.sstables } →
        World.At t₁.world (Disk.removeSsts { t.world.disk.withSst t.db.nextFileNumber f with manifest := manifest }
          removed) t'.world → t.Installed task f r t' := by
      intro removed t' hpre hdb' hat'
      rw [Disk.removeSsts_manifest] at hat'
      refine ⟨hjob, hne, hwf, ⟨ho.lookup, ho.content, ho.reader, ho.arc_ge, lt_of_lt_of_le ho.arc_lt hat'.arcs_le⟩, hlen.1,
        hlen.2, removed, hpre, ⟨vs, ?_⟩, manifest, hat.trans hat'⟩
      rw [hdb', hlevels, hdb₂]
    have hrun := onWorld_spec (s := { t₂ with db := { t₂.db with sstables := updateLevels task r t₂.db.sstables } })
      (removeInputs_spec task.inputs hat₂)
    refine hrun.mono (fun _ t' h => hdone task.inputs t' (List.prefix_refl _) h.1 h.2) ?_
    rintro _ t' ⟨hdb', removed, hpre, hat'⟩
    exact .inr (hdone removed t' hpre hdb' hat')
  · exact Triple.throw (.inl ⟨⟨vs, hdb₂⟩, manifest, hat.trans hat₂⟩)

/-- How a compaction that reads through the cache can end. -/
def CSys.CompactionLeft (s : CSys) (task : CompactionTask) (s' : CSys) : Prop :=
  (∃ es d, s.sys.world.disk.Written s.sys.db.nextFileNumber es d ∧
    s'.sys.AtTables s.sys.handOut.db s.sys.handOut.world d ∧ ∀ m offset data, s'.find ⟨m, offset⟩ = some data →
      s.find ⟨m, offset⟩ = some data ∨ m = s.sys.db.nextFileNumber) ∨
    ∃ f r, s.sys.Installed task f r s'.sys ∧ ∀ m offset data, s'.find ⟨m, offset⟩ = some data →
      s.find ⟨m, offset⟩ = some data ∨ m = s.sys.db.nextFileNumber ∧ f.StoresAt offset data

theorem CSys.CompactionLeft.tableStep (h : s.CompactionLeft task s') : s.sys.TableStep s'.sys := by
  rcases h with ⟨es, d, hd, hat, -⟩ | ⟨f, r, hinst, -⟩
  · exact Sys.AtTables.tableStep hd.sane rfl hat
  · obtain ⟨removed, hc⟩ := hinst.compacted
    exact hc.tableStep

theorem CSys.CompactionLeft.intact (h : s.CompactionLeft task s') (hs : s.sys.Intact)
    (hunused : s.sys.db.nextFileNumber ∉ s.sys.world.disk.ssts)
    (hpick : pickCompaction s.sys.db.options.maxLevels s.sys.db.sstables = some (some task)) :
    s'.sys.Intact ∧ (s'.sys.tables = s.sys.tables ∨ ∃ es, s.sys.jobEntries task = .ok es ∧ es ≠ [] ∧
      Compacts (task.inputs.map s.sys.world.disk.entriesOf) es task.level s.sys.tables s'.sys.tables) := by
  rcases h with ⟨es, d, hd, hat, -⟩ | ⟨f, r, hinst, -⟩
  · obtain ⟨hs', -, -, htables⟩ := hs.notInstalled hunused hd hat
    exact ⟨hs', .inl htables⟩
  · obtain ⟨removed, hc⟩ := hinst.compacted
    obtain ⟨hs', -, -, hcompacts⟩ := hc.intact hs hunused hpick
    exact ⟨hs', .inr hcompacts⟩

theorem Cached.compact_spec (task : CompactionTask) (s : CSys) (hn : s.sys.db.nextFileNumber ≠ 0) :
    Triple (Cached.compact task) s (fun _ s' => s.CompactionLeft task s') (fun _ s' => s.CompactionLeft task s') := by
  have hsame : ∀ s' : CSys, s'.blockCache = s.blockCache → ∀ m offset data, s'.find ⟨m, offset⟩ = some data →
      s.find ⟨m, offset⟩ = some data ∨ m = s.sys.db.nextFileNumber := by
    intro s' hcache m offset data hdata
    rw [CSys.find, hcache] at hdata
    exact .inl hdata
  unfold Cached.compact Cached.compactOutput
  simp only [bind_assoc]
  have htake : Triple (onSys takeFileNumber) s
      (fun n s₁ => n = s.sys.db.nextFileNumber ∧ s₁ = { s with sys := s.sys.handOut }) (fun _ _ => False) := ⟨rfl, rfl⟩
  refine (htake.mono (fun _ _ => id) fun _ _ => False.elim).bind ?_
  rintro _ _ ⟨rfl, rfl⟩
  refine Triple.get_bind ?_
  have hjob := onSys_spec (s := { s with sys := s.sys.handOut }) (onWorld_spec (runJob_spec task.inputs task.outputLevel
    s.sys.handOut.db.options.blockSize s.sys.db.nextFileNumber (.refl s.sys.handOut.world)))
  refine (hjob.mono (fun _ _ => id) ?_).bind ?_
  · rintro _ s' ⟨hcache, hdb, ⟨h, -⟩ | ⟨h, -⟩⟩
    · exact .inl ⟨[], _, .untouched, .intro hdb h, hsame s' hcache⟩
    · exact .inl ⟨[], _, .created, .intro hdb h, hsame s' hcache⟩
  rintro result s₁ ⟨hcache₁, hdb₁, merged, hmerge, ⟨-, hzero, h₁⟩ | ⟨hes, hresult, f, hwf, hentries, h₁⟩⟩
  · rw [if_pos hzero, pure_bind]
    show s.CompactionLeft task s₁
    exact .inl ⟨[], _, .abandoned rfl, .intro hdb₁ h₁, hsame s₁ hcache₁⟩
  rw [if_neg (by rw [hresult]; exact hn)]
  simp only [bind_assoc]
  have hjob : s.sys.jobEntries task = .ok f.entries := by
    rw [hentries]
    exact congrArg _ hmerge
  have hwritten : s.sys.world.disk.Written s.sys.db.nextFileNumber (survivors task.outputLevel none merged)
    (s.sys.world.disk.withSst s.sys.db.nextFileNumber f) := .finished hes hwf hentries
  refine ((onSys_spec (onWorld_spec (openWithCache_spec s.sys.db.nextFileNumber h₁))).mono (fun _ _ => id) ?_).bind ?_
  · rintro _ s' ⟨hcache, hdb, -, h⟩
    exact .inl ⟨_, _, hwritten, .intro (hdb.trans hdb₁) h, hsame s' (hcache.trans hcache₁)⟩
  rintro r s₂ ⟨hcache₂, hdb₂, h₂, file, g, hlookup, hcontent, hr, hge, hlt⟩
  obtain rfl := Disk.finishSst_content hlookup hcontent
  have hfile : r.file = file := by rw [hr]; rfl
  subst hfile
  have hnumber : r.fileNumber = s.sys.db.nextFileNumber := by rw [hr]; rfl
  -- the new blocks in the cache are blocks of the output
  have hgrown : ∀ cache, r.Caches s₂.sys.world s₂.blockCache cache → ∀ m offset data,
      cache.bind (·.find ⟨m, offset⟩) = some data →
        s.find ⟨m, offset⟩ = some data ∨ m = s.sys.db.nextFileNumber ∧ g.StoresAt offset data := by
    intro cache hcaches m offset data hdata
    rcases hcaches m offset data hdata with hold | ⟨rfl, handle, rfl, hread⟩
    · rw [hcache₂, hcache₁] at hold
      exact .inl hold
    · exact .inr ⟨hnumber, World.readData_stores (by rw [h₂.disk_eq]; exact hcontent) hread⟩
  refine ((throughCache_spec (r.smallestKeyCached_caches s₂.sys.world s₂.blockCache)).mono (fun _ _ => id) ?_).bind ?_
  · rintro _ s' ⟨hsys, hcaches⟩
    refine .inl ⟨_, _, hwritten, .intro (by rw [hsys]; exact hdb₂.trans hdb₁) (by rw [hsys]; exact h₂), ?_⟩
    exact fun m offset data hdata => (hgrown _ hcaches m offset data hdata).imp_right And.left
  rintro smallest s₃ ⟨hsys, hcaches⟩
  have hdb₃ : s₃.sys.db = s.sys.handOut.db := by rw [hsys]; exact hdb₂.trans hdb₁
  have h₃ : s.sys.handOut.world.At (s.sys.world.disk.withSst s.sys.db.nextFileNumber g) s₃.sys.world := by
    rw [hsys]
    exact h₂
  split
  · rw [pure_bind]
    have hopens : (s.sys.world.disk.withSst s.sys.db.nextFileNumber g).Opens s.sys.world s₃.sys.world
        s.sys.db.nextFileNumber g r := ⟨hlookup, hcontent, hr, hge, by rw [hsys]; exact hlt⟩
    have hne : g.entries ≠ [] := by rwa [hentries]
    refine (onSys_spec (finishCompaction_spec task _ hjob hne hwf hdb₃ h₃ hopens)).mono ?_ ?_
    · rintro _ s' ⟨hcache, hinst⟩
      refine .inr ⟨g, r, hinst, fun m offset data hdata => hgrown _ hcaches m offset data ?_⟩
      rwa [CSys.find, hcache] at hdata
    · rintro _ s' ⟨hcache, hstop⟩
      have hfind : ∀ m offset data, s'.find ⟨m, offset⟩ = some data →
          s.find ⟨m, offset⟩ = some data ∨ m = s.sys.db.nextFileNumber ∧ g.StoresAt offset data := by
        intro m offset data hdata
        rw [CSys.find, hcache] at hdata
        exact hgrown _ hcaches m offset data hdata
      rcases hstop with hat | hinst
      · exact .inl ⟨_, _, hwritten, hat, fun m offset data hdata => (hfind m offset data hdata).imp_right And.left⟩
      · exact .inr ⟨g, r, hinst, hfind⟩
  · refine Triple.throw_bind (.inl ⟨_, _, hwritten, .intro hdb₃ h₃, ?_⟩)
    exact fun m offset data hdata => (hgrown _ hcaches m offset data hdata).imp_right And.left

theorem CSys.Since.compaction (h : start.Since s)
    (hpick : pickCompaction s.sys.db.options.maxLevels s.sys.db.sstables = some (some task))
    (hleft : s.CompactionLeft task s') : start.Since s' := by
  rcases hleft with ⟨es, d, hd, hat, hcache⟩ |
    ⟨f, r, ⟨-, -, hwf, ho, -, hlevel, removed, hpre, ⟨vs, hdb⟩, manifest, hat⟩, hcache⟩
  · exact h.notInstalled hd hat hcache
  have hnumber : r.fileNumber = s.sys.db.nextFileNumber := by rw [ho.reader]; rfl
  have hfiles : s'.sys.world.disk.files = (s.sys.world.disk.withSst s.sys.db.nextFileNumber f).files := by
    rw [hat.disk_eq]
    exact Disk.removeSsts_files _ _
  refine h.handOut ?_ (by rw [hdb]; rfl) fun hgood hfresh => ?_
  · rw [hat.disk_eq]
    exact ((h.sane.withSst _ hwf).removeSsts removed).of_sub (fun _ _ => id) rfl
  obtain ⟨others, hperm, hperm'⟩ := (updateLevels_compacts hpick hgood.own.arcs hlevel r).perm
  have hsst : s'.sys.db.sstables = updateLevels task r s.sys.db.sstables := by rw [hdb]
  have hlookup : ∀ m, (∀ x ∈ task.inputs, x.fileNumber ≠ m) → s'.sys.world.disk.ssts.lookup m =
      (s.sys.world.disk.withSst s.sys.db.nextFileNumber f).ssts.lookup m := by
    intro m hm
    rw [hat.disk_eq]
    exact Disk.lookup_removeSsts_ne fun x hx => hm x (hpre.subset hx)
  refine hgood.replace hfresh hat.arcs_le hperm (by rw [hsst]; exact hperm') ?_
    (.inr ⟨r, f, rfl, hnumber, ho.arc_ge, ho.arc_lt, ?_, ho.serves hwf hfiles⟩) ?_
  · intro x hx hne
    have hmem : x ∈ s.sys.db.sstables.flatten := hperm.mem_iff.mpr (List.mem_append_right _ hx)
    obtain ⟨hl, hf⟩ := h.sane.spares_withSst _ f _ _ hne (hgood.own.lookup x hmem)
    -- the inputs have other numbers than the tables that stay
    have hinputs : ∀ y ∈ task.inputs, y.fileNumber ≠ x.fileNumber := by
      have hnumbers := hgood.own.numbers
      rw [(hperm.map SSTableReader.fileNumber).nodup_iff, List.map_append, List.nodup_append] at hnumbers
      exact fun y hy => hnumbers.2.2 _ (List.mem_map_of_mem hy) _ (List.mem_map_of_mem hx)
    exact ⟨(hlookup _ hinputs).trans hl, by rw [hfiles]; exact hf⟩
  · refine (hlookup _ fun x hx => ?_).trans ho.lookup
    exact hfresh.tables x (hperm.mem_iff.mpr (List.mem_append_left _ hx))
  · intro m offset data hdata
    refine (hcache m offset data hdata).imp_right fun hnew => ⟨hnew.1, fun x hx g hg => ?_⟩
    obtain rfl := List.mem_singleton.mp hx
    rw [hg.unique (ho.serves hwf hfiles)]
    exact hnew.2

-- ---------------------------------------------------------------------------
-- Calls
-- ---------------------------------------------------------------------------

theorem onSys_keeps {m : M α} (hm : ∀ cache, Keeps (fun t => start.Since ⟨t, cache⟩) m) :
    Keeps (CSys.Since start) (onSys m) := by
  intro s hs
  refine (onSys_spec (hm s.blockCache s.sys hs)).mono ?_ ?_
  all_goals
    rintro _ s' ⟨hcache, hs'⟩
    rw [← hcache] at hs'
    exact hs'

namespace Cached

theorem ignoreError_keeps {I : CSys → Prop} {m : C Unit} (h : Keeps I m) : Keeps I (Cached.ignoreError m) := by
  intro s hs
  have hm := h s hs
  unfold Triple at hm ⊢
  unfold Cached.ignoreError
  cases hr : m s with
  | ok a s' => rw [hr] at hm; exact hm
  | error e s' => rw [hr] at hm; cases e <;> exact hm

structure Rule (J : CSys → Prop) : Prop where
  write : ∀ c : Call, c.IsWrite → Keeps J (onSys c.run)
  flushTables : Keeps J (onSys AiDb.flushTables)
  logs : ∀ m : M Unit, (∀ t : Sys, Keeps t.Logs m) → Keeps J (onSys m)
  compact : ∀ s task, J s → pickCompaction s.sys.db.options.maxLevels s.sys.db.sstables = some (some task) →
    Triple (Cached.compact task) s (fun _ => J) (fun _ => J)

namespace Rule

variable {J : CSys → Prop}

theorem maybeTriggerCompaction (h : Rule J) : Keeps J Cached.maybeTriggerCompaction := by
  intro s hs
  unfold Cached.maybeTriggerCompaction
  refine Triple.get_bind ?_
  dsimp only
  split
  · exact Triple.throw hs
  · exact Triple.pure hs
  · rename_i task hpick
    exact h.compact s task hs hpick

theorem flush (h : Rule J) : Keeps J Cached.flush := h.flushTables.bind fun _ => h.maybeTriggerCompaction

theorem dropDb (h : Rule J) : Keeps J Cached.dropDb := by
  have hbuf : Keeps J (Cached.ignoreError (onSys flushBuf)) := ignoreError_keeps (h.logs _ fun _ => flushBuf_logs)
  have hsync : Keeps J (Cached.ignoreError (onSys walSync)) := ignoreError_keeps (h.logs _ fun _ => walSync_logs)
  refine (ignoreError_keeps h.flush).bind fun _ => Keeps.get.bind fun s => ?_
  exact Keeps.ite (hsync.bind fun _ => hbuf) hbuf

theorem call (h : Rule J) (c : Call) : Keeps J c.runCached := by
  cases c with
  | flushTables => exact h.flushTables
  | maybeTriggerCompaction => exact h.maybeTriggerCompaction
  | flush => exact h.flush
  | close =>
    refine h.flush.bind fun _ => Keeps.get.bind fun s => Keeps.ite ?_ Keeps.pure
    exact h.logs _ fun _ => walSync_logs
  | put key value => exact h.write (.put key value) trivial
  | delete key => exact h.write (.delete key) trivial
  | write batch => exact h.write (.write batch) trivial

end Rule

end Cached

theorem CSys.Since.logs {t t' : Sys} {cache : Option SharedCache} (h : start.Since ⟨t, cache⟩) (hl : t.Logs t') :
    start.Since ⟨t', cache⟩ := h.tablesKept hl.tablesKept rfl

theorem since_rule : Cached.Rule (CSys.Since start) where
  write c hc := onSys_keeps fun cache t ht =>
    (c.run_tablesKept hc t).mono (fun _ _ hk => ht.tablesKept hk rfl) (fun _ _ hk => ht.tablesKept hk rfl)
  flushTables := by
    refine onSys_keeps fun cache t ht => ?_
    refine flushTables_rule (F := fun t => start.Since ⟨t, cache⟩) ?_ (fun _ h _ => h) (fun _ _ h hl => h.logs hl)
      (ht.tablesKept t.tablesKept_frozen rfl)
    intro t m rest ht _
    exact flushMemtableToSstable_since m cache (ht.tablesKept (t.tablesKept_popped rest) rfl)
  logs _ hm := onSys_keeps fun _ => Keeps.of_logs (fun _ _ h hl => h.logs hl) hm
  compact s task hs hpick := by
    have hn : s.sys.db.nextFileNumber ≠ 0 := by
      have := hs.two_le
      have := hs.le
      omega
    exact (Cached.compact_spec task s hn).mono (fun _ _ h => hs.compaction hpick h) (fun _ _ h => hs.compaction hpick h)

theorem CSys.Since.caches (h : start.Since s) (hr : r ∈ s.sys.db.sstables.flatten) (hsys : s'.sys = s.sys)
    (hc : r.Caches s.sys.world s.blockCache s'.blockCache) : start.Since s' where
  two_le := h.two_le
  le := by rw [hsys]; exact h.le
  sane := by rw [hsys]; exact h.sane
  good hhanded := by
    rw [hsys] at hhanded ⊢
    obtain ⟨hgood, hrest⟩ := h.good hhanded
    refine ⟨hgood.caches hr hsys hc, fun n hn hf => ⟨by rw [hsys]; exact (hrest n hn hf).tables, fun offset => ?_⟩⟩
    by_contra hfind
    obtain ⟨data, hdata⟩ := Option.ne_none_iff_exists'.mp hfind
    rcases hc _ _ _ hdata with hold | ⟨rfl, -⟩
    · have hnone := (hrest n hn hf).cache offset
      rw [CSys.find, hold] at hnone
      cases hnone
    · exact (hrest _ hn hf).tables r hr rfl

theorem Cached.getAtSequence_since (key : Bytes) (maxSeq : Nat) : Keeps (CSys.Since start) (Cached.getAtSequence key maxSeq) := by
  have htables : ∀ rs s, (∀ r ∈ rs, r ∈ s.sys.db.sstables.flatten) → start.Since s →
      Triple (Cached.askTables key rs) s (fun _ => CSys.Since start) (fun _ => CSys.Since start) := by
    intro rs
    induction rs with
    | nil => exact fun _ _ hs => Triple.pure hs
    | cons r rs ih =>
      intro s hrs hs
      unfold Cached.askTables
      have hread : Triple (throughCache fun w cache => r.getCached w key cache) s
          (fun _ s' => s'.sys = s.sys ∧ r.Caches s.sys.world s.blockCache s'.blockCache)
          (fun _ s' => s'.sys = s.sys ∧ r.Caches s.sys.world s.blockCache s'.blockCache) :=
        throughCache_spec (r.getCached_caches s.sys.world key s.blockCache)
      have hr := hrs r List.mem_cons_self
      refine (hread.mono (fun _ _ => id) fun _ _ h => hs.caches hr h.1 h.2).bind ?_
      rintro answer s₁ ⟨hsys, hc⟩
      cases answer with
      | some value => exact Triple.pure (hs.caches hr hsys hc)
      | none =>
        refine ih s₁ (fun x hx => ?_) (hs.caches hr hsys hc)
        rw [hsys]
        exact hrs x (List.mem_cons_of_mem r hx)
  intro s hs
  unfold Cached.getAtSequence
  refine Triple.get_bind ?_
  dsimp only
  split
  · exact Triple.pure hs
  · exact htables _ s (fun r hr => by simpa [List.mem_flatten] using hr) hs

theorem Cached.clearCache_since : Keeps (CSys.Since start) Cached.clearCache := by
  refine Keeps.modify fun s hs => ⟨hs.two_le, hs.le, hs.sane, fun hhanded => ?_⟩
  have hnone : ∀ key, CSys.find { s with blockCache := s.blockCache.map SharedCache.clear } key = none := fun key => by
    simp [CSys.find, Option.bind_map, Function.comp_def]
  obtain ⟨hgood, hrest⟩ := hs.good hhanded
  refine ⟨⟨hgood.own, fun r _ offset data hdata => ?_⟩, fun n hn hf => ⟨(hrest n hn hf).tables, fun _ => hnone _⟩⟩
  rw [hnone] at hdata
  cases hdata

-- ---------------------------------------------------------------------------
-- What a lookup finds
-- ---------------------------------------------------------------------------

/-- When every block can be read, the cache makes no difference to a lookup. -/
def CSys.Transparent (s : CSys) : Prop :=
  ∀ r ∈ s.sys.db.sstables.flatten, ∀ key, (r.getCached (s.sys.world.enter .calm) key s.blockCache).1 =
    (r.getCached (s.sys.world.enter .calm) key none).1

theorem SSTableReader.readBlockCached_eq (cache : SharedCache) (handle : BlockHandle) :
    (r.readBlockCached w handle (some cache)).1 = w.readData r.file handle ∨
      ∃ data, cache.find ⟨r.fileNumber, handle.offset⟩ = some data ∧
        (r.readBlockCached w handle (some cache)).1 = .ok data := by
  simp only [SSTableReader.readBlockCached]
  cases hget : cache.get ⟨r.fileNumber, handle.offset⟩ with
  | mk found cache' =>
    cases found with
    | some data => exact .inr ⟨data, SharedCache.get_eq_some (by rw [hget]), rfl⟩
    | none => cases hread : w.readData r.file handle <;> exact .inl rfl

/-- In a good state a cached block is the one of the file, which `w` reads as well. -/
theorem CSys.Good.getCached_eq (h : s.Good) (hr : r ∈ s.sys.db.sstables.flatten) (hf : s.sys.world.disk.Serves r f)
    (hread : f.ReadBy (w.readBlock r.file)) (key : Bytes) :
    (r.getCached w key s.blockCache).1 = (r.getCached w key none).1 := by
  cases hcache : s.blockCache with
  | none => rfl
  | some cache =>
    unfold SSTableReader.getCached
    split
    · split
      · rfl
      · rename_i handle hfind
        obtain ⟨b, hb, rfl⟩ := SSTableReader.findBlock_mem hf hfind
        have hread : w.readData r.file b.handle = .ok (Sstable.blockData 16 b.entries) := World.readData_block hread hb
        dsimp only
        rcases r.readBlockCached_eq (w := w) cache b.handle with heq | ⟨data, hdata, heq⟩
        · rw [heq]
          rfl
        · obtain ⟨g, hg, b', hb', hoffset, rfl⟩ := h.coherent r hr _ data (by rw [CSys.find, hcache]; exact hdata)
          obtain rfl := hf.unique hg
          obtain rfl := hf.wellFormed.block_unique hb' hb hoffset
          rw [heq]
          simp only [SSTableReader.readBlockCached, hread]
    · rfl

theorem CSys.Good.transparent (h : s.Good) : s.Transparent := by
  intro r hr key
  obtain ⟨f, hf⟩ := h.own.serves r hr
  exact h.getCached_eq hr hf (World.readBy (w := s.sys.world.enter .calm) hf fun _ => rfl) key

-- ---------------------------------------------------------------------------
-- Any number of sessions
-- ---------------------------------------------------------------------------

theorem Disk.Loads.number (h : d.Loads ns lo hi rs) (hns : ns.Nodup) : (rs.map SSTableReader.fileNumber).Nodup :=
  h.sublist.nodup hns

theorem openDb_good (o : Options) (size : Nat) (hsane : w.disk.Sane) :
    Triple (openDb o) w (fun db w' => CSys.Good ⟨⟨db, w'⟩, some (.new size)⟩ ∧ w'.disk.Sane ∧ 2 ≤ db.nextFileNumber)
      (fun _ w' => w'.disk.Sane) := by
  refine (openDb_spec o w).mono ?_ ?_
  · rintro db w' ⟨⟨dir, logs, manifest, faults, arcs, -, -, rfl⟩, recovered, tables, vs, lo, hi, rfl, -, hloads, -, hhi, -⟩
    have hflat : (openedDb o recovered w.disk.replayedLog w.writes (latestWal w.disk) tables vs).sstables.flatten = tables := by
      simp [openedDb]
    have hread : ∀ r ∈ tables, ∃ f, w.disk.Reads r.fileNumber r f ∧ r.arc < hi := by
      intro r hr
      obtain ⟨n, -, f, hf, -, hlt⟩ := hloads.mem hr
      have hn : r.fileNumber = n := by rw [hf.reader]; rfl
      exact ⟨f, hn ▸ hf, hlt⟩
    refine ⟨⟨⟨?_, ?_, ?_, ?_, ?_⟩, ?_⟩, hsane.of_sub (fun _ _ => id) rfl, le_refl 2⟩
    · rw [hflat]
      intro r hr
      obtain ⟨f, hf, -⟩ := hread r hr
      exact hf.lookup
    · rw [hflat]
      intro r hr
      obtain ⟨f, hf, -⟩ := hread r hr
      exact ⟨f, hf.content, by rw [hf.reader]; rfl, hsane.wellFormed r.file f hf.content⟩
    · rw [hflat]
      intro r hr
      obtain ⟨f, -, hlt⟩ := hread r hr
      exact lt_of_lt_of_le hlt hhi
    · rw [hflat]
      exact hloads.arcs
    · rw [hflat]
      exact hloads.number w.disk.nodup_sortedSsts
    · intro r _ offset data hdata
      simp [CSys.find] at hdata
  · rintro _ w' ⟨⟨dir, logs, manifest, faults, arcs, -, -, rfl⟩, -⟩
    exact hsane.of_sub (fun _ _ => id) rfl

namespace Cached

def State.Agrees (st : State) : Prop :=
  match st.session with
  | some (db, cache) =>
    CSys.Good ⟨⟨db, st.world⟩, cache⟩ ∧ st.world.disk.Sane ∧ 2 ≤ db.nextFileNumber
  | none => st.world.disk.Sane

/-- No number that the step hands out is that of a table of the handle or of a cached
block. A step that ends the session may hand out any. -/
def State.HandsOutFresh (st : State) (env : Env) (a : Action) : Prop :=
  ∀ db cache db' cache', st.session = some (db, cache) → (st.exec env a).2.session = some (db', cache') →
    ∀ n, db.nextFileNumber ≤ n → n < db'.nextFileNumber → CSys.Fresh ⟨⟨db, st.world⟩, cache⟩ n

theorem State.agrees_after {st : State} {env : Env} {db : DB} {cache : Option SharedCache} {a : Action} {m : C α}
    (hst : st.session = some (db, cache)) (hexec : (st.exec env a).2 = (State.after (m ⟨⟨db, st.world.enter env⟩, cache⟩)).2)
    (hm : Triple m ⟨⟨db, st.world.enter env⟩, cache⟩ (fun _ => CSys.Since ⟨⟨db, st.world.enter env⟩, cache⟩)
      (fun _ => CSys.Since ⟨⟨db, st.world.enter env⟩, cache⟩)) (hfresh : st.HandsOutFresh env a) :
    (st.exec env a).2.Agrees := by
  unfold State.HandsOutFresh at hfresh
  rw [hexec] at hfresh ⊢
  have hopen : ∀ s' : CSys, CSys.Since ⟨⟨db, st.world.enter env⟩, cache⟩ s' →
      (State.after (m ⟨⟨db, st.world.enter env⟩, cache⟩)).2 = ⟨some (s'.sys.db, s'.blockCache), s'.sys.world⟩ →
      State.Agrees ⟨some (s'.sys.db, s'.blockCache), s'.sys.world⟩ := by
    intro s' hs' heq
    rw [heq] at hfresh
    refine ⟨(hs'.good fun n hle hlt => ?_).1, hs'.sane, hs'.two_le.trans hs'.le⟩
    obtain ⟨htables, hcache⟩ := hfresh db cache _ _ hst rfl n hle hlt
    exact ⟨htables, hcache⟩
  unfold Triple at hm
  unfold State.after at hopen ⊢
  cases hr : m ⟨⟨db, st.world.enter env⟩, cache⟩ with
  | ok x s' =>
    rw [hr] at hm hopen
    exact hopen s' hm rfl
  | error e s' =>
    rw [hr] at hm hopen
    cases e with
    | error err => exact hopen s' hm rfl
    | panic => exact hm.sane
    | crash => exact hm.sane

theorem State.Agrees.exec {st : State} (h : st.Agrees) (env : Env) (a : Action) (hfresh : st.HandsOutFresh env a) :
    (st.exec env a).2.Agrees := by
  have h' := h
  unfold State.Agrees at h'
  split at h'
  · rename_i db cache hst
    obtain ⟨hgood, hsane, htwo⟩ := h'
    have hgood : CSys.Good ⟨⟨db, st.world.enter env⟩, cache⟩ :=
      ⟨⟨hgood.own.lookup, hgood.own.serves, hgood.own.arc_lt, hgood.own.arcs, hgood.own.numbers⟩, hgood.coherent⟩
    have hsince := hgood.since hsane htwo
    cases a with
    | openDb o size =>
      have hexec : (st.exec env (.openDb o size)).2 = st := by
        unfold State.exec
        rw [hst]
      rwa [hexec]
    | call c =>
      refine State.agrees_after hst ?_ (since_rule.call c _ hsince) hfresh
      unfold State.exec
      rw [hst]
    | getAtSequence key maxSeq =>
      refine State.agrees_after hst ?_ (getAtSequence_since key maxSeq _ hsince) hfresh
      unfold State.exec
      rw [hst]
    | clearCache =>
      refine State.agrees_after hst ?_ (clearCache_since _ hsince) hfresh
      unfold State.exec
      rw [hst]
    | drop =>
      have hdrop := since_rule.dropDb _ hsince
      unfold State.exec
      rw [hst]
      unfold Triple at hdrop
      dsimp only
      cases hr : Cached.dropDb ⟨⟨db, st.world.enter env⟩, cache⟩ with
      | ok x s' => rw [hr] at hdrop; exact hdrop.sane
      | error e s' => rw [hr] at hdrop; exact hdrop.sane
    | crash =>
      unfold State.exec
      rw [hst]
      exact hsane
  · rename_i hst
    cases a with
    | openDb o size =>
      have hopen := openDb_good o size (w := st.world.enter env) h'
      unfold State.exec
      rw [hst]
      unfold Triple at hopen
      dsimp only
      cases hr : AiDb.openDb o (st.world.enter env) with
      | ok db w' => rw [hr] at hopen; exact hopen
      | error e w' => rw [hr] at hopen; exact hopen
    | _ =>
      unfold State.exec
      rw [hst]
      exact h

theorem State.Agrees.runs {st : State} (h : st.Agrees) (hrun : st.Along State.HandsOutFresh run) : (st.runs run).Agrees := by
  induction run generalizing st with
  | nil => exact h
  | cons step run ih => exact ih (h.exec step.1 step.2 hrun.1) hrun.2

/-- In every state of a run that hands out fresh numbers, a lookup in a table finds
through the cache what it finds without, and a cached block is the one stored at its
offset in every table of its number. -/
theorem cache_transparent (len : CompressedLen) (run : List (Env × Action))
    (h : (State.init len).Along State.HandsOutFresh run) {db : DB} {cache : Option SharedCache}
    (hst : ((State.init len).runs run).session = some (db, cache)) :
    CSys.Transparent ⟨⟨db, ((State.init len).runs run).world⟩, cache⟩ ∧
      CSys.Coherent ⟨⟨db, ((State.init len).runs run).world⟩, cache⟩ := by
  have hinit : (State.init len).Agrees := Disk.sane_empty
  have hrun := hinit.runs h
  unfold State.Agrees at hrun
  rw [hst] at hrun
  exact ⟨hrun.1.transparent, hrun.1.coherent⟩

def State.handsOutFresh (st : State) (env : Env) (a : Action) : Bool :=
  match st.session, (st.exec env a).2.session with
  | some (db, cache), some (db', _) =>
    (List.range db'.nextFileNumber).all fun n => n < db.nextFileNumber ||
      db.sstables.flatten.all (·.fileNumber ≠ n) && cache.all fun c => c.cache.lruQueue.all (·.fileId ≠ n)
  | _, _ => true

theorem State.handsOutFresh_sound {st : State} {env : Env} {a : Action} (h : st.handsOutFresh env a = true) :
    st.HandsOutFresh env a := by
  intro db cache db' cache' hst hst' n hle hlt
  unfold State.handsOutFresh at h
  rw [hst, hst'] at h
  have hn := List.all_eq_true.mp h n (List.mem_range.mpr hlt)
  simp only [Bool.or_eq_true, decide_eq_true_eq, Bool.and_eq_true, List.all_eq_true, ne_eq] at hn
  rcases hn with hn | ⟨htables, hcache⟩
  · omega
  refine ⟨htables, fun offset => ?_⟩
  cases cache with
  | none => rfl
  | some c =>
    by_contra hfind
    obtain ⟨data, hdata⟩ := Option.ne_none_iff_exists'.mp hfind
    have hmem : (⟨n, offset⟩ : CacheKey) ∈ c.cache.lruQueue := (c.sound.mem_iff _).mpr (by
      rw [show c.cache.cache ⟨n, offset⟩ = some data from hdata]
      rfl)
    simp only [Option.all_some, List.all_eq_true, decide_eq_true_eq] at hcache
    exact hcache _ hmem rfl

def State.checkAlong (check : State → Env → Action → Bool) : State → List (Env × Action) → Bool
  | _, [] => true
  | st, (env, a) :: rest => check st env a && State.checkAlong check (st.exec env a).2 rest

theorem State.along_of_check {P : State → Env → Action → Prop} {check : State → Env → Action → Bool} {st : State}
    (hP : ∀ st env a, check st env a = true → P st env a) (h : st.checkAlong check run = true) : st.Along P run := by
  induction run generalizing st with
  | nil => trivial
  | cons step run ih =>
    rw [State.checkAlong, Bool.and_eq_true] at h
    exact ⟨hP _ _ _ h.1, ih h.2⟩

def readBetween : List (Env × Action) :=
  [.openDb .plain 1024, .call (.put [97] [1]), .call .flush, .getAtSequence [97] 1, .call (.put [98] [2]),
    .call .flush].map (Env.calm, ·)

theorem cache_transparent_readBetween : ∃ db cache, ((State.init .unused).runs readBetween).session = some (db, cache) ∧
    CSys.find ⟨⟨db, ((State.init .unused).runs readBetween).world⟩, cache⟩ ⟨2, 0⟩ ≠ none ∧
    CSys.Transparent ⟨⟨db, ((State.init .unused).runs readBetween).world⟩, cache⟩ := by
  have hsome : (((State.init .unused).runs readBetween).session.map fun x =>
      (x.2.bind (·.find ⟨2, 0⟩)).isSome) = some true := by decide +kernel
  obtain ⟨⟨db, cache⟩, hst, hfind⟩ := Option.map_eq_some_iff.mp hsome
  have halong : (State.init .unused).Along State.HandsOutFresh readBetween :=
    State.along_of_check (fun _ _ _ => State.handsOutFresh_sound) (by decide +kernel)
  refine ⟨db, cache, hst, ?_, (cache_transparent .unused readBetween halong hst).1⟩
  exact Option.isSome_iff_ne_none.mp hfind

/-- The second session reads a table of the first, then writes its own over it. -/
def readThenOverwritten : List (Env × Action) :=
  [.openDb .plain 1024, .call (.put [97] [1]), .call .flush, .drop, .openDb .plain 1024, .getAtSequence [97] 1,
    .call (.put [98] [2]), .call .flush].map (Env.calm, ·)

/-- The new table has the number of the old one, and its first block is the cached block
of that: the key it was written for is not found. -/
theorem not_transparent_readThenOverwritten : ∃ db cache,
    ((State.init .unused).runs readThenOverwritten).session = some (db, cache) ∧
      ¬CSys.Transparent ⟨⟨db, ((State.init .unused).runs readThenOverwritten).world⟩, cache⟩ := by
  have hsome : (((State.init .unused).runs readThenOverwritten).session.map fun x =>
      x.1.sstables.flatten.head?.map fun r =>
        ((r.getCached (((State.init .unused).runs readThenOverwritten).world.enter .calm) [98] x.2).1.toOption,
          (r.getCached (((State.init .unused).runs readThenOverwritten).world.enter .calm) [98] none).1.toOption)) =
      some (some (some none, some (some [2]))) := by decide +kernel
  generalize (State.init .unused).runs readThenOverwritten = st at hsome ⊢
  obtain ⟨⟨db, cache⟩, hst, hr⟩ := Option.map_eq_some_iff.mp hsome
  obtain ⟨r, hr, hreads⟩ := Option.map_eq_some_iff.mp hr
  refine ⟨db, cache, hst, fun h => ?_⟩
  obtain ⟨hcached, huncached⟩ := Prod.mk.inj hreads
  have heq := congrArg Except.toOption (h r (List.mem_of_head? hr) [98])
  exact absurd (hcached.symm.trans (heq.trans huncached)) (by decide)

end Cached

end AiDb
