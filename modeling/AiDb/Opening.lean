import AiDb.Writes

/-!
# What opening does

`DB::open` replays the latest log into the memtable and puts every table file
that opens into level 0, in the order of the file names. The file counter starts
at 2 whatever the directory holds.
-/

namespace AiDb

open Library Compaction

variable {w w' : World} {d : Disk}

-- ---------------------------------------------------------------------------
-- Loading the tables
-- ---------------------------------------------------------------------------

structure Disk.Reads (d : Disk) (n : Nat) (r : SSTableReader) (f : SstFile) : Prop where
  lookup : d.ssts.lookup n = some r.file
  content : d.files[r.file]? = some (.complete f)
  reader : r = .ofFile r.arc n r.file f

def Disk.Complete (d : Disk) (n : Nat) : Prop :=
  ∃ file f, d.ssts.lookup n = some file ∧ d.files[file]? = some (.complete f)

/-- Readers on some of the tables `ns`, in their order, allocated from `lo` up to
`hi`. -/
inductive Disk.Loads (d : Disk) : (ns : List Nat) → (lo hi : Nat) → List SSTableReader → Prop
  | nil : lo ≤ hi → Loads d [] lo hi []
  | skip : Loads d ns lo hi rs → Loads d (n :: ns) lo hi rs
  | load : d.Reads n r f → lo ≤ r.arc → r.arc < mid → Loads d ns mid hi rs →
      Loads d (n :: ns) lo hi (r :: rs)

theorem Disk.Loads.le (h : d.Loads ns lo hi rs) : lo ≤ hi := by
  induction h with
  | nil h => exact h
  | skip _ ih => exact ih
  | load _ hge hlt _ ih => omega

theorem Disk.Loads.mono (h : d.Loads ns mid hi rs) (hlo : lo ≤ mid) : d.Loads ns lo hi rs := by
  induction h generalizing lo with
  | nil h => exact .nil (by omega)
  | skip _ ih => exact .skip (ih hlo)
  | load hr hge hlt hrest _ => exact .load hr (by omega) hlt hrest

theorem Disk.Loads.mem (h : d.Loads ns lo hi rs) (hr : r ∈ rs) :
    ∃ n ∈ ns, ∃ f, d.Reads n r f ∧ lo ≤ r.arc ∧ r.arc < hi := by
  induction h with
  | nil => cases hr
  | skip _ ih =>
    obtain ⟨n, hn, f, hf⟩ := ih hr
    exact ⟨n, List.mem_cons_of_mem _ hn, f, hf⟩
  | load hread hge hlt hrest ih =>
    rcases List.mem_cons.mp hr with rfl | hr
    · exact ⟨_, List.mem_cons_self, _, hread, hge, lt_of_lt_of_le hlt hrest.le⟩
    · obtain ⟨n, hn, f, hf, hge', hlt'⟩ := ih hr
      exact ⟨n, List.mem_cons_of_mem _ hn, f, hf, by omega, hlt'⟩

theorem Disk.Loads.sublist (h : d.Loads ns lo hi rs) : (rs.map SSTableReader.fileNumber).Sublist ns := by
  induction h with
  | nil => simp
  | skip _ ih => exact ih.cons _
  | load hread _ _ _ ih =>
    rw [List.map_cons, show SSTableReader.fileNumber _ = _ from by rw [hread.reader]]
    exact ih.cons_cons _

theorem Disk.nodup_sortedSsts (d : Disk) : (sortedSsts d).Nodup :=
  (List.perm_insertionSort _ d.ssts.keys).nodup_iff.mpr d.ssts.keys_nodup

theorem Disk.Loads.congr {d' : Disk} (h : d.Loads ns lo hi rs) (hs : d'.ssts = d.ssts) (hf : d'.files = d.files) :
    d'.Loads ns lo hi rs := by
  induction h with
  | nil h => exact .nil h
  | skip _ ih => exact .skip ih
  | load hr hge hlt _ ih =>
    exact .load ⟨by rw [hs]; exact hr.lookup, by rw [hf]; exact hr.content, hr.reader⟩ hge hlt ih

theorem Disk.Loads.arcs (h : d.Loads ns lo hi rs) : (rs.map SSTableReader.arc).Nodup := by
  induction h with
  | nil => exact List.nodup_nil
  | skip _ ih => exact ih
  | load _ hge hlt hrest ih =>
    rw [List.map_cons, List.nodup_cons]
    refine ⟨fun hmem => ?_, ih⟩
    obtain ⟨r', hr', harc⟩ := List.mem_map.mp hmem
    obtain ⟨_, _, _, _, hge', _⟩ := hrest.mem hr'
    omega

theorem loadSsts_spec (ns : List Nat) (w : World) :
    Triple (loadSsts ns) w
      (fun rs w' => w.At w.disk w' ∧ w.disk.Loads ns w.arcs w'.arcs rs ∧
        (w.faults = [] → ∀ n ∈ ns, w.disk.Complete n → ∃ r ∈ rs, ∃ f, w.disk.Reads n r f))
      (fun _ w' => w.faults ≠ [] ∧ w.At w.disk w') := by
  induction ns generalizing w with
  | nil => exact Triple.pure ⟨.refl w, .nil (le_refl _), by simp⟩
  | cons n ns ih =>
    unfold loadSsts
    -- one table: it is loaded, or skipped because it does not open
    refine Triple.bind (Q := fun rs w' => w.At w.disk w' ∧
      (rs = [] ∧ (w.faults = [] → ¬w.disk.Complete n) ∨
        ∃ r f, rs = [r] ∧ w.disk.Reads n r f ∧ w.arcs ≤ r.arc ∧ r.arc < w'.arcs)) ?_ ?_
    · have hopen := openWithCache_spec n (.refl w)
      unfold Triple at hopen ⊢
      dsimp only
      cases hr : openWithCache n w with
      | ok r w1 =>
        rw [hr] at hopen
        obtain ⟨hat, file, f, hlookup, hcontent, hreader, hge, hlt⟩ := hopen
        have hfile : r.file = file := by rw [hreader]; rfl
        subst hfile
        exact ⟨hat, .inr ⟨r, f, rfl, ⟨hlookup, hcontent, hreader⟩, hge, hlt⟩⟩
      | error e w1 =>
        rw [hr] at hopen
        obtain ⟨hcalm, hat⟩ := hopen
        cases e with
        | error err =>
          refine ⟨hat, .inl ⟨rfl, ?_⟩⟩
          rintro hc ⟨file, f, hlookup, hcontent⟩
          exact (hcalm hc).2 file f hlookup hcontent
        | panic => exact ⟨fun hc => absurd (hcalm hc).1 (by simp), hat⟩
        | crash => exact ⟨fun hc => absurd (hcalm hc).1 (by simp), hat⟩
    rintro rs1 w1 ⟨hat1, hrs1⟩
    have htail := ih w1
    rw [hat1.disk_eq] at htail
    refine (htail.mono (fun _ _ => id) ?_).bind ?_
    · exact fun _ w2 hf => ⟨fun hc => hf.1 (hat1.calm hc), hat1.trans hf.2⟩
    rintro rs2 w2 ⟨hat2, hloads, hall⟩
    refine Triple.pure ⟨hat1.trans hat2, ?_, ?_⟩
    · rcases hrs1 with ⟨rfl, -⟩ | ⟨r, f, rfl, hread, hge, hlt⟩
      · exact .skip (hloads.mono hat1.arcs_le)
      · exact .load hread hge hlt hloads
    · intro hc m hm hcomplete
      rcases List.mem_cons.mp hm with rfl | hm
      · rcases hrs1 with ⟨rfl, hno⟩ | ⟨r, f, rfl, hread, -, -⟩
        · exact absurd hcomplete (hno hc)
        · exact ⟨r, by simp, f, hread⟩
      · obtain ⟨r, hr, hread⟩ := hall (hat1.calm hc) m hm hcomplete
        exact ⟨r, List.mem_append_right _ hr, hread⟩

-- ---------------------------------------------------------------------------
-- The open call
-- ---------------------------------------------------------------------------

def Disk.replayedLog (d : Disk) : LogFile := (d.logs.lookup (latestWal d)).getD ⟨[], []⟩

/-- The handle that `DB::open` builds. -/
def openedDb (o : Options) (recovered : List Bytes) (log : LogFile) (writes walNumber : Nat)
    (tables : List SSTableReader) (vs : VersionSet) : DB where
  options := o
  memtable := replay (MemTable.new 1) 0 (log.stamped recovered writes)
  immutableMemtables := []
  wal := ⟨walNumber, []⟩
  sstables := tables :: List.replicate (o.maxLevels - 1) []
  sequence := recovered.length
  nextFileNumber := 2
  walFileNumber := walNumber
  versionSet := vs

/-- Nothing but the logs, the manifest and the directory itself is touched. -/
def World.SameTables (w w' : World) : Prop :=
  ∃ dirExists logs manifest faults arcs, w.arcs ≤ arcs ∧ (w.faults = [] → faults = []) ∧
    w' = { w with
      disk := { w.disk with dirExists := dirExists, logs := logs, manifest := manifest }
      faults := faults
      arcs := arcs }

theorem World.SameTables.refl (w : World) : w.SameTables w :=
  ⟨_, _, _, _, _, le_refl _, id, rfl⟩

theorem World.SameTables.trans {w'' : World} (h : w.SameTables w') (h' : w'.SameTables w'') :
    w.SameTables w'' := by
  obtain ⟨_, _, _, _, _, ha, hf, rfl⟩ := h
  obtain ⟨dir, logs, manifest, faults, arcs, ha', hf', rfl⟩ := h'
  exact ⟨dir, logs, manifest, faults, arcs, ha.trans ha', fun hc => hf' (hf hc), rfl⟩

theorem World.At.sameTables (h : w.At { w.disk with
    dirExists := dirExists, logs := logs, manifest := manifest } w') : w.SameTables w' := by
  obtain ⟨faults, arcs, ha, hf, rfl⟩ := h
  exact ⟨_, _, _, faults, arcs, ha, hf, rfl⟩

structure Disk.Openable (d : Disk) (o : Options) : Prop where
  valid : o.validate = .ok ()
  dir : if d.dirExists then o.errorIfExists = false else o.createIfMissing = true
  log : ∃ recovered, Wal.recoverAll Wal.calculateChecksum d.replayedLog.bytes = .ok recovered
  manifest : ∀ pieces, d.manifest = some pieces →
    ∃ vs, recoverLines (VersionSet.new o.maxLevels) (manifestLines [] pieces) = .ok (some vs)

theorem newVersionSet_spec (maxLevels : Nat) (w : World) :
    Triple (newVersionSet maxLevels) w
      (fun vs w' => w.SameTables w' ∧
        recoverLines (VersionSet.new maxLevels) (manifestLines [] (w.disk.manifest.getD [])) = .ok (some vs))
      (fun _ w' => w.SameTables w' ∧ (w.faults = [] → ∃ pieces, w.disk.manifest = some pieces ∧
        ∀ vs, recoverLines (VersionSet.new maxLevels) (manifestLines [] pieces) ≠ .ok (some vs))) := by
  unfold newVersionSet
  refine Triple.get_bind ?_
  cases hm : w.disk.manifest with
  | none =>
    refine ((atomicOp_spec _ (.refl w)).mono (fun _ _ => id) ?_).bind fun _ w1 h1 =>
      Triple.pure ⟨h1.sameTables, rfl⟩
    exact fun _ w1 hf => ⟨hf.2.sameTables, fun hc => absurd hc hf.1⟩
  | some pieces =>
    refine ((passiveOp_spec (.refl w)).mono (fun _ _ => id) ?_).bind fun _ w1 h1 => ?_
    · exact fun _ w1 hf => ⟨hf.2.sameTables, fun hc => absurd hc hf.1⟩
    cases hrec : recoverLines (VersionSet.new maxLevels) (manifestLines [] pieces) with
    | error e =>
      rw [liftExcept_error]
      exact Triple.throw_bind ⟨h1.sameTables, fun _ => ⟨pieces, rfl, by simp [hrec]⟩⟩
    | ok o =>
      rw [liftExcept_ok, pure_bind]
      cases o with
      | none => exact Triple.throw ⟨h1.sameTables, fun _ => ⟨pieces, rfl, by simp [hrec]⟩⟩
      | some vs => exact Triple.pure ⟨h1.sameTables, hrec⟩

theorem openDir_spec (o : Options) (w : World) :
    Triple (openDir o) w (fun _ w' => ∃ dir, w.At { w.disk with dirExists := dir } w')
      (fun _ w' => w.SameTables w' ∧ (w.faults = [] → ¬w.disk.Openable o)) := by
  unfold openDir
  refine Triple.get_bind ?_
  cases hdir : w.disk.dirExists with
  | false =>
    simp only [Bool.not_false, ↓reduceIte]
    split
    · refine (atomicOp_spec _ (.refl w)).mono (fun _ _ h => ⟨true, h⟩) ?_
      exact fun _ _ hf => ⟨hf.2.sameTables, fun hc => absurd hc hf.1⟩
    · rename_i hcreate
      refine Triple.throw ⟨.refl w, fun _ hopen => hcreate ?_⟩
      have := hopen.dir
      rwa [hdir, if_neg (by simp)] at this
  | true =>
    simp only [Bool.not_true, Bool.false_eq_true, ↓reduceIte]
    split
    · rename_i hexists
      refine Triple.throw ⟨.refl w, fun _ hopen => ?_⟩
      have := hopen.dir
      rw [hdir, if_pos rfl, hexists] at this
      cases this
    · exact Triple.pure ⟨w.disk.dirExists, .refl w⟩

theorem recoverLog_spec (log : LogFile) (w : World) :
    Triple (recoverLog log) w
      (fun recovered w' => Wal.recoverAll Wal.calculateChecksum log.bytes = .ok recovered ∧ w.At w.disk w')
      (fun _ w' => w.At w.disk w' ∧ (w.faults = [] →
        ∀ recovered, Wal.recoverAll Wal.calculateChecksum log.bytes ≠ .ok recovered)) := by
  unfold recoverLog
  split
  · refine ((passiveOp_spec (.refl w)).mono (fun _ _ => id) ?_).bind fun _ w1 h1 => ?_
    · exact fun _ _ hf => ⟨hf.2, fun hc => absurd hc hf.1⟩
    cases hrec : Wal.recoverAll Wal.calculateChecksum log.bytes with
    | error e =>
      rw [liftExcept_error]
      exact Triple.throw ⟨h1, fun _ _ => nofun⟩
    | ok recovered => exact Triple.pure ⟨rfl, h1⟩
  · rename_i hlen
    have hnil : log.bytes = [] := List.length_eq_zero_iff.mp (by omega)
    exact Triple.pure ⟨by rw [hnil, Wal.recoverAll_nil], .refl w⟩

theorem openLog_spec (w : World) :
    Triple (openLog (latestWal w.disk)) w
      (fun _ w' => ∃ logs, w.At { w.disk with logs := logs } w' ∧
        (logs.lookup (latestWal w.disk)).getD ⟨[], []⟩ = w.disk.replayedLog)
      (fun _ w' => w.faults ≠ [] ∧ w.SameTables w') := by
  refine (atomicOp_spec _ (.refl w)).mono ?_ fun _ _ hf => ⟨hf.1, hf.2.sameTables⟩
  intro _ w1 h1
  split at h1
  · exact ⟨w.disk.logs, h1, rfl⟩
  · rename_i hn
    refine ⟨_, h1, ?_⟩
    rw [AList.lookup_insert, Disk.replayedLog, AList.lookup_eq_none.mpr hn]
    rfl

/-- Every way `DB::open` can end. -/
theorem openDb_spec (o : Options) (w : World) :
    Triple (openDb o) w
      (fun db w' => w.SameTables w' ∧ ∃ recovered tables vs lo hi,
        db = openedDb o recovered w.disk.replayedLog w.writes (latestWal w.disk) tables vs ∧
        Wal.recoverAll Wal.calculateChecksum w.disk.replayedLog.bytes = .ok recovered ∧
        w.disk.Loads (sortedSsts w.disk) lo hi tables ∧ w.arcs ≤ lo ∧ hi ≤ w'.arcs ∧
        (w.faults = [] → ∀ n ∈ sortedSsts w.disk, w.disk.Complete n →
          ∃ r ∈ tables, ∃ f, w.disk.Reads n r f) ∧
        o.validate = .ok () ∧
        recoverLines (VersionSet.new o.maxLevels) (manifestLines [] (w.disk.manifest.getD [])) = .ok (some vs))
      (fun _ w' => w.SameTables w' ∧ (w.faults = [] → ¬w.disk.Openable o)) := by
  unfold openDb
  cases hvalid : o.validate with
  | error e =>
    rw [liftExcept_error]
    refine Triple.throw_bind ⟨.refl w, fun _ hopen => ?_⟩
    have := hopen.valid
    rw [hvalid] at this
    cases this
  | ok u =>
    rw [liftExcept_ok, pure_bind]
    refine (openDir_spec o w).bind ?_
    rintro _ w1 ⟨dir, h1⟩
    refine Triple.get_bind ?_
    have hlatest : latestWal w1.disk = latestWal w.disk := by rw [h1.disk_eq]; rfl
    have hlog1 : w1.disk.replayedLog = w.disk.replayedLog := by rw [h1.disk_eq]; rfl
    have hwrites : w1.writes = w.writes := by
      obtain ⟨_, _, -, -, rfl⟩ := h1
      rfl
    have hsame1 := h1.sameTables
    refine ((openLog_spec w1).mono (fun _ _ => id) ?_).bind ?_
    · exact fun _ _ hf => ⟨hsame1.trans hf.2, fun hc => absurd (h1.calm hc) hf.1⟩
    rintro _ w2 ⟨logs, h2, hlog⟩
    have hsame2 := hsame1.trans h2.sameTables
    refine Triple.get_bind ?_
    rw [show w2.disk.logs = logs by rw [h2.disk_eq], hlog, hlog1]
    refine ((recoverLog_spec _ w2).mono (fun _ _ => id) ?_).bind ?_
    · rintro _ w3 ⟨h3, hbad⟩
      refine ⟨hsame2.trans h3.sameTables, fun hc hopen => ?_⟩
      obtain ⟨recovered, hrec⟩ := hopen.log
      exact hbad (h2.calm (h1.calm hc)) recovered hrec
    rintro recovered w3 ⟨hrec, h3⟩
    have hsame3 := hsame2.trans h3.sameTables
    refine Triple.get_bind ?_
    refine ((loadSsts_spec _ w3).mono (fun _ _ => id) ?_).bind ?_
    · exact fun _ _ hf => ⟨hsame3.trans hf.2.sameTables, fun hc => absurd (h3.calm (h2.calm (h1.calm hc))) hf.1⟩
    rintro tables w4 ⟨h4, hloads, hall⟩
    have hsame4 := hsame3.trans h4.sameTables
    have hssts : w3.disk.ssts = w.disk.ssts ∧ w3.disk.files = w.disk.files := by
      rw [h3.disk_eq, h2.disk_eq, h1.disk_eq]
      exact ⟨rfl, rfl⟩
    have hsorted : sortedSsts w3.disk = sortedSsts w.disk := by rw [sortedSsts, hssts.1]; rfl
    refine ((newVersionSet_spec _ w4).mono (fun _ _ => id) ?_).bind ?_
    · rintro _ w5 ⟨h5, hbad⟩
      refine ⟨hsame4.trans h5, fun hc hopen => ?_⟩
      obtain ⟨pieces, hpieces, hno⟩ := hbad (h4.calm (h3.calm (h2.calm (h1.calm hc))))
      rw [h4.disk_eq, h3.disk_eq, h2.disk_eq, h1.disk_eq] at hpieces
      obtain ⟨vs, hvs⟩ := hopen.manifest pieces hpieces
      exact hno vs hvs
    rintro vs w5 ⟨h5, hvs⟩
    refine Triple.pure ⟨hsame4.trans h5, recovered, tables, vs, w3.arcs, w4.arcs, ?_, hrec, ?_, ?_, ?_, ?_, rfl, ?_⟩
    · rw [hlatest, hwrites]
      rfl
    · rw [hsorted] at hloads
      exact hloads.congr hssts.1.symm hssts.2.symm
    · exact (h1.arcs_le.trans h2.arcs_le).trans h3.arcs_le
    · obtain ⟨_, _, _, _, _, ha, -, rfl⟩ := h5
      exact ha
    · intro hc n hn hcomplete
      have hcomplete3 : w3.disk.Complete n := by
        unfold Disk.Complete
        rw [hssts.1, hssts.2]
        exact hcomplete
      obtain ⟨r, hr, f, hread⟩ := hall (h3.calm (h2.calm (h1.calm hc))) n (by rwa [hsorted]) hcomplete3
      exact ⟨r, hr, f, by rw [← hssts.1]; exact hread.lookup, by rw [← hssts.2]; exact hread.content,
        hread.reader⟩
    · rw [h4.disk_eq, h3.disk_eq, h2.disk_eq, h1.disk_eq] at hvs
      exact hvs

end AiDb
