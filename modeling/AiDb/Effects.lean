import AiDb.Session
import AiDb.Table.Contents
import AiDb.Library.Hoare

/-!
# What the programs do

One lemma for each program over the directory says where it can leave the
directory, however it ends. With no fault scripted a program stops only for a
reason of its own.
-/

namespace AiDb

open Library Compaction

/-- `w'` is `w` with the directory `d`; only the script of faults and the count
of readers have moved on. -/
def World.At (w : World) (d : Disk) (w' : World) : Prop :=
  ∃ faults arcs, w.arcs ≤ arcs ∧ (w.faults = [] → faults = []) ∧
    w' = { w with disk := d, faults := faults, arcs := arcs }

variable {w w' : World} {d : Disk}

theorem World.At.refl (w : World) : w.At w.disk w := ⟨w.faults, w.arcs, le_refl _, id, rfl⟩

theorem World.At.trans (h : w.At d w') (h' : w'.At d' w'') : w.At d' w'' := by
  obtain ⟨_, _, ha, hf, rfl⟩ := h
  obtain ⟨faults, arcs, ha', hf', rfl⟩ := h'
  exact ⟨faults, arcs, ha.trans ha', fun hc => hf' (hf hc), rfl⟩

theorem World.At.disk_eq (h : w.At d w') : w'.disk = d := by
  obtain ⟨_, _, -, -, rfl⟩ := h
  rfl

theorem World.At.calm (h : w.At d w') (hc : w.faults = []) : w'.faults = [] := by
  obtain ⟨_, _, -, hf, rfl⟩ := h
  exact hf hc

theorem World.At.unreadable_eq (h : w.At d w') : w'.unreadable = w.unreadable := by
  obtain ⟨_, _, -, -, rfl⟩ := h
  rfl

theorem World.At.compressedLen_eq (h : w.At d w') : w'.compressedLen = w.compressedLen := by
  obtain ⟨_, _, -, -, rfl⟩ := h
  rfl

theorem World.At.arcs_le (h : w.At d w') : w.arcs ≤ w'.arcs := by
  obtain ⟨_, _, ha, -, rfl⟩ := h
  exact ha

theorem World.At.writes_eq (h : w.At d w') : w'.writes = w.writes := by
  obtain ⟨_, _, -, -, rfl⟩ := h
  rfl

-- ---------------------------------------------------------------------------
-- File operations
-- ---------------------------------------------------------------------------

theorem nextFault_spec (h : w.At d w') :
    Triple nextFault w' (fun f w'' => w.At d w'' ∧ (w.faults = [] → f = .none)) (fun _ _ => False) := by
  obtain ⟨faults, arcs, ha, hf, rfl⟩ := h
  cases faults with
  | nil => exact ⟨⟨[], arcs, ha, fun _ => rfl, rfl⟩, fun _ => rfl⟩
  | cons f fs => exact ⟨⟨fs, arcs, ha, fun hc => (nomatch hf hc), rfl⟩, fun hc => (nomatch hf hc)⟩

theorem atomicOp_spec (f : Disk → Disk) (h : w.At d w') :
    Triple (atomicOp f) w' (fun _ => w.At (f d)) (fun _ w'' => w.faults ≠ [] ∧ w.At d w'') := by
  refine ((nextFault_spec h).mono (fun _ _ => id) (fun _ _ => False.elim)).bind ?_
  rintro fault w'' ⟨hat, hcalm⟩
  cases fault with
  | none =>
    obtain ⟨faults, arcs, ha, hf, rfl⟩ := hat
    exact Triple.modify ⟨faults, arcs, ha, hf, rfl⟩
  | fail n => exact ⟨fun hc => (nomatch hcalm hc), hat⟩
  | crash n => exact ⟨fun hc => (nomatch hcalm hc), hat⟩

theorem passiveOp_spec (h : w.At d w') :
    Triple passiveOp w' (fun _ => w.At d) (fun _ w'' => w.faults ≠ [] ∧ w.At d w'') :=
  atomicOp_spec id h

def Disk.removeSst (n : Nat) (d : Disk) : Disk := { d with ssts := d.ssts.erase n }

theorem Disk.removeSst_of_notMem (h : n ∉ d.ssts) : d.removeSst n = d := by
  have herase : d.ssts.erase n = d.ssts := AList.ext (List.kerase_of_notMem_keys h)
  simp [Disk.removeSst, herase]

theorem removeSstIfExists_spec (n : Nat) (h : w.At d w') :
    Triple (removeSstIfExists n) w' (fun _ => w.At (d.removeSst n))
      (fun _ w'' => w.faults ≠ [] ∧ w.At d w'') := by
  unfold removeSstIfExists
  refine Triple.get_bind ?_
  split
  · exact atomicOp_spec _ h
  · rename_i hn
    rw [h.disk_eq] at hn
    exact Triple.pure (by rwa [Disk.removeSst_of_notMem hn])

-- ---------------------------------------------------------------------------
-- Writing a table
-- ---------------------------------------------------------------------------

theorem liftExcept_ok (a : α) : liftExcept (.ok a) = (pure a : W α) := rfl

theorem liftExcept_error (e : Error) : liftExcept (.error e) = (throw (.error e) : W α) := rfl

theorem addEntry_spec {b : SSTableBuilder} (hb : b.Holds es) (h : w.At d w') :
    Triple (addEntry b e) w' (fun b' w'' => b'.Holds (es ++ [e]) ∧ w.At d w'')
      (fun _ w'' => (w.faults = [] → e.key = [] ∨ ∃ x ∈ es, ¬x.key < e.key) ∧ w.At d w'') := by
  unfold addEntry
  refine Triple.get_bind ?_
  cases hadd : b.add w'.compressedLen e with
  | error err =>
    rw [liftExcept_error]
    refine Triple.throw_bind ⟨fun _ => ?_, h⟩
    by_contra hcon
    push Not at hcon
    obtain ⟨b', hb'⟩ := hb.add_ok w'.compressedLen hcon.1 hcon.2
    rw [hadd] at hb'
    cases hb'
  | ok b' =>
    have hholds := hb.add hadd
    rw [liftExcept_ok, pure_bind]
    split
    · refine ((passiveOp_spec h).mono (fun _ _ => id) ?_).bind fun _ w'' hw'' => Triple.pure ⟨hholds, hw''⟩
      exact fun _ _ hf => ⟨fun hc => absurd hc hf.1, hf.2⟩
    · exact Triple.pure ⟨hholds, h⟩

theorem addEntries_spec {b : SSTableBuilder} (hb : b.Holds es) (h : w.At d w') :
    Triple (addEntries b es') w' (fun b' w'' => b'.Holds (es ++ es') ∧ w.At d w'')
      (fun _ w'' => (w.faults = [] → ¬Ascending (es ++ es')) ∧ w.At d w'') := by
  induction es' generalizing b es w' with
  | nil => exact Triple.pure ⟨by simpa using hb, h⟩
  | cons e es' ih =>
    unfold addEntries
    refine ((addEntry_spec hb h).mono (fun _ _ => id) ?_).bind ?_
    · rintro _ w'' ⟨hbad, hw''⟩
      refine ⟨fun hc hasc => ?_, hw''⟩
      rcases hbad hc with hnil | ⟨x, hx, hlt⟩
      · exact hasc.key_ne e (by simp) hnil
      · exact hlt ((List.pairwise_append.mp hasc.sorted).2.2 x hx e List.mem_cons_self)
    · rintro b' w'' ⟨hb', hw''⟩
      have := ih hb' hw''
      rwa [List.append_assoc] at this

def Disk.withSst (d : Disk) (n : Nat) (f : SstFile) : Disk := (d.createSst n).finishSst n f

/-- How far writing the table `n` with these entries got. -/
inductive Disk.Written (n : Nat) (es : List Entry) (d : Disk) : Disk → Prop
  | untouched : Written n es d d
  | created : Written n es d (d.createSst n)
  | abandoned : es = [] → Written n es d ((d.createSst n).removeSst n)
  | finished : es ≠ [] → f.WellFormed → f.entries = es → Written n es d (d.withSst n f)

theorem Disk.finishSst_content (hl : (d.finishSst n f).ssts.lookup n = some file)
    (hc : (d.finishSst n f).files[file]? = some (.complete g)) : g = f := by
  unfold Disk.finishSst at hl hc
  cases h : d.ssts.lookup n with
  | none => simp [h] at hl
  | some file' =>
    simp only [h, Option.some.injEq] at hl hc
    subst hl
    rw [List.getElem?_set_self'] at hc
    cases hfile : d.files[file']? with
    | none => simp [hfile] at hc
    | some c =>
      simp only [hfile, Option.map_eq_map, Option.map_some, Function.const_apply] at hc
      simpa using hc.symm

theorem createSst_spec (n : Nat) (h : w.At d w') :
    Triple (createSst n) w' (fun _ => w.At (d.createSst n)) (fun _ w'' => w.faults ≠ [] ∧ w.At d w'') :=
  atomicOp_spec _ h

theorem writeTable_spec (n blockSize : Nat) (c : CompressionType) (h : w.At (d.createSst n) w') :
    Triple (writeTable n blockSize c es) w'
      (fun _ w'' => (es = [] ∧ w.At ((d.createSst n).removeSst n) w'') ∨
        es ≠ [] ∧ ∃ f, f.WellFormed ∧ f.entries = es ∧ w.At (d.withSst n f) w'')
      (fun _ w'' => (w.faults = [] → ¬Ascending es) ∧ w.At (d.createSst n) w'') := by
  unfold writeTable
  refine (addEntries_spec (SSTableBuilder.holds_new blockSize c) h).bind ?_
  rintro b w'' ⟨hb, hw''⟩
  rw [List.nil_append] at hb
  split
  · rename_i hes
    refine (removeSstIfExists_spec n hw'').mono (fun _ _ hat => .inl ⟨hes, hat⟩) ?_
    exact fun _ _ hf => ⟨fun hc => absurd hc hf.1, hf.2⟩
  · rename_i hes
    refine Triple.get_bind ?_
    obtain ⟨hwf, hentries⟩ := hb.finish_wellFormed w''.compressedLen
    refine (atomicOp_spec _ hw'').mono (fun _ _ hat => .inr ⟨hes, _, hwf, hentries, hat⟩) ?_
    exact fun _ _ hf => ⟨fun hc => absurd hc hf.1, hf.2⟩

theorem openWithCache_spec (n : Nat) (h : w.At d w') :
    Triple (openWithCache n) w'
      (fun r w'' => w.At d w'' ∧ ∃ file f, d.ssts.lookup n = some file ∧
        d.files[file]? = some (.complete f) ∧ r = .ofFile r.arc n file f ∧
        w.arcs ≤ r.arc ∧ r.arc < w''.arcs)
      (fun e w'' => (w.faults = [] → (∃ err, e = .error err) ∧ ∀ file f, d.ssts.lookup n = some file →
        d.files[file]? ≠ some (.complete f)) ∧ w.At d w'') := by
  unfold openWithCache
  refine ((passiveOp_spec h).mono (fun _ _ => id) ?_).bind ?_
  · exact fun _ _ hf => ⟨fun hc => absurd hc hf.1, hf.2⟩
  rintro _ w1 h1
  refine Triple.get_bind ?_
  rw [h1.disk_eq]
  cases hl : d.ssts.lookup n with
  | none => exact Triple.throw ⟨fun _ => ⟨⟨_, rfl⟩, nofun⟩, h1⟩
  | some file =>
    dsimp only
    split
    · rename_i f hf
      obtain ⟨faults, arcs, ha, hcalm, rfl⟩ := h1
      refine Triple.modify_bind (Triple.pure ⟨⟨faults, arcs + 1, by omega, hcalm, rfl⟩, file, f, rfl, hf, ?_⟩)
      exact ⟨rfl, ha, Nat.lt_succ_self arcs⟩
    · rename_i hf
      refine Triple.throw ⟨fun _ => ⟨⟨_, rfl⟩, ?_⟩, h1⟩
      rintro _ f ⟨⟩ hfile
      exact hf f hfile

-- ---------------------------------------------------------------------------
-- A compaction job
-- ---------------------------------------------------------------------------

/-- What the merge of a job hands out: the first blocks are read from `before`,
the others from `after`. -/
def jobMerge (before after : World) (inputs : List SSTableReader) : Except Error (List Entry) :=
  (MergeIterator.new (inputRead before inputs) inputs).map fun iter =>
    iter.collect (inputRead after inputs) (mergeFuel (inputRead before inputs) inputs)

theorem World.At.inputRead_eq (h : w.At d w') (inputs : List SSTableReader) :
    inputRead w' inputs = inputRead { w with disk := d } inputs := by
  obtain ⟨_, _, -, -, rfl⟩ := h
  rfl

theorem runJob_spec (inputs : List SSTableReader) (lvl blockSize n : Nat) (h : w.At d w') :
    Triple (runJob inputs lvl blockSize n) w'
      (fun res w'' => ∃ merged,
        jobMerge { w with disk := d } { w with disk := d.createSst n } inputs = .ok merged ∧
        (survivors lvl none merged = [] ∧ res.fileNumber = 0 ∧ w.At ((d.createSst n).removeSst n) w'' ∨
          survivors lvl none merged ≠ [] ∧ res.fileNumber = n ∧ ∃ f, f.WellFormed ∧
            f.entries = survivors lvl none merged ∧ w.At (d.withSst n f) w''))
      (fun _ w'' =>
        (w.At d w'' ∧ (w.faults = [] →
          ∃ e, jobMerge { w with disk := d } { w with disk := d.createSst n } inputs = .error e)) ∨
        (w.At (d.createSst n) w'' ∧ ∃ merged,
          jobMerge { w with disk := d } { w with disk := d.createSst n } inputs = .ok merged ∧
          (w.faults = [] → ¬Ascending (survivors lvl none merged)))) := by
  unfold runJob
  refine Triple.get_bind ?_
  rw [h.inputRead_eq]
  unfold jobMerge
  cases hnew : MergeIterator.new (inputRead { w with disk := d } inputs) inputs with
  | error e =>
    rw [liftExcept_error]
    exact Triple.throw_bind (.inl ⟨h, fun _ => ⟨e, rfl⟩⟩)
  | ok iter =>
    rw [liftExcept_ok, pure_bind]
    refine ((createSst_spec n h).mono (fun _ _ => id) ?_).bind ?_
    · exact fun _ _ hf => .inl ⟨hf.2, fun hc => absurd hc hf.1⟩
    rintro _ w1 h1
    refine Triple.get_bind ?_
    dsimp only
    rw [h1.inputRead_eq]
    refine ((writeTable_spec n blockSize .none h1).mono (fun _ _ => id) ?_).bind ?_
    · exact fun _ _ hf => .inr ⟨hf.2, _, rfl, hf.1⟩
    rintro _ w2 (⟨hes, h2⟩ | ⟨hes, f, hwf, hentries, h2⟩)
    · exact Triple.pure ⟨_, rfl, .inl ⟨hes, if_pos hes, h2⟩⟩
    · exact Triple.pure ⟨_, rfl, .inr ⟨hes, if_neg hes, f, hwf, hentries, h2⟩⟩

-- ---------------------------------------------------------------------------
-- Programs over the handle
-- ---------------------------------------------------------------------------

theorem onWorld_spec {m : W α} {s : Sys} (h : Triple m s.world Q E) :
    Triple (onWorld m) s (fun a s' => s'.db = s.db ∧ Q a s'.world)
      (fun e s' => s'.db = s.db ∧ E e s'.world) := by
  unfold Triple at h ⊢
  unfold onWorld
  cases hr : m s.world with
  | ok a w' => rw [hr] at h; exact ⟨rfl, h⟩
  | error e w' => rw [hr] at h; exact ⟨rfl, h⟩

theorem onWorld_get_bind {k : World → W α} {s : Sys} (h : Triple (onWorld (k s.world)) s Q E) :
    Triple (onWorld (get >>= k)) s Q E := h

theorem onWorld_pure (a : α) : onWorld (pure a) = (pure a : M α) := rfl

def Sys.handOut (s : Sys) : Sys where
  db := { s.db with nextFileNumber := s.db.nextFileNumber + 1 }
  world := { s.world with
    handed := (s.db.nextFileNumber, decide (s.db.nextFileNumber ∈ s.world.disk.ssts)) :: s.world.handed }

theorem takeFileNumber_bind {f : Nat → M α} {s : Sys} (h : Triple (f s.db.nextFileNumber) s.handOut Q E) :
    Triple (takeFileNumber >>= f) s Q E := h

@[simp] theorem Sys.handOut_disk (s : Sys) : s.handOut.world.disk = s.world.disk := rfl

def MemTable.table (m : MemTable) : List Entry := latestVersions none m.iter

def DB.installFront (db : DB) (r : SSTableReader) : DB :=
  { db with sstables := db.sstables.modify 0 (r :: ·) }

/-- A reader was opened on table `n`, in a directory reached from `w`. -/
structure Disk.Opens (d : Disk) (w w' : World) (n : Nat) (f : SstFile) (r : SSTableReader) : Prop where
  lookup : d.ssts.lookup n = some r.file
  content : d.files[r.file]? = some (.complete f)
  reader : r = .ofFile r.arc n r.file f
  arc_ge : w.arcs ≤ r.arc
  arc_lt : r.arc < w'.arcs

/-- How flushing one memtable can end: with its table in level 0, with nothing
to write, or stopped on the way. -/
theorem flushMemtableToSstable_spec (m : MemTable) (s : Sys) :
    Triple (flushMemtableToSstable m) s
      (fun _ s' => (m.table = [] ∧ s'.db = s.handOut.db ∧
          s.handOut.world.At ((s.world.disk.createSst s.db.nextFileNumber).removeSst s.db.nextFileNumber)
            s'.world) ∨
        m.table ≠ [] ∧ ∃ f r, f.WellFormed ∧ f.entries = m.table ∧
          s'.db = s.handOut.db.installFront r ∧
          s.handOut.world.At (s.world.disk.withSst s.db.nextFileNumber f) s'.world ∧
          (s.world.disk.withSst s.db.nextFileNumber f).Opens s.world s'.world s.db.nextFileNumber f r)
      (fun _ s' => s'.db = s.handOut.db ∧ ∃ d, s.world.disk.Written s.db.nextFileNumber m.table d ∧
        s.handOut.world.At d s'.world) := by
  unfold flushMemtableToSstable
  refine takeFileNumber_bind ?_
  refine Triple.get_bind ?_
  have hat : s.handOut.world.At s.world.disk s.handOut.world := World.At.refl _
  refine ((onWorld_spec (createSst_spec s.db.nextFileNumber hat)).mono (fun _ _ => id) ?_).bind ?_
  · exact fun _ _ hf => ⟨hf.1, _, .untouched, hf.2.2⟩
  rintro _ s1 ⟨hdb1, hat1⟩
  refine ((onWorld_spec (writeTable_spec _ _ _ hat1)).mono (fun _ _ => id) ?_).bind ?_
  · exact fun _ _ hf => ⟨hf.1.trans hdb1, _, .created, hf.2.2⟩
  rintro _ s2 ⟨hdb2, hat2⟩
  rcases hat2 with ⟨hes, hat2⟩ | ⟨hes, f, hwf, hentries, hat2⟩
  · rw [if_pos hes]
    exact Triple.pure (.inl ⟨hes, hdb2.trans hdb1, hat2⟩)
  · rw [if_neg hes]
    refine ((onWorld_spec (openWithCache_spec _ hat2)).mono (fun _ _ => id) ?_).bind ?_
    · exact fun _ _ hf => ⟨hf.1.trans (hdb2.trans hdb1), _, .finished hes hwf hentries, hf.2.2⟩
    rintro r s3 ⟨hdb3, hat3, file, g, hlookup, hcontent, hr, hge, hlt⟩
    obtain rfl := Disk.finishSst_content hlookup hcontent
    have hfile : r.file = file := by rw [hr]; rfl
    subst hfile
    refine Triple.modify_bind (Triple.pure (.inr ⟨hes, g, r, hwf, hentries, ?_, hat3, ?_⟩))
    · simp only [DB.installFront, hdb3, hdb2, hdb1]
    · exact ⟨hlookup, hcontent, hr, hge, hlt⟩

def Disk.removeSsts (d : Disk) (rs : List SSTableReader) : Disk :=
  rs.foldl (fun d r => d.removeSst r.fileNumber) d

theorem Disk.removeSsts_files (d : Disk) (rs : List SSTableReader) : (d.removeSsts rs).files = d.files := by
  induction rs generalizing d with
  | nil => rfl
  | cons r rs ih => exact ih (d.removeSst r.fileNumber)

theorem removeInputs_spec (rs : List SSTableReader) (h : w.At d w') :
    Triple (removeInputs rs) w' (fun _ => w.At (d.removeSsts rs))
      (fun _ w'' => ∃ rs', rs' <+: rs ∧ w.At (d.removeSsts rs') w'') := by
  induction rs generalizing d w' with
  | nil => exact Triple.pure h
  | cons r rs ih =>
    unfold removeInputs
    refine ((removeSstIfExists_spec r.fileNumber h).mono (fun _ _ => id) ?_).bind ?_
    · exact fun _ _ hf => ⟨[], List.nil_prefix, hf.2⟩
    · intro _ w1 h1
      refine (ih h1).mono (fun _ _ => id) ?_
      rintro _ _ ⟨rs', hpre, h2⟩
      exact ⟨r :: rs', List.cons_prefix_cons.mpr ⟨rfl, hpre⟩, h2⟩

/-- `s'` has the handle `db` up to its version set, and the directory `d` up to
the manifest. -/
def Sys.AtTables (db : DB) (w : World) (d : Disk) (s' : Sys) : Prop :=
  (∃ versionSet, s'.db = { db with versionSet := versionSet }) ∧
    ∃ manifest, w.At { d with manifest := manifest } s'.world

theorem Sys.AtTables.intro {db : DB} {s' : Sys} (hdb : s'.db = db) (h : w.At d s'.world) :
    Sys.AtTables db w d s' := ⟨⟨db.versionSet, hdb⟩, d.manifest, h⟩

theorem Sys.AtTables.trans {db : DB} {s' : Sys} (h : w.At d w') (h' : s'.AtTables db w' d') :
    s'.AtTables db w d' := ⟨h'.1, h'.2.imp fun _ hat => h.trans hat⟩

theorem Disk.removeSsts_manifest : ({ d with manifest := m } : Disk).removeSsts rs =
    { d.removeSsts rs with manifest := m } := by
  induction rs generalizing d with
  | nil => rfl
  | cons r rs ih => exact @ih (d.removeSst r.fileNumber)

theorem writeManifest_at (p : ManifestPiece) {w w' : World} {d : Disk} (h : w.At d w') :
    Triple (writeManifest p) w' (fun _ => w.At (d.addPieces [p]))
      (fun _ w'' => w.faults ≠ [] ∧ ∃ n, w.At (d.addPieces (p.cut n)) w'') := by
  refine ((nextFault_spec h).mono (fun _ _ => id) (fun _ _ => False.elim)).bind ?_
  rintro fault w'' ⟨⟨faults, arcs, ha, hf, rfl⟩, hcalm⟩
  cases fault with
  | none => exact Triple.modify ⟨faults, arcs, ha, hf, rfl⟩
  | fail n => exact ⟨fun hc => (nomatch hcalm hc), n, faults, arcs, ha, hf, rfl⟩
  | crash n => exact ⟨fun hc => (nomatch hcalm hc), n, faults, arcs, ha, hf, rfl⟩

theorem writeManifest_spec (p : ManifestPiece) {db : DB} {s : Sys} (h : s.AtTables db w d) :
    Triple (onWorld (writeManifest p)) s (fun _ s' => s'.AtTables db w d) (fun _ s' => s'.AtTables db w d) := by
  obtain ⟨⟨vs, hdb⟩, manifest, hat⟩ := h
  refine (onWorld_spec (writeManifest_at p hat)).mono ?_ ?_
  · exact fun _ _ h' => ⟨⟨vs, h'.1.trans hdb⟩, _, h'.2⟩
  · rintro _ _ ⟨hdb', -, n, hat'⟩
    exact ⟨⟨vs, hdb'.trans hdb⟩, _, hat'⟩

theorem logEdit_spec (e : VersionEdit) {db : DB} {s : Sys} (h : s.AtTables db w d) :
    Triple (logEdit e) s (fun _ s' => s'.AtTables db w d) (fun _ s' => s'.AtTables db w d) := by
  unfold logEdit
  refine Triple.get_bind ?_
  cases s.db.versionSet.applyEdit e with
  | none => exact Triple.throw h
  | some vs =>
    have h' : Sys.AtTables db w d { s with db := { s.db with versionSet := vs } } := by
      obtain ⟨⟨vs', hdb⟩, hat⟩ := h
      exact ⟨⟨vs, by simp [hdb]⟩, hat⟩
    refine Triple.modify_bind ?_
    exact (writeManifest_spec _ h').bind fun _ s1 h1 => writeManifest_spec _ h1

theorem logDeletes_spec (level : Nat) (rs : List SSTableReader) {db : DB} {s : Sys}
    (h : s.AtTables db w d) :
    Triple (logDeletes level rs) s (fun _ s' => s'.AtTables db w d) (fun _ s' => s'.AtTables db w d) := by
  induction rs generalizing s with
  | nil => exact Triple.pure h
  | cons r rs ih => exact (logEdit_spec _ h).bind fun _ s1 h1 => ih h1

-- ---------------------------------------------------------------------------
-- Compaction
-- ---------------------------------------------------------------------------

def Sys.jobEntries (s : Sys) (task : CompactionTask) : Except Error (List Entry) :=
  (jobMerge s.world { s.world with disk := s.world.disk.createSst s.db.nextFileNumber } task.inputs).map
    (survivors task.outputLevel none)

/-- The output table was put into its level, and the tables `removed` taken off
the directory. -/
def Sys.Compacted (s : Sys) (task : CompactionTask) (removed : List SSTableReader) (s' : Sys) : Prop :=
  ∃ es f r, s.jobEntries task = .ok es ∧ es ≠ [] ∧ f.WellFormed ∧ f.entries = es ∧
    (s.world.disk.withSst s.db.nextFileNumber f).Opens s.world s'.world s.db.nextFileNumber f r ∧
    task.level < s.db.sstables.length ∧ task.outputLevel < s.db.sstables.length ∧
    s'.AtTables { s.handOut.db with sstables := updateLevels task r s.db.sstables } s.handOut.world
      ((s.world.disk.withSst s.db.nextFileNumber f).removeSsts removed)

def Sys.CompactionStopped (s : Sys) (task : CompactionTask) (s' : Sys) : Prop :=
  ∃ es d, (s.jobEntries task = .ok es ∧ s.world.disk.Written s.db.nextFileNumber es d ∨ d = s.world.disk) ∧
    s'.AtTables s.handOut.db s.handOut.world d

theorem compact_spec (task : CompactionTask) (s : Sys) (hn : s.db.nextFileNumber ≠ 0) :
    Triple (compact task) s
      (fun _ s' => (s.jobEntries task = .ok [] ∧ s'.db = s.handOut.db ∧
          s.handOut.world.At ((s.world.disk.createSst s.db.nextFileNumber).removeSst s.db.nextFileNumber)
            s'.world) ∨
        s.Compacted task task.inputs s')
      (fun _ s' => s.CompactionStopped task s' ∨ ∃ removed, removed <+: task.inputs ∧ s.Compacted task removed s') := by
  unfold compact
  refine takeFileNumber_bind ?_
  refine Triple.get_bind ?_
  have hat : s.handOut.world.At s.world.disk s.handOut.world := World.At.refl _
  refine ((onWorld_spec (runJob_spec _ _ _ _ hat)).mono (fun _ _ => id) ?_).bind ?_
  · rintro _ s' ⟨hdb, ⟨h, -⟩ | ⟨h, merged, hm, -⟩⟩
    · exact .inl ⟨[], _, .inr rfl, .intro hdb h⟩
    · exact .inl ⟨_, _, .inl ⟨by unfold Sys.jobEntries; exact congrArg _ hm, .created⟩, .intro hdb h⟩
  rintro res s1 ⟨hdb1, merged, hmerge, hres⟩
  have hjob : s.jobEntries task = .ok (survivors task.outputLevel none merged) := by
    unfold Sys.jobEntries
    exact congrArg _ hmerge
  rcases hres with ⟨hes, hzero, h1⟩ | ⟨hes, hres, f, hwf, hentries, h1⟩
  · rw [if_pos hzero]
    exact Triple.pure (.inl ⟨by rw [hjob, hes], hdb1, h1⟩)
  rw [if_neg (by rw [hres]; exact hn)]
  have hwritten : s.world.disk.Written s.db.nextFileNumber (survivors task.outputLevel none merged)
    (s.world.disk.withSst s.db.nextFileNumber f) := .finished hes hwf hentries
  refine ((onWorld_spec (openWithCache_spec _ h1)).mono (fun _ _ => id) ?_).bind ?_
  · rintro _ s' ⟨hdb, -, h⟩
    exact .inl ⟨_, _, .inl ⟨hjob, hwritten⟩, .intro (hdb.trans hdb1) h⟩
  rintro r s2 ⟨hdb2, h2, file, g, hlookup, hcontent, hr, hge, hlt⟩
  obtain rfl := Disk.finishSst_content hlookup hcontent
  have hfile : r.file = file := by rw [hr]; rfl
  subst hfile
  have hat2 : s2.AtTables s.handOut.db s2.world (s.world.disk.withSst s.db.nextFileNumber g) := by
    refine .intro (hdb2.trans hdb1) ?_
    have := World.At.refl s2.world
    rwa [h2.disk_eq] at this
  -- whatever stops the edits, the table is written and the levels are as they were
  have hstop : ∀ s', s'.AtTables s.handOut.db s2.world (s.world.disk.withSst s.db.nextFileNumber g) →
      s.CompactionStopped task s' := fun s' h => ⟨_, _, .inl ⟨hjob, hwritten⟩, h.trans h2⟩
  refine Triple.get_bind ?_
  cases hsmall : r.smallestKey (s2.world.readBlock r.file) with
  | error e =>
    rw [liftExcept_error]
    exact Triple.throw_bind (.inl (hstop s2 hat2))
  | ok smallest =>
    rw [liftExcept_ok, onWorld_pure, pure_bind]
    split
    · rename_i hlarge
      refine ((logEdit_spec _ hat2).mono (fun _ _ => id) fun _ s' h => .inl (hstop s' h)).bind ?_
      intro _ s3 h3
      refine ((logDeletes_spec _ _ h3).mono (fun _ _ => id) fun _ s' h => .inl (hstop s' h)).bind ?_
      intro _ s4 h4
      refine Triple.get_bind (Triple.get_bind ?_)
      obtain ⟨⟨vs, hdb4⟩, manifest, hat4⟩ := h4
      have hlevels : s4.db.sstables = s.db.sstables := by rw [hdb4]; rfl
      split
      · rename_i hlen
        rw [hlevels] at hlen
        refine Triple.modify_bind ?_
        have hdone : ∀ removed s', (s'.db = { s4.db with sstables := updateLevels task r s4.db.sstables } ∧
            World.At s2.world (Disk.removeSsts { s.world.disk.withSst s.db.nextFileNumber g with
              manifest := manifest } removed) s'.world) → s.Compacted task removed s' := by
          rintro removed s' ⟨hdb, hat⟩
          rw [Disk.removeSsts_manifest] at hat
          refine ⟨_, g, r, hjob, hes, hwf, hentries,
            ⟨hlookup, hcontent, hr, hge, lt_of_lt_of_le hlt hat.arcs_le⟩, hlen.1, hlen.2, ⟨vs, ?_⟩,
            manifest, h2.trans hat⟩
          rw [hdb, hlevels, hdb4]
        have hrun := onWorld_spec
          (s := { s4 with db := { s4.db with sstables := updateLevels task r s4.db.sstables } })
          (removeInputs_spec task.inputs hat4)
        refine hrun.mono (fun _ s' h => .inr (hdone _ s' h)) ?_
        rintro _ s' ⟨hdb, removed, hpre, hat⟩
        exact .inr ⟨removed, hpre, hdone _ s' ⟨hdb, hat⟩⟩
      · exact Triple.throw (.inl (hstop s4 ⟨⟨vs, hdb4⟩, manifest, hat4⟩))
    · exact Triple.throw (.inl (hstop _ hat2))

end AiDb
