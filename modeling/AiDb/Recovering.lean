import AiDb.Iterator
import AiDb.LoadOrder
import AiDb.Replay

/-!
# Recovery that is interrupted

An open that stops on the way, or whose process is lost after it, has created the
directory, an empty log or an empty manifest at most. So the next open finds what the
first one would have found.
-/

namespace AiDb

open Library Compaction

variable {w w' w'' : World}

-- ---------------------------------------------------------------------------
-- What attempts to open leave behind
-- ---------------------------------------------------------------------------

theorem World.LogsKept.trans (h : w.LogsKept w') (h' : w'.LogsKept w'') : w.LogsKept w'' where
  logs := by
    have hlatest := h.latestWal_eq
    rcases h.logs with hl | ⟨hn, hl⟩
    · rcases h'.logs with hl' | ⟨hn', hl'⟩
      · exact .inl (hl'.trans hl)
      · rw [hlatest, hl] at hn' hl'
        exact .inr ⟨hn', hl'⟩
    · have hmem : latestWal w'.disk ∈ w'.disk.logs := by
        rw [hlatest, hl, AList.mem_insert]
        exact .inl rfl
      exact .inr ⟨hn, (h'.logs.resolve_right fun hno => hno.1 hmem).trans hl⟩
  manifest := by
    rcases h.manifest with hm | ⟨hn, hm⟩
    · rcases h'.manifest with hm' | ⟨hn', hm'⟩
      · exact .inl (hm'.trans hm)
      · exact .inr ⟨hm ▸ hn', hm'⟩
    · refine .inr ⟨hn, ?_⟩
      rcases h'.manifest with hm' | ⟨hn', -⟩
      · exact hm'.trans hm
      · rw [hm] at hn'
        cases hn'
  dir hd := h'.dir (h.dir hd)

theorem World.LogsKept.replayedLog (h : w.LogsKept w') : w'.disk.replayedLog = w.disk.replayedLog := by
  rw [Disk.replayedLog, Disk.replayedLog, h.latestWal_eq]
  rcases h.logs with hlogs | ⟨hnew, hlogs⟩
  · rw [hlogs]
  · rw [hlogs, AList.lookup_insert, AList.lookup_eq_none.mpr hnew]
    rfl

/-- What an open reads is the same; only the scripts and the count of readers have
moved on. -/
structure World.Unopened (w w' : World) : Prop where
  logs : w.LogsKept w'
  ssts : w'.disk.ssts = w.disk.ssts
  files : w'.disk.files = w.disk.files
  compressedLen : w'.compressedLen = w.compressedLen
  writes : w'.writes = w.writes

theorem World.Unopened.refl (w : World) : w.Unopened w := ⟨.refl w, rfl, rfl, rfl, rfl⟩

theorem World.Unopened.trans (h : w.Unopened w') (h' : w'.Unopened w'') : w.Unopened w'' :=
  ⟨h.logs.trans h'.logs, h'.ssts.trans h.ssts, h'.files.trans h.files, h'.compressedLen.trans h.compressedLen,
    h'.writes.trans h.writes⟩

theorem World.Unopened.enter (h : w.Unopened w') (env : Env) : w.Unopened (w'.enter env) :=
  ⟨⟨h.logs.logs, h.logs.manifest, h.logs.dir⟩, h.ssts, h.files, h.compressedLen, h.writes⟩

theorem World.unopened_of (h : w.SameTables w') (hlogs : w.LogsKept w') : w.Unopened w' := by
  obtain ⟨dir, logs, manifest, faults, arcs, -, -, rfl⟩ := h
  exact ⟨hlogs, rfl, rfl, rfl, rfl⟩

theorem openDb_unopened (o : Options) (w : World) :
    Triple (openDb o) w (fun _ w' => w.Unopened w') (fun _ w' => w.Unopened w') := by
  refine ((openDb_spec o w).and (openDb_logsKept o w)).mono ?_ ?_
  · rintro db w' ⟨h, hlogs⟩
    exact World.unopened_of h.1 hlogs.1
  · rintro e w' ⟨h, hlogs⟩
    exact World.unopened_of h.1 hlogs

def Action.Attempts : Action → Prop
  | .openDb _ => True
  | .crash => True
  | _ => False

theorem unopened_invariant (w : World) :
    Invariant (fun s => w.Unopened s.world) w.Unopened (fun _ _ a => a.Attempts) where
  leave h := h
  enterOpen h := h.enter _
  enterClosed h := h.enter _
  opened h _ := (openDb_unopened _ _).mono (fun _ _ hu => (h.enter _).trans hu) fun _ _ hu => (h.enter _).trans hu
  called _ h := h.elim
  dropped _ h := h.elim

-- ---------------------------------------------------------------------------
-- The tables that are loaded
-- ---------------------------------------------------------------------------

/-- The reader but for its identity. -/
def SSTableReader.anonymous (r : SSTableReader) : SSTableReader := { r with arc := 0 }

@[simp] theorem SSTableReader.file_anonymous (r : SSTableReader) : r.anonymous.file = r.file := rfl
@[simp] theorem SSTableReader.get_anonymous (r : SSTableReader) : r.anonymous.get = r.get := rfl
@[simp] theorem SSTableReader.listKeys_anonymous (r : SSTableReader) : r.anonymous.listKeys = r.listKeys := rfl

def Disk.reader (d : Disk) (n : Nat) : Option SSTableReader :=
  (d.ssts.lookup n).bind fun file =>
    match d.files[file]? with
    | some (.complete f) => some (.ofFile 0 n file f)
    | _ => none

variable {d : Disk}

theorem Disk.Reads.reader_eq (h : d.Reads n r f) : d.reader n = some r.anonymous := by
  have hr : r.anonymous = .ofFile 0 n r.file f := by
    rw [h.reader]
    rfl
  simp [Disk.reader, h.lookup, h.content, hr]

theorem Disk.reader_eq_none (h : ¬d.Complete n) : d.reader n = none := by
  unfold Disk.reader
  cases hl : d.ssts.lookup n with
  | none => rfl
  | some file =>
    rw [Option.bind_some]
    split
    · rename_i f hf
      exact absurd ⟨file, f, hl, hf⟩ h
    · rfl

theorem Disk.Loads.readers (h : d.Loads ns lo hi rs) (hnodup : ns.Nodup)
    (hall : ∀ n ∈ ns, d.Complete n → n ∈ rs.map SSTableReader.fileNumber) :
    rs.map SSTableReader.anonymous = ns.filterMap d.reader := by
  induction h with
  | nil => rfl
  | skip hrest ih =>
    rename_i n
    rw [List.nodup_cons] at hnodup
    have hnone : d.reader n = none :=
      Disk.reader_eq_none fun hc => hnodup.1 (hrest.sublist.subset (hall n List.mem_cons_self hc))
    rw [List.filterMap_cons_none hnone]
    exact ih hnodup.2 fun m hm => hall m (List.mem_cons_of_mem _ hm)
  | load hread _ _ hrest ih =>
    rw [List.nodup_cons] at hnodup
    rw [List.map_cons, List.filterMap_cons_some hread.reader_eq, List.cons_inj_right]
    refine ih hnodup.2 fun m hm hc => ?_
    rcases List.mem_cons.mp (hall m (List.mem_cons_of_mem _ hm) hc) with h | h
    · -- the number of the first reader does not come again
      obtain rfl : m = _ := h.trans (congrArg SSTableReader.fileNumber hread.reader)
      exact absurd hm hnodup.1
    · exact h

-- ---------------------------------------------------------------------------
-- Reads through the loaded tables
-- ---------------------------------------------------------------------------

theorem firstAnswer_map (ask : β → Except Error (Option γ)) (f : α → β) (as : List α) :
    firstAnswer ask (as.map f) = firstAnswer (fun a => ask (f a)) as := by
  induction as with
  | nil => rfl
  | cons a as ih => simp only [List.map_cons, firstAnswer, ih]

theorem firstAnswer_anonymous (w : World) (key : Bytes) (rs : List SSTableReader) :
    firstAnswer (fun r => r.get (w.readBlock r.file) key) (rs.map SSTableReader.anonymous) =
      firstAnswer (fun r => r.get (w.readBlock r.file) key) rs := by
  simp [firstAnswer_map]

theorem collectTables_anonymous (w : World) (set : KeySet) (rs : List SSTableReader) :
    collectTables w set (rs.map SSTableReader.anonymous) = collectTables w set rs := by
  induction rs generalizing set with
  | nil => rfl
  | cons r rs ih => simp [collectTables, ih]

/-- Two handles that differ in the identities of their readers and in what is recorded
of the levels at most. -/
structure DB.Alike (db db' : DB) : Prop where
  options : db'.options = db.options
  memtable : db'.memtable = db.memtable
  immutables : db'.immutableMemtables = db.immutableMemtables
  wal : db'.wal = db.wal
  tables : db'.sstables.map (·.map SSTableReader.anonymous) = db.sstables.map (·.map SSTableReader.anonymous)
  sequence : db'.sequence = db.sequence
  nextFileNumber : db'.nextFileNumber = db.nextFileNumber
  walFileNumber : db'.walFileNumber = db.walFileNumber

variable {db db' : DB}

theorem DB.Alike.flatten (h : db.Alike db') :
    db'.sstables.flatten.map SSTableReader.anonymous = db.sstables.flatten.map SSTableReader.anonymous := by
  rw [List.map_flatten, List.map_flatten, h.tables]

theorem DB.Alike.reversed (h : db.Alike db') : (db'.sstables.flatMap List.reverse).map SSTableReader.anonymous =
    (db.sstables.flatMap List.reverse).map SSTableReader.anonymous := by
  have key (levels : Levels) : (levels.flatMap List.reverse).map SSTableReader.anonymous =
      (levels.map (·.map SSTableReader.anonymous)).flatMap List.reverse := by
    rw [List.map_flatMap, List.flatMap_map]
    simp [List.map_reverse]
  rw [key, key, h.tables]

theorem World.readBlock_congr (hf : w'.disk.files = w.disk.files) (hu : w'.unreadable = w.unreadable) :
    w'.readBlock = w.readBlock := by
  funext file handle
  simp [World.readBlock, hf, hu]

theorem DB.Alike.getAtSequence (h : db.Alike db') (hread : w'.readBlock = w.readBlock) :
    db'.getAtSequence w' = db.getAtSequence w := by
  funext key seq
  unfold DB.getAtSequence
  rw [h.memtable, h.immutables, hread, ← firstAnswer_anonymous, h.reversed, firstAnswer_anonymous]

theorem DB.Alike.collectKeys (h : db.Alike db') (hread : w'.readBlock = w.readBlock) :
    Sys.collectKeys ⟨db', w'⟩ = Sys.collectKeys ⟨db, w⟩ := by
  have htables (set : KeySet) (rs : List SSTableReader) : collectTables w' set rs = collectTables w set rs := by
    induction rs generalizing set with
    | nil => rfl
    | cons r rs ih => simp only [collectTables, ih, hread]
  funext start stop
  unfold Sys.collectKeys
  dsimp only
  rw [h.memtable, h.immutables, htables, ← collectTables_anonymous, h.flatten, collectTables_anonymous]

theorem DB.Alike.scan (h : db.Alike db') (hread : w'.readBlock = w.readBlock) :
    Sys.scan ⟨db', w'⟩ = Sys.scan ⟨db, w⟩ := by
  funext start stop
  unfold Sys.scan DBIterator.newRange Sys.getAtSequence
  rw [h.collectKeys hread, h.getAtSequence hread, h.sequence]

-- ---------------------------------------------------------------------------
-- The next open
-- ---------------------------------------------------------------------------

theorem World.Unopened.openable {o : Options} (h : w.Unopened w') (ho : w.disk.Openable o) (hexists : o.errorIfExists = false) :
    w'.disk.Openable o where
  valid := ho.valid
  dir := by
    split
    · exact hexists
    · rename_i hd
      have hdir := ho.dir
      rwa [if_neg fun h' => hd (h.logs.dir h')] at hdir
  log := by rw [h.logs.replayedLog]; exact ho.log
  manifest pieces hm := by
    rcases h.logs.manifest with hm' | ⟨-, hm'⟩
    · exact ho.manifest pieces (hm'.symm.trans hm)
    · rw [hm'] at hm
      cases hm
      exact ⟨_, rfl⟩

theorem Disk.reader_congr {d' : Disk} (hs : d'.ssts = d.ssts) (hf : d'.files = d.files) : d'.reader = d.reader := by
  funext n
  rw [Disk.reader, Disk.reader, hs, hf]

theorem openDb_readers (o : Options) (w : World) (hc : w.faults = []) :
    Triple (openDb o) w
      (fun db w' => w.SameTables w' ∧ ∃ recovered tables vs,
        db = openedDb o recovered w.disk.replayedLog w.writes (latestWal w.disk) tables vs ∧
        Wal.recoverAll Wal.calculateChecksum w.disk.replayedLog.bytes = .ok recovered ∧
        tables.map SSTableReader.anonymous = (sortedSsts w.disk).filterMap w.disk.reader)
      (fun _ _ => ¬w.disk.Openable o) := by
  refine (openDb_spec o w).mono ?_ fun _ _ h => h.2 hc
  rintro db w' ⟨hsame, recovered, tables, vs, lo, hi, rfl, hrec, hloads, -, -, hall, -⟩
  refine ⟨hsame, recovered, tables, vs, rfl, hrec, hloads.readers w.disk.nodup_sortedSsts fun n hn hcomplete => ?_⟩
  obtain ⟨r, hr, f, hread⟩ := hall hc n hn hcomplete
  exact List.mem_map.mpr ⟨r, hr, by rw [hread.reader]; rfl⟩

theorem World.SameTables.readBlock (h : w.SameTables w') : w'.readBlock = w.readBlock := by
  obtain ⟨dir, logs, manifest, faults, arcs, -, -, rfl⟩ := h
  rfl

theorem World.Unopened.opened {o : Options} (h : w.Unopened w') (ho : w.disk.Openable o) (hexists : o.errorIfExists = false) :
    ∃ db w1 db' w2, openDb o (w.enter .calm) = .ok db w1 ∧ openDb o (w'.enter .calm) = .ok db' w2 ∧
      db.Alike db' ∧ w2.readBlock = w1.readBlock := by
  have h1 := openDb_readers o (w.enter .calm) rfl
  have h2 := openDb_readers o (w'.enter .calm) rfl
  cases hr1 : openDb o (w.enter .calm) with
  | error e w1 => exact absurd ho (h1.error hr1)
  | ok db w1 =>
    cases hr2 : openDb o (w'.enter .calm) with
    | error e w2 => exact absurd (h.openable ho hexists) (h2.error hr2)
    | ok db' w2 =>
      obtain ⟨hsame1, recovered, tables, vs, rfl, hrec, htables⟩ := h1.ok hr1
      obtain ⟨hsame2, recovered', tables', vs', rfl, hrec', htables'⟩ := h2.ok hr2
      have hlog : (w'.enter .calm).disk.replayedLog = (w.enter .calm).disk.replayedLog := h.logs.replayedLog
      have hwal : latestWal (w'.enter .calm).disk = latestWal (w.enter .calm).disk := h.logs.latestWal_eq
      have hwrites : (w'.enter .calm).writes = (w.enter .calm).writes := h.writes
      have hsorted : sortedSsts (w'.enter .calm).disk = sortedSsts (w.enter .calm).disk := by
        change sortedSsts w'.disk = sortedSsts w.disk
        rw [sortedSsts, sortedSsts, h.ssts]
      have hreader : (w'.enter .calm).disk.reader = (w.enter .calm).disk.reader := Disk.reader_congr h.ssts h.files
      rw [hlog, hrec, Except.ok.injEq] at hrec'
      rw [hsorted, hreader, ← htables] at htables'
      rw [hlog, hwal, hwrites, ← hrec']
      refine ⟨_, w1, _, w2, rfl, rfl, ⟨rfl, rfl, rfl, rfl, ?_, rfl, rfl, rfl⟩, ?_⟩
      · simp [openedDb, htables']
      · rw [hsame1.readBlock, hsame2.readBlock]
        exact World.readBlock_congr h.files rfl

/-- Opens that fail, crash or are lost, in any number, are not noticed: the next open
that goes through finds what the first one would have found, at every sequence number
and in every range. -/
theorem openDb_after_attempts (w w' : World) (run : List (Env × Action)) (hrun : ∀ x ∈ run, x.2.Attempts)
    (hend : (State.mk none w).runs run = ⟨none, w'⟩) (o : Options) (ho : w.disk.Openable o)
    (hexists : o.errorIfExists = false) :
    ∃ db w1 db' w2, openDb o (w.enter .calm) = .ok db w1 ∧ openDb o (w'.enter .calm) = .ok db' w2 ∧
      db.Alike db' ∧ Sys.getAtSequence ⟨db', w2⟩ = Sys.getAtSequence ⟨db, w1⟩ ∧
      Sys.scan ⟨db', w2⟩ = Sys.scan ⟨db, w1⟩ := by
  have halong {s : State} : s.Along (fun _ _ a => a.Attempts) run := by
    clear hend
    induction run generalizing s with
    | nil => trivial
    | cons x run ih => exact ⟨hrun x List.mem_cons_self, ih fun y hy => hrun y (List.mem_cons_of_mem _ hy)⟩
  have hinv : ((State.mk none w).runs run).Holds (fun s => w.Unopened s.world) w.Unopened :=
    (unopened_invariant w).runs (World.Unopened.refl w) halong
  rw [hend] at hinv
  obtain ⟨db, w1, db', w2, h1, h2, halike, hread⟩ := World.Unopened.opened hinv ho hexists
  exact ⟨db, w1, db', w2, h1, h2, halike, halike.getAtSequence hread, halike.scan hread⟩

/-- An open that crashes when it loads the log, one that cannot read the manifest, and
one whose process is lost afterwards. -/
def lostOpens (o : Options) : List (Env × Action) :=
  [(⟨[.none, .crash 0], fun _ _ => false⟩, .openDb o), (⟨[.none, .none, .fail 0], fun _ _ => false⟩, .openDb o),
    (.calm, .openDb o), (.calm, .crash)]

theorem lostOpens_attempts (o : Options) : ∀ x ∈ lostOpens o, x.2.Attempts := by
  simp [lostOpens, Action.Attempts]

theorem State.db_crash (s : State) (env : Env) : (s.exec env .crash).2.db = none := by
  cases hdb : s.db <;> simp [State.exec, hdb]

theorem openDb_after_attempts_lostOpens : ∃ w w' : World,
    (State.init .unused).runs (WriteSession.mk .default [.put [97] [1]]).actions = ⟨none, w⟩ ∧
    (State.mk none w).runs (lostOpens .default) = ⟨none, w'⟩ ∧
    ∃ db w1 db' w2, openDb .default (w.enter .calm) = .ok db w1 ∧ openDb .default (w'.enter .calm) = .ok db' w2 ∧
      db.Alike db' ∧ Sys.getAtSequence ⟨db', w2⟩ = Sys.getAtSequence ⟨db, w1⟩ ∧
      Sys.scan ⟨db', w2⟩ = Sys.scan ⟨db, w1⟩ := by
  have hdurable : (WriteSession.mk .default [.put [97] [1]]).Durable := by
    refine ⟨⟨rfl, rfl⟩, rfl, rfl, by simp [Call.IsWrite], ?_⟩
    simp [WriteSession.ops, Call.ops, WriteOp.Fits, WriteOp.key]
  obtain ⟨w, hw, honly⟩ := hdurable.runs (World.onlyLog_empty .unused)
  have hend : ((State.mk none w).runs (lostOpens .default)).db = none := State.db_crash _ _
  have heq : (State.mk none w).runs (lostOpens .default) =
      ⟨none, ((State.mk none w).runs (lostOpens .default)).world⟩ := congrArg (State.mk · _) hend
  exact ⟨w, _, hw, heq, openDb_after_attempts w _ _ (lostOpens_attempts _) heq .default
    (honly.openable ⟨rfl, rfl⟩) rfl⟩

end AiDb
