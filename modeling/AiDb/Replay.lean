import AiDb.Logging

/-!
# Replaying the log

`DB::open` parses the entries of the log back into the operations they were made
from and puts them into a fresh memtable, one sequence number each. Sessions that
only write and then lose the process leave a log from which the next open rebuilds
what they wrote.
-/

namespace AiDb

open Library Compaction

-- ---------------------------------------------------------------------------
-- Entries
-- ---------------------------------------------------------------------------

def WriteOp.Fits (op : WriteOp) : Prop := op.key.length < 2 ^ 32

instance (op : WriteOp) : Decidable op.Fits := inferInstanceAs (Decidable (_ < _))

theorem WriteOp.encode_ne_nil (op : WriteOp) : op.encode ≠ [] := by
  cases op <;> simp [WriteOp.encode, encodePut, encodeDel]

theorem encode_ne_nil_of_mem (h : e ∈ List.map WriteOp.encode ops) : e ≠ [] := by
  obtain ⟨op, -, rfl⟩ := List.mem_map.mp h
  exact op.encode_ne_nil

theorem parseEntry_encode {op : WriteOp} (h : op.Fits) : parseEntry op.encode = some op := by
  have hlen : fromLe (leBytes 4 op.key.length) = op.key.length := fromLe_leBytes_of_lt h
  cases op with
  | put key value =>
    simp only [WriteOp.key] at hlen
    simp [parseEntry, WriteOp.encode, encodePut, hlen]
  | delete key =>
    simp only [WriteOp.key] at hlen
    simp [parseEntry, WriteOp.encode, encodeDel, hlen]

-- ---------------------------------------------------------------------------
-- The last writer wins
-- ---------------------------------------------------------------------------

def WriteOp.value : WriteOp → Option Bytes
  | .put _ value => some value
  | .delete _ => none

/-- What a key holds after the operations, each over the ones before it. -/
def lastValue (key : Bytes) (ops : List WriteOp) : Option Bytes := (lastOp key ops).bind WriteOp.value

theorem WriteOp.answer_version (op : WriteOp) (stamp : Nat) :
    (MemTable.answer (some (op.version stamp))).map Value.bytes = op.value := by
  cases op <;> rfl

/-- The replayed memtable, the stamps of its versions aside. An entry that does not
parse only takes a sequence number. -/
theorem replay_spec {m : MemTable} {es : List Bytes} (hm : m.Bounded bound) (hlen : es.length ≤ stamps.length) :
    (replay m bound (es.zip stamps)).Bounded (bound + es.length) ∧
      ∀ key, (MemTable.answer ((replay m bound (es.zip stamps)).version key)).map Value.bytes =
        match lastOp key (es.filterMap parseEntry) with
        | some op => op.value
        | none => (MemTable.answer (m.version key)).map Value.bytes := by
  induction es generalizing m bound stamps with
  | nil => exact ⟨hm, fun _ => rfl⟩
  | cons e es ih =>
    obtain ⟨stamp, stamps, rfl⟩ : ∃ stamp rest, stamps = stamp :: rest :=
      List.exists_cons_of_length_pos (by simp only [List.length_cons] at hlen; omega)
    have hrest : es.length ≤ stamps.length := by simpa using hlen
    rw [List.length_cons, ← Nat.add_assoc, Nat.add_right_comm, List.zip_cons_cons, replay]
    cases hp : parseEntry e with
    | none =>
      rw [List.filterMap_cons_none hp]
      exact ih (hm.mono (Nat.le_succ bound)) hrest
    | some op =>
      have hop := op.apply_spec stamp hm
      obtain ⟨hb, hv⟩ := ih hop.1 hrest
      refine ⟨hb, fun key => ?_⟩
      rw [hv key, List.filterMap_cons_some hp, lastOp]
      cases lastOp key (es.filterMap parseEntry) with
      | some op' => rfl
      | none =>
        rw [hop.2 key]
        by_cases hk : op.key = key
        · simp only [hk, ↓reduceIte, Option.none_or, Option.some_or]
          exact op.answer_version stamp
        · simp [hk]

theorem replay_stamped (log : LogFile) (recovered : List Bytes) (writes : Nat) :
    (replay (MemTable.new 1) 0 (log.stamped recovered writes)).Bounded recovered.length ∧
      ∀ key, (MemTable.answer ((replay (MemTable.new 1) 0 (log.stamped recovered writes)).version key)).map
        Value.bytes = lastValue key (recovered.filterMap parseEntry) := by
  have hlen : recovered.length ≤ (log.stamps ++ List.replicate recovered.length writes).length := by simp
  have hnew : (MemTable.new 1).Bounded 0 := MemTable.bounded_new
  obtain ⟨hb, hv⟩ := replay_spec hnew hlen
  rw [Nat.zero_add] at hb
  refine ⟨hb, fun key => (hv key).trans ?_⟩
  rw [lastValue]
  cases lastOp key (recovered.filterMap parseEntry) <;> rfl

-- ---------------------------------------------------------------------------
-- Reading an opened database
-- ---------------------------------------------------------------------------

def DB.getTables (db : DB) (w : World) (key : Bytes) : Except Error (Option Bytes) :=
  (firstAnswer (fun r => r.get (w.readBlock r.file) key) (scanOrder db.sstables)).map (·.map Value.bytes)

/-- What a database shows whose memtable holds the operations. -/
def DB.shows (db : DB) (w : World) (ops : List WriteOp) (key : Bytes) : Except Error (Option Bytes) :=
  match lastValue key ops with
  | some v => .ok (some v)
  | none => db.getTables w key

theorem openedDb_get (recovered : List Bytes) (log : LogFile) (w : World) (key : Bytes) :
    (openedDb o recovered log writes walNumber tables vs).get w key =
      (openedDb o recovered log writes walNumber tables vs).shows w (recovered.filterMap parseEntry) key := by
  obtain ⟨hb, hv⟩ := replay_stamped log recovered writes
  have hget := @MemTable.get_eq_answer _ key _ hb
  unfold DB.shows
  rw [← hv key]
  unfold DB.get DB.getAtSequence
  simp only [openedDb, List.reverse_nil, List.findSome?_cons, hget, List.findSome?_nil]
  cases MemTable.answer _ with
  | some v => rfl
  | none =>
    simp only [Option.map_none, DB.getTables, scanOrder]
    cases firstAnswer _ _ <;> rfl

def replayedOps (ops : List WriteOp) : List WriteOp := (ops.map WriteOp.encode).filterMap parseEntry

theorem replayedOps_append (ops ops' : List WriteOp) : replayedOps (ops ++ ops') = replayedOps ops ++ replayedOps ops' := by
  rw [replayedOps, List.map_append, List.filterMap_append]
  rfl

theorem openedDb_get_replayed (ops : List WriteOp) (log : LogFile) (w : World) (key : Bytes) :
    (openedDb o (ops.map WriteOp.encode) log writes walNumber [] vs).get w key = .ok (lastValue key (replayedOps ops)) := by
  have htables : (openedDb o (ops.map WriteOp.encode) log writes walNumber [] vs).getTables w key = .ok none := by
    have hflat : scanOrder (openedDb o (ops.map WriteOp.encode) log writes walNumber [] vs).sstables = [] := by
      simp [scanOrder, openedDb]
    rw [DB.getTables, hflat]
    rfl
  rw [openedDb_get, DB.shows, htables, replayedOps]
  cases lastValue key ((ops.map WriteOp.encode).filterMap parseEntry) <;> rfl

theorem filterMap_parseEntry {ops : List WriteOp} (hfits : ∀ op ∈ ops, op.Fits) :
    (ops.map WriteOp.encode).filterMap parseEntry = ops := by
  induction ops with
  | nil => rfl
  | cons op ops ih =>
    rw [List.map_cons, List.filterMap_cons_some (parseEntry_encode (hfits op List.mem_cons_self)),
      ih fun x hx => hfits x (List.mem_cons_of_mem _ hx)]

-- ---------------------------------------------------------------------------
-- The log and the manifest after an open
-- ---------------------------------------------------------------------------

variable {w w' : World}

/-- The logs, but for an empty one under the latest number if there was none, and
the manifest, but for an empty one if there was none. -/
structure World.LogsKept (w w' : World) : Prop where
  logs : w'.disk.logs = w.disk.logs ∨ latestWal w.disk ∉ w.disk.logs ∧
    w'.disk.logs = w.disk.logs.insert (latestWal w.disk) ⟨[], []⟩
  manifest : w'.disk.manifest = w.disk.manifest ∨ w.disk.manifest = none ∧ w'.disk.manifest = some []
  dir : w.disk.dirExists = true → w'.disk.dirExists = true

theorem World.LogsKept.refl (w : World) : w.LogsKept w := ⟨.inl rfl, .inl rfl, id⟩

theorem World.LogsKept.at (h : w.LogsKept w') (hat : w'.At w'.disk w'') : w.LogsKept w'' := by
  obtain ⟨faults, arcs, -, -, rfl⟩ := hat
  exact ⟨h.logs, h.manifest, h.dir⟩

theorem openDir_logsKept (o : Options) (w : World) :
    Triple (openDir o) w (fun _ w' => w.LogsKept w' ∧ w'.disk.logs = w.disk.logs ∧ w'.disk.manifest = w.disk.manifest)
      (fun _ w' => w.LogsKept w') := by
  unfold openDir
  refine Triple.get_bind ?_
  split
  · split
    · refine (atomicOp_spec _ (.refl w)).mono ?_ fun _ _ hf => World.LogsKept.at (.refl w) hf.2
      rintro _ w1 ⟨faults, arcs, -, -, rfl⟩
      exact ⟨⟨.inl rfl, .inl rfl, fun _ => rfl⟩, rfl, rfl⟩
    · exact Triple.throw (.refl w)
  · split
    · exact Triple.throw (.refl w)
    · exact Triple.pure ⟨.refl w, rfl, rfl⟩

theorem newVersionSet_logsKept (maxLevels : Nat) (h : w.LogsKept w') (hm : w'.disk.manifest = w.disk.manifest) :
    Triple (newVersionSet maxLevels) w' (fun _ w'' => w.LogsKept w'' ∧ w''.disk.logs = w'.disk.logs)
      (fun _ w'' => w.LogsKept w'') := by
  unfold newVersionSet
  refine Triple.get_bind ?_
  cases hmf : w'.disk.manifest with
  | none =>
    refine ((atomicOp_spec _ (.refl w')).mono (fun _ _ => id) fun _ _ hf => h.at hf.2).bind ?_
    rintro _ w1 ⟨faults, arcs, -, -, rfl⟩
    exact Triple.pure ⟨⟨h.logs, .inr ⟨by rw [← hm, hmf], rfl⟩, h.dir⟩, rfl⟩
  | some pieces =>
    refine ((passiveOp_spec (.refl w')).mono (fun _ _ => id) fun _ _ hf => h.at hf.2).bind fun _ w1 h1 => ?_
    have hlogs : w1.disk.logs = w'.disk.logs := by rw [h1.disk_eq]
    cases recoverLines (VersionSet.new maxLevels) (manifestLines [] pieces) with
    | error e => exact Triple.throw_bind (h.at h1)
    | ok vs =>
      cases vs with
      | none => exact Triple.throw (h.at h1)
      | some vs => exact Triple.pure ⟨h.at h1, hlogs⟩

theorem openDb_logsKept (o : Options) (w : World) :
    Triple (openDb o) w
      (fun _ w' => w.LogsKept w' ∧ latestWal w.disk ∈ w'.disk.logs)
      (fun _ w' => w.LogsKept w') := by
  unfold openDb
  cases o.validate with
  | error e => exact Triple.throw_bind (.refl w)
  | ok u =>
    rw [liftExcept_ok, pure_bind]
    refine (openDir_logsKept o w).bind ?_
    rintro _ w1 ⟨h1, hlogs1, hman1⟩
    refine Triple.get_bind ?_
    have hlatest : latestWal w1.disk = latestWal w.disk := by rw [latestWal, hlogs1]; rfl
    -- the log is opened, and created if it is missing
    have hopen : Triple (openLog (latestWal w1.disk)) w1
        (fun _ w2 => w.LogsKept w2 ∧ latestWal w.disk ∈ w2.disk.logs ∧ w2.disk.manifest = w.disk.manifest)
        (fun _ w2 => w.LogsKept w2) := by
      refine (atomicOp_spec _ (.refl w1)).mono ?_ fun _ _ hf => h1.at hf.2
      rintro _ w2 ⟨faults, arcs, -, -, rfl⟩
      rw [hlatest]
      dsimp only
      split
      · rename_i hmem
        exact ⟨⟨h1.logs, h1.manifest, h1.dir⟩, hmem, hman1⟩
      · rename_i hmem
        rw [hlogs1] at hmem
        exact ⟨⟨.inr ⟨hmem, by rw [← hlogs1]⟩, h1.manifest, h1.dir⟩, by simp [AList.mem_insert], hman1⟩
    refine hopen.bind ?_
    rintro _ w2 ⟨h2, hmem2, hman2⟩
    refine Triple.get_bind ?_
    refine ((recoverLog_spec _ w2).mono (fun _ _ => id) fun _ _ hf => h2.at hf.1).bind ?_
    rintro recovered w3 ⟨-, h3⟩
    refine Triple.get_bind ?_
    have hkept3 := h2.at h3
    refine ((loadSsts_spec _ w3).mono (fun _ _ => id) fun _ _ hf => hkept3.at hf.2).bind ?_
    rintro tables w4 ⟨h4, -, -⟩
    have hkept4 := hkept3.at h4
    have hdisk : w4.disk = w2.disk := by rw [h4.disk_eq, h3.disk_eq]
    refine (newVersionSet_logsKept _ hkept4 (by rw [hdisk, hman2])).bind ?_
    rintro vs w5 ⟨h5, hlogs5⟩
    exact Triple.pure ⟨h5, by rw [hlogs5, hdisk]; exact hmem2⟩

theorem World.LogsKept.latestWal_eq (h : w.LogsKept w') : latestWal w'.disk = latestWal w.disk := by
  rcases h.logs with hlogs | ⟨-, hlogs⟩
  · rw [latestWal, hlogs]; rfl
  · -- the new number is the greatest one that was there, or 1
    have hd := (foldl_max_iff w.disk.logs.keys 1 (latestWal w.disk)).mp rfl
    refine (foldl_max_iff w'.disk.logs.keys 1 _).mpr ⟨.inr ?_, hd.2.1, fun x hx => ?_⟩
    · show _ ∈ w'.disk.logs
      rw [hlogs, AList.mem_insert]
      exact .inl rfl
    · have hx' : x ∈ w'.disk.logs := hx
      rw [hlogs, AList.mem_insert] at hx'
      rcases hx' with rfl | hx'
      · exact le_refl _
      · exact hd.2.2 x hx'

theorem World.LogsKept.replayedLog_eq (h : w.LogsKept w') : w'.disk.replayedLog.bytes = w.disk.replayedLog.bytes := by
  rw [Disk.replayedLog, Disk.replayedLog, h.latestWal_eq]
  rcases h.logs with hlogs | ⟨hnew, hlogs⟩
  · rw [hlogs]
  · rw [hlogs, AList.lookup_insert, AList.lookup_eq_none.mpr hnew]
    rfl

theorem recoverAll_logEntries (ops : List WriteOp) :
    Wal.recoverAll Wal.calculateChecksum (logEntries ops) = .ok (ops.map WriteOp.encode) :=
  Wal.recoverAll_appendAll_eq _ fun _ => encode_ne_nil_of_mem

theorem openDb_logged (o : Options) (hlog : w.disk.replayedLog.bytes = logEntries ops) :
    Triple (openDb o) w
      (fun db w' => (Sys.mk db w').Logged ops ∧ ∃ tables vs lo hi,
        db = openedDb o (ops.map WriteOp.encode) w.disk.replayedLog w.writes (latestWal w.disk) tables vs ∧
        w.disk.Loads (sortedSsts w.disk) lo hi tables)
      (fun _ _ => w.faults = [] → ¬w.disk.Openable o) := by
  refine ((openDb_spec o w).and (openDb_logsKept o w)).mono ?_ fun _ _ h => h.1.2
  rintro db w' ⟨⟨-, recovered, tables, vs, lo, hi, rfl, hrec, hloads, -, -, -⟩, hkept, hmem⟩
  rw [hlog, recoverAll_logEntries, Except.ok.injEq] at hrec
  subst hrec
  refine ⟨⟨⟨hkept.latestWal_eq.symm, hmem, ?_⟩, rfl⟩, tables, vs, lo, hi, rfl, hloads⟩
  have hbytes := hkept.replayedLog_eq
  rwa [Disk.replayedLog, hkept.latestWal_eq, hlog] at hbytes

-- ---------------------------------------------------------------------------
-- Sessions that end in a crash
-- ---------------------------------------------------------------------------

theorem Call.run_disk {c : Call} (hc : c.IsWrite) (s : Sys) :
    Triple c.run s (fun _ s' => ∃ logs, s'.world.disk = { s.world.disk with logs := logs } ∧ s'.db.options = s.db.options)
      (fun _ s' => ∃ logs, s'.world.disk = { s.world.disk with logs := logs } ∧ s'.db.options = s.db.options) := by
  have hbump : ∀ n s', (s.bump n).Logs s' →
      ∃ logs, s'.world.disk = { s.world.disk with logs := logs } ∧ s'.db.options = s.db.options := by
    rintro n s' ⟨wal, m, logs, faults, -, rfl⟩
    exact ⟨logs, rfl, rfl⟩
  have hinsert : ∀ ops s', (s.insert ops).Logs s' →
      ∃ logs, s'.world.disk = { s.world.disk with logs := logs } ∧ s'.db.options = s.db.options := by
    rintro ops s' ⟨wal, m, logs, faults, -, rfl⟩
    exact ⟨logs, rfl, rfl⟩
  have hfreeze : ∀ ops s', ((s.insert ops).freezeIfFull).Logs s' →
      ∃ logs, s'.world.disk = { s.world.disk with logs := logs } ∧ s'.db.options = s.db.options := by
    rintro ops s' ⟨wal, m, logs, faults, -, rfl⟩
    unfold Sys.freezeIfFull
    split <;> exact ⟨logs, rfl, rfl⟩
  cases c with
  | put key value => exact (put_spec key value s).mono (fun _ => hfreeze _) (fun _ => hbump _)
  | delete key => exact (delete_spec key s).mono (fun _ => hinsert _) (fun _ => hbump _)
  | write batch =>
    by_cases hb : batch = []
    · subst hb
      exact Triple.pure ⟨_, rfl, rfl⟩
    · exact (write_spec batch hb s).mono (fun _ => hfreeze _) (fun _ => hbump _)
  | _ => exact hc.elim

/-- A session that writes, and ends with the loss of the process. -/
structure WriteSession where
  options : Options
  calls : List Call

def WriteSession.ops (x : WriteSession) : List WriteOp := x.calls.flatMap Call.ops

def WriteSession.actions (x : WriteSession) : List (Env × Action) :=
  (.calm, .openDb x.options) :: x.calls.map (fun c => (.calm, .call c)) ++ [(.calm, .crash)]

/-- The options pass validation, and an existing database is opened. -/
def Options.Opens (o : Options) : Prop := o.validate = .ok () ∧ o.errorIfExists = false

/-- Puts, deletes and batches of keys that fit, logged and synced. -/
structure WriteSession.Durable (x : WriteSession) : Prop where
  opens : x.options.Opens
  useWal : x.options.useWal = true
  syncWal : x.options.syncWal = true
  writes : ∀ c ∈ x.calls, c.IsWrite
  fits : ∀ op ∈ x.ops, op.Fits

/-- A directory in which nothing but the log tells what was written. -/
structure Disk.OnlyLog (d : Disk) (ops : List WriteOp) : Prop where
  dir : d.dirExists = true
  ssts : d.ssts = ∅
  log : d.replayedLog.bytes = logEntries ops
  manifest : d.manifest = none ∨ d.manifest = some []

theorem Disk.OnlyLog.openable {d : Disk} (h : d.OnlyLog ops) (ho : o.Opens) : d.Openable o where
  valid := ho.1
  dir := by rw [h.dir, if_pos rfl]; exact ho.2
  log := ⟨_, by rw [h.log]; exact recoverAll_logEntries ops⟩
  manifest pieces hp := by
    rcases h.manifest with hm | hm
    · rw [hm] at hp; cases hp
    · rw [hm] at hp
      cases hp
      exact ⟨_, rfl⟩

theorem Disk.OnlyLog.of_opened (h : w.disk.OnlyLog ops) (hr : openDb o w = .ok db w') :
    (Sys.mk db w').Logged ops ∧ w'.disk.OnlyLog ops ∧ (w.faults = [] → w'.faults = []) ∧ w'.writes = w.writes ∧
      ∃ vs, db = openedDb o (ops.map WriteOp.encode) w.disk.replayedLog w.writes (latestWal w.disk) [] vs := by
  have htriple := ((openDb_spec o w).and (openDb_logsKept o w)).and (openDb_logged o h.log)
  obtain ⟨⟨⟨hsame, -⟩, hkept, -⟩, hlogged, tables, vs, lo, hi, rfl, hloads⟩ := htriple.ok hr
  have hnil : tables = [] := by
    rw [sortedSsts, h.ssts] at hloads
    cases hloads
    rfl
  subst hnil
  obtain ⟨dir, logs, manifest, faults, arcs, -, hcalm, rfl⟩ := hsame
  refine ⟨hlogged, ⟨hkept.dir h.dir, h.ssts, by rw [hkept.replayedLog_eq, h.log], ?_⟩, hcalm, rfl, vs, rfl⟩
  rcases hkept.manifest with hm | hm
  · rcases h.manifest with h' | h'
    · exact .inl (hm.trans h')
    · exact .inr (hm.trans h')
  · exact .inr hm.2

theorem Disk.OnlyLog.opened (h : w.disk.OnlyLog ops) (ho : o.Opens) (hc : w.faults = []) :
    ∃ db w', openDb o w = .ok db w' ∧ (Sys.mk db w').Logged ops ∧ w'.disk.OnlyLog ops ∧ db.options = o ∧
      ∃ vs, db = openedDb o (ops.map WriteOp.encode) w.disk.replayedLog w.writes (latestWal w.disk) [] vs := by
  cases hr : openDb o w with
  | error e w' => exact absurd (h.openable ho) (((openDb_spec o w).error hr).2 hc)
  | ok db w' =>
    obtain ⟨hlogged, honly, -, -, vs, rfl⟩ := h.of_opened hr
    exact ⟨_, w', rfl, hlogged, honly, rfl, vs, rfl⟩

theorem Sys.Logged.enter {db : DB} (h : (Sys.mk db w).Logged ops) (env : Env) : (Sys.mk db (w.enter env)).Logged ops :=
  ⟨⟨h.latest, h.exists_file, h.bytes⟩, h.buffer⟩

theorem Sys.Logged.calls {db : DB} {cs : List Call} (h : (Sys.mk db w).Logged ops) (hdisk : w.disk.OnlyLog ops) (hwal : db.options.useWal = true)
    (hsync : db.options.syncWal = true) (hcs : ∀ c ∈ cs, c.IsWrite) :
    ∃ w', (State.mk (some db) w).runs (cs.map (fun c => (.calm, .call c)) ++ [(.calm, .crash)]) = ⟨none, w'⟩ ∧
      w'.disk.OnlyLog (ops ++ cs.flatMap Call.ops) := by
  induction cs generalizing db w ops with
  | nil => exact ⟨w.enter .calm, rfl, by simpa using ⟨hdisk.dir, hdisk.ssts, hdisk.log, hdisk.manifest⟩⟩
  | cons c cs ih =>
    have hc := hcs c List.mem_cons_self
    have hcall := ((h.enter .calm).call hwal hsync hc).and (Call.run_disk hc ⟨db, w.enter .calm⟩)
    cases hr : c.run ⟨db, w.enter .calm⟩ with
    | error e s' => exact absurd rfl (hcall.error hr).1.1
    | ok u s' =>
      obtain ⟨hlogged, logs, hd, hopts⟩ := hcall.ok hr
      have honly : s'.world.disk.OnlyLog (ops ++ c.ops) := by
        refine ⟨?_, ?_, hlogged.replayedLog, ?_⟩
        · rw [hd]; exact hdisk.dir
        · rw [hd]; exact hdisk.ssts
        · rw [hd]; exact hdisk.manifest
      obtain ⟨w', hrun, hw'⟩ := ih hlogged honly (by rw [hopts]; exact hwal) (by rw [hopts]; exact hsync)
        fun x hx => hcs x (List.mem_cons_of_mem _ hx)
      refine ⟨w', ?_, by rwa [List.flatMap_cons, ← List.append_assoc]⟩
      have hexec : ((State.mk (some db) w).exec .calm (.call c)).2 = ⟨some s'.db, s'.world⟩ := by
        simp only [State.exec, hr, State.after]
      rw [List.map_cons, List.cons_append, State.runs, hexec]
      exact hrun

theorem WriteSession.Durable.runs {x : WriteSession} {ops : List WriteOp} (hx : x.Durable) (h : w.disk.OnlyLog ops) :
    ∃ w', (State.mk none w).runs x.actions = ⟨none, w'⟩ ∧ w'.disk.OnlyLog (ops ++ x.ops) := by
  obtain ⟨db, w1, hopen, hlogged, honly, hopts, -⟩ := Disk.OnlyLog.opened (w := w.enter .calm) h hx.opens rfl
  obtain ⟨w', hrun, hw'⟩ := hlogged.calls honly (by rw [hopts]; exact hx.useWal) (by rw [hopts]; exact hx.syncWal)
    hx.writes
  refine ⟨w', ?_, hw'⟩
  have hexec : ((State.mk none w).exec .calm (.openDb x.options)).2 = ⟨some db, w1⟩ := by
    simp only [State.exec, hopen]
  rw [WriteSession.actions, List.cons_append, State.runs, hexec]
  exact hrun

theorem runs_append (s : State) (xs ys : List (Env × Action)) : s.runs (xs ++ ys) = (s.runs xs).runs ys := by
  induction xs generalizing s with
  | nil => rfl
  | cons x xs ih => exact ih _

theorem WriteSession.runs_all {xs : List WriteSession} {ops : List WriteOp} (hxs : ∀ x ∈ xs, x.Durable)
    (h : w.disk.OnlyLog ops) :
    ∃ w', (State.mk none w).runs (xs.flatMap WriteSession.actions) = ⟨none, w'⟩ ∧
      w'.disk.OnlyLog (ops ++ xs.flatMap WriteSession.ops) := by
  induction xs generalizing w ops with
  | nil => exact ⟨w, rfl, by simpa using h⟩
  | cons x xs ih =>
    obtain ⟨w1, hrun1, h1⟩ := (hxs x List.mem_cons_self).runs h
    obtain ⟨w2, hrun2, h2⟩ := ih (fun y hy => hxs y (List.mem_cons_of_mem _ hy)) h1
    refine ⟨w2, ?_, by rwa [List.flatMap_cons, ← List.append_assoc]⟩
    rw [List.flatMap_cons, runs_append, hrun1, hrun2]

theorem World.onlyLog_empty (len : CompressedLen) : (World.empty len).disk.OnlyLog [] :=
  ⟨rfl, rfl, rfl, .inl rfl⟩

/-- Sessions that write and crash, then an open: the database holds what the last
operation on each key wrote, and counts every operation. -/
theorem openDb_rebuilds (len : CompressedLen) (xs : List WriteSession) (o : Options)
    (hxs : ∀ x ∈ xs, x.Durable) (ho : o.Opens) :
    ∃ db w, ((State.init len).runs (xs.flatMap WriteSession.actions)).exec .calm (.openDb o) =
        (.ok (), ⟨some db, w⟩) ∧
      (∀ key, db.get w key = .ok (lastValue key (xs.flatMap WriteSession.ops))) ∧
      db.sequence = (xs.flatMap WriteSession.ops).length := by
  obtain ⟨w, hrun, honly⟩ := WriteSession.runs_all hxs (World.onlyLog_empty len)
  rw [List.nil_append] at honly
  obtain ⟨db, w', hopen, -, -, -, vs, hdb⟩ := Disk.OnlyLog.opened (w := w.enter .calm) honly ho rfl
  refine ⟨db, w', ?_, fun key => ?_, ?_⟩
  · rw [State.init, hrun]
    simp only [State.exec, hopen]
  · have hfits : ∀ op ∈ xs.flatMap WriteSession.ops, op.Fits := by
      intro op hop
      obtain ⟨x, hx, hopx⟩ := List.mem_flatMap.mp hop
      exact (hxs x hx).fits op hopx
    rw [hdb, openedDb_get_replayed, replayedOps, filterMap_parseEntry hfits]
  · rw [hdb]
    exact List.length_map _

/-- Two sessions; the second overwrites a key with a separator byte, and writes an
empty value under the empty key. -/
theorem openDb_rebuilds_two_sessions :
    (∀ x ∈ [WriteSession.mk .default [.put [97] [1], .delete [98]],
        .mk .default [.write [.put [97] [58], .put [] []]]], x.Durable) ∧
      Options.default.Opens ∧
      ∃ db w, ((State.init .unused).runs ([WriteSession.mk .default [.put [97] [1], .delete [98]],
          .mk .default [.write [.put [97] [58], .put [] []]]].flatMap WriteSession.actions)).exec .calm
          (.openDb .default) = (.ok (), ⟨some db, w⟩) ∧
        db.get w [97] = .ok (some [58]) ∧ db.get w [98] = .ok none ∧ db.get w [] = .ok (some []) ∧
        db.sequence = 4 := by
  have hdurable : ∀ x ∈ [WriteSession.mk .default [.put [97] [1], .delete [98]],
      .mk .default [.write [.put [97] [58], .put [] []]]], x.Durable := by
    intro x hx
    rcases List.mem_cons.mp hx with rfl | hx
    · refine ⟨⟨rfl, rfl⟩, rfl, rfl, by simp [Call.IsWrite], ?_⟩
      simp [WriteSession.ops, Call.ops, WriteOp.Fits, WriteOp.key]
    · rw [List.mem_singleton] at hx
      subst hx
      refine ⟨⟨rfl, rfl⟩, rfl, rfl, by simp [Call.IsWrite], ?_⟩
      simp [WriteSession.ops, Call.ops, WriteOp.Fits, WriteOp.key]
  obtain ⟨db, w, hrun, hget, hseq⟩ := openDb_rebuilds .unused _ .default hdurable ⟨rfl, rfl⟩
  exact ⟨hdurable, ⟨rfl, rfl⟩, db, w, hrun, hget _, hget _, hget _, hseq⟩

end AiDb
