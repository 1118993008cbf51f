import AiDb.Concurrent
import AiDb.OneSession
import AiDb.TornTails

/-!
# Power failures

When the power fails, a file keeps what it held at its last `sync_all`; of what was
written since, anything may be lost. The only files the engine syncs are its logs, in
`WAL::sync`. A flush writes its tables without syncing them and then replaces the
log, so what the log held is on stable storage no more.
-/

namespace AiDb

open Library Compaction

-- ---------------------------------------------------------------------------
-- What survives
-- ---------------------------------------------------------------------------

/-- The directory after a power failure, where `synced n` bytes of log `n` were written
before its last sync. No table file was ever synced. -/
structure Disk.PowerLoss (d : Disk) (synced : Nat → Nat) (d' : Disk) : Prop where
  members : ∀ n, n ∈ d'.logs ↔ n ∈ d.logs
  logs : ∀ n f, d.logs.lookup n = some f → ∃ f', d'.logs.lookup n = some f' ∧ f.bytes.take (synced n) <+: f'.bytes ∧
    f'.bytes.length ≤ f.bytes.length
  ssts : d'.ssts = d.ssts
  files : ∀ (i : Nat) (f : SstFile), d'.files[i]? = some (.complete f) → d.files[i]? = some (.complete f)

def Disk.Stores (d : Disk) (key value : Bytes) : Prop :=
  logEntries [.put key value] <:+: d.replayedLog.bytes ∨
    ∃ n file f, d.ssts.lookup n = some file ∧ d.files[file]? = some (.complete f) ∧
      ∃ e ∈ f.entries, e.key = key ∧ e.value.bytes = value

/-- A session, with the puts that returned `Ok` and how far each log is synced. -/
structure Ledger where
  state : State
  acked : List (Bytes × Bytes)
  synced : Nat → Nat

def Ledger.acks (l : Ledger) (env : Env) (c : Call) : List (Bytes × Bytes) :=
  match c, l.state.db, (l.state.exec env (.call c)).1 with
  | .put key value, some _, .ok () => [(key, value)]
  | _, _, _ => []

def State.syncLog (st : State) (synced : Nat → Nat) : Nat → Nat :=
  match st.db with
  | some db => Function.update synced db.wal.number (Sys.logFile ⟨db, st.world⟩).bytes.length
  | none => synced

/-- A put that returns synced the log after its last write to it; a flush syncs none. -/
def Ledger.step (l : Ledger) (env : Env) (c : Call) : Ledger where
  state := (l.state.exec env (.call c)).2
  acked := l.acked ++ l.acks env c
  synced := if l.acks env c = [] then l.synced else (l.state.exec env (.call c)).2.syncLog l.synced

def Ledger.run (l : Ledger) : List (Env × Call) → Ledger
  | [] => l
  | (env, c) :: rest => (l.step env c).run rest

def Ledger.start (len : CompressedLen) (env : Env) (o : Options) : Ledger :=
  ⟨((State.init len).exec env (.openDb o)).2, [], fun _ => 0⟩

def Call.PutOrFlush : Call → Prop
  | .put .. | .flush => True
  | _ => False

/-- No put was acknowledged before the flush, or it stops before it has a new log. -/
def Ledger.KeepsLog (l : Ledger) (env : Env) : Call → Prop
  | .flush => l.acked = [] ∨ ∀ db, l.state.db = some db →
    ∀ n s', (flushMemtables >>= fun _ => createWal) ⟨db, l.state.world.enter env⟩ ≠ .ok n s'
  | _ => True

def Ledger.Along (l : Ledger) : List (Env × Call) → Prop
  | [] => True
  | (env, c) :: rest => l.KeepsLog env c ∧ (l.step env c).Along rest

-- ---------------------------------------------------------------------------
-- The invariant
-- ---------------------------------------------------------------------------

/-- The acknowledged puts are in the synced part of the log that is replayed. -/
def World.Synced (w : World) (synced : Nat → Nat) (acked : List (Bytes × Bytes)) : Prop :=
  ∀ p ∈ acked, logEntries [.put p.1 p.2] <:+: w.disk.replayedLog.bytes.take (synced (latestWal w.disk))

structure Sys.Synced (s : Sys) (synced : Nat → Nat) (acked : List (Bytes × Bytes)) : Prop where
  useWal : s.db.options.useWal = true
  syncWal : s.db.options.syncWal = true
  counter : s.db.wal.number ≤ s.db.walFileNumber
  log : ∃ log, s.LogIs log
  world : s.world.Synced synced acked

variable {s s' : Sys} {w w' : World} {d' : Disk} {synced : Nat → Nat} {acked : List (Bytes × Bytes)}

theorem World.Synced.survives (h : w.Synced synced acked) (hloss : w.disk.PowerLoss synced d') (hp : (key, value) ∈ acked) :
    d'.Stores key value := by
  refine .inl ((h _ hp).trans (List.IsPrefix.isInfix ?_))
  have hlatest := latestWal_congr hloss.members
  rw [Disk.replayedLog, Disk.replayedLog, hlatest]
  cases hlookup : w.disk.logs.lookup (latestWal w.disk) with
  | none => simp
  | some f =>
    obtain ⟨f', hf', hpre, -⟩ := hloss.logs _ f hlookup
    rw [hf']
    exact hpre

theorem World.Synced.grows (h : w.Synced synced acked) (hlatest : latestWal w'.disk = latestWal w.disk)
    (hpre : w.disk.replayedLog.bytes <+: w'.disk.replayedLog.bytes) : w'.Synced synced acked := by
  intro p hp
  rw [hlatest]
  exact (h p hp).trans (hpre.take _).isInfix

theorem Sys.Synced.sameLog (h : s.Synced synced acked) (hl : s.SameLog s') : s'.Synced synced acked := by
  obtain ⟨log, hlog⟩ := h.log
  have hlogs : s'.world.disk.logs = s.world.disk.logs := hl.world.1
  have hlatest : latestWal s'.world.disk = latestWal s.world.disk := by rw [latestWal, hlogs]; rfl
  refine ⟨by rw [hl.options]; exact h.useWal, by rw [hl.options]; exact h.syncWal,
    by rw [hl.wal, hl.walFileNumber]; exact h.counter, ⟨log, ?_, ?_, ?_⟩, h.world.grows hlatest ?_⟩
  · rw [hl.wal, hlatest]
    exact hlog.latest
  · rw [hl.wal, hlogs]
    exact hlog.exists_file
  · rw [Sys.logFile, hl.wal, hlogs]
    exact hlog.bytes
  · rw [Disk.replayedLog, Disk.replayedLog, hlatest, hlogs]

theorem put_synced (h : s.Synced synced acked) (key value : Bytes) :
    Triple (put key value) s
      (fun _ s' => s'.Synced (Function.update synced s'.db.wal.number s'.logFile.bytes.length) (acked ++ [(key, value)]))
      (fun _ s' => s'.Synced synced acked) := by
  obtain ⟨log, hlog⟩ := h.log
  have hrun := (Call.run_logGrew (c := .put key value) trivial s h.useWal).and (Call.run_disk (c := .put key value) trivial s)
  refine Triple.mono hrun ?_ ?_
  · rintro _ s' ⟨⟨hgrew, hbuf⟩, -, -, hopts⟩
    have hlog' := hgrew.logIs hlog rfl
    have hbytes := hgrew.bytes
    rw [hbuf h.syncWal (.inl (by simp [Call.ops])), List.append_nil] at hbytes
    refine ⟨by rw [hopts]; exact h.useWal, by rw [hopts]; exact h.syncWal,
      by rw [hgrew.number, hgrew.walFileNumber]; exact h.counter, ⟨_, hlog'⟩, ?_⟩
    have hwhole : s'.world.disk.replayedLog.bytes.take (Function.update synced s'.db.wal.number s'.logFile.bytes.length
        (latestWal s'.world.disk)) = s'.logFile.bytes := by
      rw [← hlog'.latest, Function.update_self, hlog'.replayedLog, List.take_length]
    intro p hp
    rw [hwhole]
    rcases List.mem_append.mp hp with hp | hp
    · have hold := (h.world p hp).trans (List.take_prefix _ _).isInfix
      rw [hlog.replayedLog, ← hlog.bytes] at hold
      exact hold.trans hgrew.file.isInfix
    · rw [List.mem_singleton.mp hp, hbytes]
      exact (List.suffix_append _ _).isInfix
  · rintro _ s' ⟨⟨-, q, -, hgrew⟩, -, -, hopts⟩
    have hlog' := hgrew.logIs hlog rfl
    refine ⟨by rw [hopts]; exact h.useWal, by rw [hopts]; exact h.syncWal,
      by rw [hgrew.number, hgrew.walFileNumber]; exact h.counter, ⟨_, hlog'⟩, h.world.grows ?_ ?_⟩
    · rw [← hlog'.latest, ← hlog.latest, hgrew.number]
    · rw [hlog'.replayedLog, hlog.replayedLog, ← hlog.bytes]
      exact hgrew.file

-- ---------------------------------------------------------------------------
-- Flush
-- ---------------------------------------------------------------------------

theorem rotateWal_eq : rotateWal = createWal >>= fun n => swapWal n >>= fun old => onWorld (removeLogIfExists old) := by
  unfold rotateWal createWal swapWal
  simp only [bind_assoc, pure_bind]

theorem createWal_stopped (h : s.Synced synced acked) (hr : createWal s = .error e s') : s'.Synced synced acked := by
  have hrun : Triple createWal s (fun _ _ => True)
      (fun _ s' => s'.db = { s.db with walFileNumber := s.db.walFileNumber + 1 } ∧ s'.world.disk = s.world.disk) := by
    unfold createWal
    refine Triple.get_bind (Triple.modify_bind ?_)
    refine ((onWorld_spec (atomicOp_spec _ (.refl _))).mono (fun _ _ _ => trivial) ?_).bind fun _ _ _ => Triple.pure trivial
    exact fun _ s1 h1 => ⟨h1.1, h1.2.2.disk_eq⟩
  obtain ⟨hdb, hdisk⟩ := hrun.error hr
  obtain ⟨log, hlog⟩ := h.log
  refine ⟨by rw [hdb]; exact h.useWal, by rw [hdb]; exact h.syncWal, by rw [hdb]; exact Nat.le_succ_of_le h.counter,
    ⟨log, by rw [hdb, hdisk]; exact hlog.latest, by rw [hdb, hdisk]; exact hlog.exists_file, ?_⟩, ?_⟩
  · rw [Sys.logFile, hdb, hdisk]
    exact hlog.bytes
  · unfold World.Synced
    rw [hdisk]
    exact h.world

def Sys.SyncedAfter (synced : Nat → Nat) (acked : List (Bytes × Bytes)) (e : Exit) (s : Sys) : Prop :=
  s.world.Synced synced acked ∧ ∀ err, e = .error err → s.Synced synced acked

theorem Sys.Synced.after (h : s.Synced synced acked) (e : Exit) : s.SyncedAfter synced acked e := ⟨h.world, fun _ _ => h⟩

theorem flush_synced (h : s.Synced synced acked)
    (hP : acked = [] ∨ ∀ n s', (flushMemtables >>= fun _ => createWal) s ≠ .ok n s') :
    Triple flush s (fun _ s' => s'.Synced synced acked) (Sys.SyncedAfter synced acked) := by
  unfold flush
  have hmem := flushMemtables_sameLog s (.refl s)
  refine (Triple.intro (fun _ s1 h1 => ⟨h1, h.sameLog (hmem.ok h1)⟩) fun e s1 h1 =>
    (h.sameLog (hmem.error h1)).after e).bind (Q := fun _ s1 => flushMemtables s = .ok () s1 ∧ s1.Synced synced acked) ?_
  rintro _ s1 ⟨hrun1, h1⟩
  obtain ⟨log, hlog⟩ := h1.log
  have hrotate : Triple rotateWal s1 (fun _ s' => s'.Synced synced acked) (Sys.SyncedAfter synced acked) := by
    rcases hP with rfl | hstops
    · have hnone : ∀ w : World, w.Synced synced [] := fun w p hp => by cases hp
      refine (rotateWal_spec hlog h1.counter).mono ?_ ?_
      · rintro _ s' ⟨hlogged, hcount, hopts, -⟩
        exact ⟨by rw [hopts]; exact h1.useWal, by rw [hopts]; exact h1.syncWal, hcount, ⟨_, hlogged.toLogIs⟩, hnone _⟩
      · rintro e s' ⟨-, hopts, hend⟩
        refine ⟨hnone _, fun err he => ?_⟩
        rcases hend with ⟨hlog', hwal, hcount⟩ | ⟨hlogged, hcount⟩ | ⟨hne, -⟩
        · exact ⟨by rw [hopts]; exact h1.useWal, by rw [hopts]; exact h1.syncWal, hcount, ⟨_, hlog'⟩, hnone _⟩
        · exact ⟨by rw [hopts]; exact h1.useWal, by rw [hopts]; exact h1.syncWal, hcount, ⟨_, hlogged.toLogIs⟩, hnone _⟩
        · exact absurd he (hne err)
    · -- the memtables are written, so it is the new log that is missing
      rw [rotateWal_eq]
      refine (Triple.intro (Q := fun _ _ => False) (fun n s2 h2 => hstops n s2 ?_) fun e s2 h2 =>
        (createWal_stopped h1 h2).after e).bind fun _ _ hf => hf.elim
      simp only [bind, EStateM.bind, hrun1, h2]
  refine hrotate.bind fun _ s2 h2 => ?_
  have hcompact := maybeTriggerCompaction_sameLog s2 (.refl s2)
  exact hcompact.mono (fun _ _ hl => h2.sameLog hl) fun e _ hl => (h2.sameLog hl).after e

-- ---------------------------------------------------------------------------
-- Runs
-- ---------------------------------------------------------------------------

variable {l : Ledger}

def Ledger.Safe (l : Ledger) : Prop := l.state.Holds (·.Synced l.synced l.acked) (·.Synced l.synced l.acked)

theorem Ledger.Safe.world (h : l.Safe) : l.state.world.Synced l.synced l.acked := by
  unfold Ledger.Safe State.Holds at h
  split at h
  · exact h.world
  · exact h

theorem Sys.Synced.enter {db : DB} (h : Sys.Synced ⟨db, w⟩ synced acked) (env : Env) :
    Sys.Synced ⟨db, w.enter env⟩ synced acked := by
  obtain ⟨log, hlog⟩ := h.log
  exact ⟨h.useWal, h.syncWal, h.counter, ⟨log, hlog.latest, hlog.exists_file, hlog.bytes⟩, h.world⟩

theorem State.holds_syncedAfter (h : s.SyncedAfter synced acked e) :
    (State.after (.error e s)).2.Holds (·.Synced synced acked) (·.Synced synced acked) := by
  cases e with
  | error err => exact h.2 err rfl
  | panic => exact h.1
  | crash => exact h.1

theorem Ledger.Safe.step (h : l.Safe) (hc : c.PutOrFlush) (hP : l.KeepsLog env c) : (l.step env c).Safe := by
  obtain ⟨⟨db, w⟩, acked, synced⟩ := l
  unfold Ledger.Safe Ledger.step
  cases db with
  | none =>
    have hacks : Ledger.acks ⟨⟨none, w⟩, acked, synced⟩ env c = [] := by cases c <;> rfl
    rw [hacks, if_pos rfl, List.append_nil]
    exact h
  | some db =>
    have hs : Sys.Synced ⟨db, w.enter env⟩ synced acked := Sys.Synced.enter h env
    cases c with
    | put key value =>
      have hput := put_synced hs key value
      have hexec : State.exec ⟨some db, w⟩ env (.call (.put key value)) =
          State.after (AiDb.put key value ⟨db, w.enter env⟩) := rfl
      cases hr : AiDb.put key value ⟨db, w.enter env⟩ with
      | ok u s' =>
        rw [hr] at hexec
        have hacks : Ledger.acks ⟨⟨some db, w⟩, acked, synced⟩ env (.put key value) = [(key, value)] := by
          unfold Ledger.acks
          rw [hexec]
          rfl
        rw [hacks, if_neg (by simp), hexec]
        exact hput.ok hr
      | error e s' =>
        rw [hr] at hexec
        have hacks : Ledger.acks ⟨⟨some db, w⟩, acked, synced⟩ env (.put key value) = [] := by
          unfold Ledger.acks
          rw [hexec]
          cases e <;> rfl
        rw [hacks, if_pos rfl, List.append_nil, hexec]
        exact State.holds_syncedAfter ((hput.error hr).after e)
    | flush =>
      have hacks : Ledger.acks ⟨⟨some db, w⟩, acked, synced⟩ env .flush = [] := rfl
      rw [hacks, if_pos rfl, List.append_nil]
      have hflush := flush_synced hs (hP.imp_right fun h => h db rfl)
      show (State.after (AiDb.flush ⟨db, w.enter env⟩)).2.Holds _ _
      cases hr : AiDb.flush ⟨db, w.enter env⟩ with
      | ok u s' => exact hflush.ok hr
      | error e s' => exact State.holds_syncedAfter (hflush.error hr)
    | _ => exact hc.elim

theorem Ledger.Safe.run (h : l.Safe) (hcalls : ∀ c ∈ calls, c.2.PutOrFlush) (halong : l.Along calls) :
    (l.run calls).Safe := by
  induction calls generalizing l with
  | nil => exact h
  | cons c calls ih =>
    exact ih (h.step (hcalls c List.mem_cons_self) halong.1) (fun x hx => hcalls x (List.mem_cons_of_mem _ hx)) halong.2

theorem Ledger.safe_start (len : CompressedLen) (env : Env) (hwal : o.useWal = true) (hsync : o.syncWal = true) :
    (Ledger.start len env o).Safe := by
  have hnone : ∀ w : World, w.Synced (fun _ => 0) [] := fun w p hp => by cases hp
  have hempty : ((World.empty len).enter env).disk.replayedLog.bytes = logEntries [] := rfl
  have hopen := openDb_logged o hempty
  unfold Ledger.Safe Ledger.start State.exec State.init
  dsimp only
  cases hr : openDb o ((World.empty len).enter env) with
  | error e w => exact hnone w
  | ok db w =>
    obtain ⟨hlogged, tables, vs, lo, hi, rfl, -⟩ := hopen.ok hr
    exact ⟨hwal, hsync, le_refl _, ⟨_, hlogged.toLogIs⟩, hnone w⟩

/-- In a session of puts and flushes whose flushes leave the log of acknowledged puts in
place, every put that returned survives a power failure at any point. -/
theorem acked_survives_powerLoss (len : CompressedLen) (env : Env) (o : Options) (calls : List (Env × Call)) (d' : Disk)
    (hwal : o.useWal = true) (hsync : o.syncWal = true) (hcalls : ∀ c ∈ calls, c.2.PutOrFlush)
    (halong : (Ledger.start len env o).Along calls)
    (hloss : ((Ledger.start len env o).run calls).state.world.disk.PowerLoss ((Ledger.start len env o).run calls).synced d') :
    ∀ p ∈ ((Ledger.start len env o).run calls).acked, d'.Stores p.1 p.2 :=
  fun _ hp => ((Ledger.safe_start len env hwal hsync).run hcalls halong).world.survives hloss hp

def Ledger.keepsLog (l : Ledger) : Bool :=
  l.state.db.all fun db =>
    match (flushMemtables >>= fun _ => createWal) ⟨db, l.state.world.enter .calm⟩ with
    | .ok _ _ => false
    | .error _ _ => true

theorem Ledger.keepsLog_flush (h : l.keepsLog = true) : l.KeepsLog .calm .flush := by
  refine .inr fun db hdb n s' hr => ?_
  rw [Ledger.keepsLog, hdb, Option.all_some, hr] at h
  cases h

def emptyKeyFlushed : List (Env × Call) :=
  [(.calm, .flush), (.calm, .put [97] [1]), (.calm, .put [] [2]), (.calm, .flush)]

theorem acked_survives_powerLoss_emptyKey : (Ledger.start .unused .calm .plain).Along emptyKeyFlushed ∧
    ((Ledger.start .unused .calm .plain).run emptyKeyFlushed).acked = [([97], [1]), ([], [2])] ∧
    ∀ d', ((Ledger.start .unused .calm .plain).run emptyKeyFlushed).state.world.disk.PowerLoss
        ((Ledger.start .unused .calm .plain).run emptyKeyFlushed).synced d' →
      ∀ p ∈ ((Ledger.start .unused .calm .plain).run emptyKeyFlushed).acked, d'.Stores p.1 p.2 := by
  have hkeeps : ((Ledger.start .unused .calm .plain).run (emptyKeyFlushed.take 3)).keepsLog = true := by decide +kernel
  have halong : (Ledger.start .unused .calm .plain).Along emptyKeyFlushed :=
    ⟨.inl rfl, trivial, trivial, Ledger.keepsLog_flush hkeeps, trivial⟩
  refine ⟨halong, by decide +kernel, fun d' hloss => ?_⟩
  exact acked_survives_powerLoss .unused .calm .plain emptyKeyFlushed d' rfl rfl
    (by simp [emptyKeyFlushed, Call.PutOrFlush]) halong hloss

def flushedOnce : Ledger := (Ledger.start .unused .calm .plain).run [(.calm, .put [97] [1]), (.calm, .flush)]

/-- The power fails after the flush returned: the log is gone, and of the table nothing
was synced. -/
theorem acked_lost_flushed : ([97], [1]) ∈ flushedOnce.acked ∧
    ∃ d', flushedOnce.state.world.disk.PowerLoss flushedOnce.synced d' ∧ ¬d'.Stores [97] [1] := by
  have hlost : ∀ (files : List SstContent) (i : Nat) (f : SstFile),
      (files.map fun _ => SstContent.incomplete)[i]? ≠ some (.complete f) := by
    intro files i f
    rw [List.getElem?_map]
    cases files[i]? <;> simp
  refine ⟨by decide +kernel, { flushedOnce.state.world.disk with
    files := flushedOnce.state.world.disk.files.map fun _ => .incomplete }, ⟨fun _ => Iff.rfl, ?_, rfl, ?_⟩, ?_⟩
  · exact fun n f hf => ⟨f, hf, List.take_prefix _ _, le_refl _⟩
  · exact fun i f hf => absurd hf (hlost _ i f)
  · have hlog : flushedOnce.state.world.disk.replayedLog.bytes = [] := by decide +kernel
    rintro (hin | ⟨n, file, f, -, hf, -⟩)
    · have hin : logEntries [.put [97] [1]] <:+: flushedOnce.state.world.disk.replayedLog.bytes := hin
      rw [hlog, List.infix_nil] at hin
      exact absurd hin (by decide +kernel)
    · exact hlost _ file f hf

end AiDb
