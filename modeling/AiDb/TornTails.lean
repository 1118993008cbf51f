import AiDb.Replay
import AiDb.Wal.Recovery

/-!
# Torn tails

A crash in the middle of an append leaves a prefix of its bytes at the end of the
log. Recovery stops there, but `DB::open` leaves the bytes in place and the next
session appends after them, where no later recovery looks. What was acknowledged
survives as long as every write starts on a log that ends with a whole entry.
-/

namespace AiDb

open Library

variable {s : Sys} {w w' : World}

-- ---------------------------------------------------------------------------
-- A log with a torn tail
-- ---------------------------------------------------------------------------

/-- Entries of operations that fit, the acknowledged ones among them in their
order, and after them at most a part of one more entry. -/
structure TornLog (acked : List WriteOp) (log : Bytes) (ops : List WriteOp) (tail : Bytes) : Prop where
  bytes : log = logEntries ops ++ tail
  kept : acked.Sublist ops
  fits : ∀ op ∈ ops, op.Fits
  torn : ∃ e, tail <+: Wal.append Wal.calculateChecksum e ∧ tail ≠ Wal.append Wal.calculateChecksum e

theorem TornLog.whole (hacked : acked.Sublist ops) (hfits : ∀ op ∈ ops, op.Fits) :
    TornLog acked (logEntries ops) ops [] where
  bytes := by rw [List.append_nil]
  kept := hacked
  fits := hfits
  torn := ⟨[0], List.nil_prefix, by decide +kernel⟩

/-- What is recovered from such a log, if anything is. -/
theorem TornLog.recovered (h : TornLog acked log ops tail)
    (hr : Wal.recoverAll Wal.calculateChecksum log = .ok entries) : entries = ops.map WriteOp.encode := by
  obtain ⟨e, hp, hne⟩ := h.torn
  rw [h.bytes, logEntries, Wal.recoverAll_appendAll _ fun _ => encode_ne_nil_of_mem] at hr
  cases ht : Wal.recoverAll Wal.calculateChecksum tail with
  | error err => rw [ht] at hr; cases hr
  | ok r =>
    rw [ht, Wal.recoverAll_strictPrefix hp hne ht] at hr
    cases hr
    exact (List.append_nil _)

theorem TornLog.of_logEntries (h : TornLog acked (logEntries ops') ops tail) : logEntries ops' = logEntries ops := by
  have heq := h.recovered (recoverAll_logEntries ops')
  rw [logEntries, heq]
  rfl

theorem TornLog.append (h : TornLog acked (logEntries ops) ops []) (hop : op.Fits)
    (hq : q <+: logEntries [op]) : ∃ ops' tail', TornLog acked (logEntries ops ++ q) ops' tail' := by
  rw [logEntries_cons, logEntries_nil, List.append_nil] at hq
  by_cases hfull : q = Wal.append Wal.calculateChecksum op.encode
  · refine ⟨ops ++ [op], [], ?_⟩
    have hfits : ∀ x ∈ ops ++ [op], x.Fits := by
      intro x hx
      rcases List.mem_append.mp hx with hx | hx
      · exact h.fits x hx
      · rw [List.mem_singleton] at hx
        rwa [hx]
    have hwhole := TornLog.whole (h.kept.trans (List.sublist_append_left ops [op])) hfits
    rwa [logEntries_append, logEntries_cons, logEntries_nil, List.append_nil, ← hfull] at hwhole
  · exact ⟨ops, q, rfl, h.kept, h.fits, op.encode, hq, hfull⟩

-- ---------------------------------------------------------------------------
-- Runs
-- ---------------------------------------------------------------------------

/-- Opens with a synced log, puts and deletes, and crashes. -/
def Action.LogOnly : Action → Prop
  | .openDb o => o.useWal = true ∧ o.syncWal = true
  | .call (.put ..) | .call (.delete _) | .crash => True
  | _ => False

/-- The operations a step acknowledges: those of a call that returns `Ok`. -/
def State.ackedBy (s : State) (env : Env) (a : Action) : List WriteOp :=
  match a, s.db, (s.exec env a).1 with
  | .call c, some _, .ok () => c.ops
  | _, _, _ => []

def State.acked (s : State) : List (Env × Action) → List WriteOp
  | [] => []
  | (env, a) :: rest => s.ackedBy env a ++ (s.exec env a).2.acked rest

/-- A put or delete of a key that fits starts on a log that ends with a whole
entry, and with nothing of an earlier one in the buffer. -/
def WritesOnWholeEntries (s : State) (_ : Env) (a : Action) : Prop :=
  match a, s.db with
  | .call c, some db => (∀ op ∈ c.ops, op.Fits) ∧ ∃ ops, (Sys.mk db s.world).Logged ops
  | _, _ => True

/-- Every open that succeeds replays the acknowledged operations, in order. -/
def State.Recovers (s : State) (acked : List WriteOp) : Prop :=
  s.db = none → ∀ env o db w', openDb o (s.world.enter env) = .ok db w' →
    ∃ entries, Wal.recoverAll Wal.calculateChecksum s.world.disk.replayedLog.bytes = .ok entries ∧
      db.memtable = replay (MemTable.new 1) 0 (s.world.disk.replayedLog.stamped entries s.world.writes) ∧
      acked.Sublist (entries.filterMap parseEntry)

/-- At every point of a run, what was acknowledged until then is recovered. -/
def AckedSurvive (len : CompressedLen) (run : List (Env × Action)) : Prop :=
  ∀ pre, pre <+: run → ((State.init len).runs pre).Recovers ((State.init len).acked pre)

structure Sys.Torn (s : Sys) (acked : List WriteOp) : Prop where
  useWal : s.db.options.useWal = true
  syncWal : s.db.options.syncWal = true
  log : ∃ log ops tail, s.LogIs log ∧ TornLog acked log ops tail

def World.Torn (w : World) (acked : List WriteOp) : Prop :=
  ∃ ops tail, TornLog acked w.disk.replayedLog.bytes ops tail

theorem Sys.Torn.world (h : s.Torn acked) : s.world.Torn acked := by
  obtain ⟨log, ops, tail, hlog, htorn⟩ := h.log
  exact ⟨ops, tail, by rwa [hlog.replayedLog]⟩

theorem World.Torn.opened (h : w.Torn acked) (ho : (Action.openDb o).LogOnly) :
    Triple (openDb o) w (fun db w' => (Sys.mk db w').Torn acked) (fun _ w' => w'.Torn acked) := by
  obtain ⟨ops, tail, htorn⟩ := h
  refine ((openDb_spec o w).and (openDb_logsKept o w)).mono ?_ ?_
  · rintro db w' ⟨⟨-, recovered, tables, vs, lo, hi, rfl, -⟩, hkept, hmem⟩
    refine ⟨ho.1, ho.2, _, ops, tail, ⟨hkept.latestWal_eq.symm, hmem, rfl⟩, ?_⟩
    have hbytes := hkept.replayedLog_eq
    rw [Disk.replayedLog, hkept.latestWal_eq] at hbytes
    rwa [← hbytes] at htorn
  · rintro _ w' ⟨-, hkept⟩
    exact ⟨ops, tail, by rwa [hkept.replayedLog_eq]⟩

theorem Sys.Torn.call (h : s.Torn acked) {c : Call} (hc : (Action.call c).LogOnly) (hfits : ∀ op ∈ c.ops, op.Fits)
    (hlogged : ∃ ops, s.Logged ops) :
    Triple c.run s (fun _ s' => s'.Torn (acked ++ c.ops)) (fun _ s' => s'.Torn acked) := by
  obtain ⟨log, ops, tail, hlog, htorn⟩ := h.log
  obtain ⟨ops', hlogged⟩ := hlogged
  have heq : log = logEntries ops' := by rw [← hlog.bytes, hlogged.bytes]
  subst heq
  have hsame := htorn.of_logEntries
  have hops : s.Logged ops := ⟨hsame ▸ hlogged.toLogIs, hlogged.buffer⟩
  have hwhole := TornLog.whole htorn.kept htorn.fits
  obtain ⟨hw, op, hop⟩ : c.IsWrite ∧ ∃ op, c.ops = [op] := by
    cases c with
    | put key value => exact ⟨trivial, _, rfl⟩
    | delete key => exact ⟨trivial, _, rfl⟩
    | _ => exact hc.elim
  refine ((hops.call h.useWal h.syncWal hw).and (Call.run_disk hw s)).mono ?_ ?_
  · rintro _ s' ⟨hlogged', logs, -, hopts⟩
    refine ⟨by rw [hopts]; exact h.useWal, by rw [hopts]; exact h.syncWal, _, ops ++ c.ops, [], hlogged'.toLogIs, ?_⟩
    refine TornLog.whole (htorn.kept.append (List.Sublist.refl _)) fun x hx => ?_
    rcases List.mem_append.mp hx with hx | hx
    · exact htorn.fits x hx
    · exact hfits x hx
  · rintro _ s' ⟨⟨-, q, hq, hlog'⟩, logs, -, hopts⟩
    rw [hop] at hq hfits
    obtain ⟨ops'', tail', htorn'⟩ := hwhole.append (hfits op List.mem_cons_self) hq
    exact ⟨by rw [hopts]; exact h.useWal, by rw [hopts]; exact h.syncWal, _, ops'', tail', hlog', htorn'⟩

theorem State.torn_exec {s : State} {acked : List WriteOp} {a : Action} (h : s.Holds (·.Torn acked) (·.Torn acked)) (ha : a.LogOnly)
    (hwhole : WritesOnWholeEntries s env a) :
    (s.exec env a).2.Holds (·.Torn (acked ++ s.ackedBy env a)) (·.Torn (acked ++ s.ackedBy env a)) := by
  obtain ⟨db, w⟩ := s
  cases db with
  | none =>
    have hacked : State.ackedBy ⟨none, w⟩ env a = [] := by cases a <;> rfl
    rw [hacked, List.append_nil]
    cases a with
    | openDb o =>
      have hopen := World.Torn.opened (w := w.enter env) h ha
      unfold State.exec
      dsimp only
      cases hr : openDb o (w.enter env) with
      | ok db' w' => exact hopen.ok hr
      | error e w' => exact hopen.error hr
    | _ => exact h
  | some db =>
    cases a with
    | call c =>
      obtain ⟨hfits, ops, hlogged⟩ := hwhole
      have htorn : (Sys.mk db (w.enter env)).Torn acked := by
        obtain ⟨log, ops, tail, hlog, ht⟩ := h.log
        exact ⟨h.useWal, h.syncWal, log, ops, tail, ⟨hlog.latest, hlog.exists_file, hlog.bytes⟩, ht⟩
      have hcall := htorn.call ha hfits ⟨ops, hlogged.enter env⟩
      unfold State.ackedBy State.exec
      dsimp only
      cases hr : c.run ⟨db, w.enter env⟩ with
      | ok u s' => exact hcall.ok hr
      | error e s' =>
        have hs' := hcall.error hr
        cases e with
        | error err =>
          simp only [State.after, List.append_nil]
          exact hs'
        | panic =>
          simp only [State.after, List.append_nil]
          exact hs'.world
        | crash =>
          simp only [State.after, List.append_nil]
          exact hs'.world
    | crash =>
      have hw : w.Torn acked := Sys.Torn.world h
      show World.Torn _ (acked ++ [])
      rwa [List.append_nil]
    | openDb o =>
      show Sys.Torn _ (acked ++ [])
      rwa [List.append_nil]
    | drop => exact ha.elim

theorem State.torn_runs {s : State} {acked : List WriteOp} (h : s.Holds (·.Torn acked) (·.Torn acked))
    (hrun : ∀ x ∈ run, Action.LogOnly x.2) (hwhole : s.Along WritesOnWholeEntries run) :
    (s.runs run).Holds (·.Torn (acked ++ s.acked run)) (·.Torn (acked ++ s.acked run)) := by
  induction run generalizing s acked with
  | nil => rwa [State.acked, List.append_nil]
  | cons x run ih =>
    have hstep := State.torn_exec h (hrun x List.mem_cons_self) hwhole.1
    have hrest := ih hstep (fun y hy => hrun y (List.mem_cons_of_mem _ hy)) hwhole.2
    rwa [List.append_assoc] at hrest

/-- Sessions in which every write starts on a log that ends with a whole entry lose
nothing that was acknowledged. -/
theorem ackedSurvive_of_whole (len : CompressedLen) (run : List (Env × Action)) (hrun : ∀ x ∈ run, x.2.LogOnly)
    (hwhole : (State.init len).Along WritesOnWholeEntries run) : AckedSurvive len run := by
  intro pre hpre hdb env o db w' hopen
  have hinit : (State.init len).Holds (·.Torn []) (·.Torn []) :=
    ⟨[], [], TornLog.whole (List.Sublist.refl _) nofun⟩
  have htorn := State.torn_runs hinit (fun x hx => hrun x (hpre.subset hx)) (State.along_isPrefix hwhole hpre)
  rw [List.nil_append] at htorn
  obtain ⟨ops, tail, htorn⟩ : ((State.init len).runs pre).world.Torn ((State.init len).acked pre) := by
    unfold State.Holds at htorn
    rwa [hdb] at htorn
  obtain ⟨-, recovered, tables, vs, lo, hi, rfl, hrec, -⟩ := (openDb_spec o _).ok hopen
  refine ⟨recovered, hrec, rfl, ?_⟩
  rw [htorn.recovered hrec, filterMap_parseEntry htorn.fits]
  exact htorn.kept

def tornRun (cut : Nat) : List (Env × Action) :=
  [(.calm, .openDb .default), (.calm, .call (.put [97] [1])),
    (⟨[.crash cut], fun _ _ => false⟩, .call (.put [98] [2])),
    (.calm, .openDb .default), (.calm, .call (.put [99] [3])), (.calm, .crash)]

def writesOnWholeEntries (s : State) (_ : Env) (a : Action) : Bool :=
  match a, s.db with
  | .call c, some db =>
    let log := (Sys.mk db s.world).logFile.bytes
    c.ops.all (fun op => op.Fits) && db.wal.number = latestWal s.world.disk &&
      db.wal.number ∈ s.world.disk.logs && db.wal.buffer = [] &&
      match Wal.recoverAll Wal.calculateChecksum log with
      | .ok entries => log = logEntries (entries.filterMap parseEntry)
      | .error _ => false
  | _, _ => true

theorem writesOnWholeEntries_sound {s : State} (h : writesOnWholeEntries s env a = true) : WritesOnWholeEntries s env a := by
  unfold writesOnWholeEntries at h
  unfold WritesOnWholeEntries
  split at h
  · simp only [Bool.and_eq_true, decide_eq_true_eq] at h
    obtain ⟨⟨⟨⟨hfits, hlatest⟩, hmem⟩, hbuf⟩, hlog⟩ := h
    split at hlog
    · exact ⟨fun op hop => of_decide_eq_true (List.all_eq_true.mp hfits op hop), _,
        ⟨hlatest, hmem, of_decide_eq_true hlog⟩, hbuf⟩
    · cases hlog
  · trivial

def tornLast : List (Env × Action) :=
  [(.calm, .openDb .default), (.calm, .call (.put [97] [1])), (.calm, .crash),
    (.calm, .openDb .default), (.calm, .call (.put [99] [3])),
    (⟨[.crash 6], fun _ _ => false⟩, .call (.put [98] [2])), (.calm, .openDb .default)]

theorem ackedSurvive_tornLast : (∀ x ∈ tornLast, x.2.LogOnly) ∧ (State.init .unused).Along WritesOnWholeEntries tornLast ∧
    ((State.init .unused).runs tornLast).world.disk.replayedLog.bytes = logEntries [.put [97] [1], .put [99] [3]] ++
      (Wal.append Wal.calculateChecksum (encodePut [98] [2])).take 6 ∧
    (State.init .unused).acked tornLast = [.put [97] [1], .put [99] [3]] ∧ AckedSurvive .unused tornLast := by
  have hrun : ∀ x ∈ tornLast, x.2.LogOnly := by simp [tornLast, Action.LogOnly, Options.default]
  have hwhole : (State.init .unused).Along WritesOnWholeEntries tornLast := by
    have hcheck : (State.init .unused).checkAlong writesOnWholeEntries tornLast = true := by decide +kernel
    exact State.along_of_check (fun _ _ _ => writesOnWholeEntries_sound) hcheck
  exact ⟨hrun, hwhole, by decide +kernel, by decide +kernel, ackedSurvive_of_whole .unused _ hrun hwhole⟩

/-- Six bytes of the entry of `b` are in the file: the next open stops there, and so does every later one, in
front of what the second session acknowledged. -/
theorem not_ackedSurvive_cut_six : (∀ x ∈ tornRun 6, x.2.LogOnly) ∧ ¬AckedSurvive .unused (tornRun 6) := by
  refine ⟨by simp [tornRun, Action.LogOnly, Options.default], fun h => ?_⟩
  have hopen : (((State.init .unused).runs (tornRun 6)).exec .calm (.openDb .default)).2.db.isSome = true := by
    decide +kernel
  have hrec : Wal.recoverAll Wal.calculateChecksum
      ((State.init .unused).runs (tornRun 6)).world.disk.replayedLog.bytes = .ok [encodePut [97] [1]] := by
    decide +kernel
  have hacked : (State.init .unused).acked (tornRun 6) = [.put [97] [1], .put [99] [3]] := by decide +kernel
  have hdb : ((State.init .unused).runs (tornRun 6)).db.isNone = true := by decide +kernel
  have hdb := Option.isNone_iff_eq_none.mp hdb
  cases hr : openDb .default (((State.init .unused).runs (tornRun 6)).world.enter .calm) with
  | ok db w' =>
    obtain ⟨entries, hentries, -, hsub⟩ := h _ (List.prefix_refl _) hdb .calm .default db w' hr
    rw [hrec, Except.ok.injEq] at hentries
    rw [hacked, ← hentries] at hsub
    exact absurd hsub (by decide +kernel)
  | error e w' => simp [State.exec, hdb, hr] at hopen

end AiDb
