import AiDb.Opening
import AiDb.Store

/-!
# What reaches the log

The writer of the log holds back what fits its buffer. However a write ends, the
bytes it gave to the log are a prefix of the entries it appends; the file holds
them up to what is still in the buffer, and a sync that returns leaves nothing
there.
-/

namespace AiDb

open Library Compaction

-- ---------------------------------------------------------------------------
-- The log and its buffer
-- ---------------------------------------------------------------------------

def Sys.logFile (s : Sys) : LogFile := (s.world.disk.logs.lookup s.db.wal.number).getD ⟨[], []⟩

/-- The log of `s` is that of `s0` after the bytes `p` were given to it. -/
structure Sys.LogGrew (s0 : Sys) (p : Bytes) (s : Sys) : Prop where
  number : s.db.wal.number = s0.db.wal.number
  walFileNumber : s.db.walFileNumber = s0.db.walFileNumber
  members : s0.db.wal.number ∈ s0.world.disk.logs → ∀ n, n ∈ s.world.disk.logs ↔ n ∈ s0.world.disk.logs
  others : ∀ n, n ≠ s0.db.wal.number → s.world.disk.logs.lookup n = s0.world.disk.logs.lookup n
  bytes : s.logFile.bytes ++ s.db.wal.buffer = s0.logFile.bytes ++ s0.db.wal.buffer ++ p
  file : s0.logFile.bytes <+: s.logFile.bytes

structure Sys.Appended (s0 : Sys) (p : Bytes) (s : Sys) : Prop extends s0.LogGrew p s where
  logs : s0.Logs s

variable {s0 s : Sys}

theorem Sys.Appended.refl (s : Sys) : s.Appended [] s where
  logs := .refl s
  number := rfl
  walFileNumber := rfl
  members _ _ := Iff.rfl
  others _ _ := rfl
  bytes := by rw [List.append_nil]
  file := List.prefix_refl _

theorem Sys.Appended.calm (h : s0.Appended p s) (hc : s0.world.faults = []) : s.world.faults = [] := by
  obtain ⟨_, _, _, _, hf, rfl⟩ := h.logs
  exact hf hc

theorem Sys.Appended.faults {faults : List Fault} (h : s0.Appended p s) (hf : s0.world.faults = [] → faults = []) :
    s0.Appended p { s with world := { s.world with faults := faults } } where
  logs := by
    obtain ⟨wal, n, logs, _, -, rfl⟩ := h.logs
    exact ⟨wal, n, logs, faults, hf, rfl⟩
  number := h.number
  walFileNumber := h.walFileNumber
  members := h.members
  others := h.others
  bytes := h.bytes
  file := h.file

theorem Disk.mem_modifyLog {d : Disk} (n : Nat) (f : LogFile → LogFile) :
    m ∈ (d.modifyLog n f).logs ↔ m = n ∨ m ∈ d.logs := by
  unfold Disk.modifyLog
  exact AList.mem_insert _

theorem Sys.mem_modifyLog (h : s0.Appended p s) (f : LogFile → LogFile)
    (hmem : s0.db.wal.number ∈ s0.world.disk.logs) (n : Nat) :
    n ∈ (s.world.disk.modifyLog s.db.wal.number f).logs ↔ n ∈ s0.world.disk.logs := by
  rw [Disk.mem_modifyLog, h.members hmem, h.number]
  constructor
  · rintro (rfl | hn)
    · exact hmem
    · exact hn
  · exact .inr

theorem Sys.lookup_modifyLog (h : s0.Appended p s) (f : LogFile → LogFile) (hn : n ≠ s0.db.wal.number) :
    (s.world.disk.modifyLog s.db.wal.number f).logs.lookup n = s0.world.disk.logs.lookup n := by
  rw [← h.number] at hn
  unfold Disk.modifyLog
  rw [AList.lookup_insert_ne hn, h.others n (by rwa [h.number] at hn)]

@[simp] theorem Sys.logFile_appendLog (s : Sys) (bytes : Bytes) :
    (s.appendLog bytes).logFile = s.logFile.append bytes := by
  simp [Sys.logFile, Sys.appendLog, onDisk, Disk.modifyLog]

theorem Sys.Appended.stamps (h : s0.Appended p s) (f : List Nat → List Nat) :
    s0.Appended p { s with world := onDisk (Disk.modifyLog s.db.wal.number
      fun log => { log with stamps := f log.stamps }) s.world } where
  logs := by
    obtain ⟨wal, n, logs, faults, hf, rfl⟩ := h.logs
    exact ⟨wal, n, _, faults, hf, rfl⟩
  number := h.number
  walFileNumber := h.walFileNumber
  members hmem n := Sys.mem_modifyLog h _ hmem n
  others n hn := Sys.lookup_modifyLog h _ hn
  bytes := by
    have hb := h.bytes
    simp only [Sys.logFile, onDisk, Disk.modifyLog, AList.lookup_insert, Option.getD_some] at hb ⊢
    exact hb
  file := by
    have hb := h.file
    simp only [Sys.logFile, onDisk, Disk.modifyLog, AList.lookup_insert, Option.getD_some] at hb ⊢
    exact hb

theorem Sys.Appended.drain (h : s0.Appended p s) (k : Nat) :
    s0.Appended p ((s.appendLog (s.db.wal.buffer.take k)).setBuffer (s.db.wal.buffer.drop k)) where
  logs := h.logs.appendLog.setBuffer
  number := h.number
  walFileNumber := h.walFileNumber
  members hmem n := Sys.mem_modifyLog h _ hmem n
  others n hn := Sys.lookup_modifyLog h _ hn
  bytes := by
    show (s.appendLog _).logFile.bytes ++ _ = _
    rw [Sys.logFile_appendLog]
    simp only [LogFile.append, Sys.setBuffer, List.append_assoc, List.take_append_drop]
    rw [h.bytes, List.append_assoc]
  file := by
    show _ <+: (s.appendLog _).logFile.bytes
    rw [Sys.logFile_appendLog]
    exact h.file.trans (List.prefix_append _ _)

theorem Sys.Appended.write (h : s0.Appended p s) (hbuf : s.db.wal.buffer = []) (bytes : Bytes) :
    s0.Appended (p ++ bytes) (s.appendLog bytes) where
  logs := h.logs.appendLog
  number := h.number
  walFileNumber := h.walFileNumber
  members hmem n := Sys.mem_modifyLog h _ hmem n
  others n hn := Sys.lookup_modifyLog h _ hn
  bytes := by
    have hb := h.bytes
    rw [hbuf, List.append_nil] at hb
    rw [Sys.logFile_appendLog]
    show s.logFile.bytes ++ bytes ++ s.db.wal.buffer = _
    rw [hbuf, List.append_nil, hb, List.append_assoc]
  file := by
    rw [Sys.logFile_appendLog]
    exact h.file.trans (List.prefix_append _ _)

theorem Sys.Appended.push (h : s0.Appended p s) (bytes : Bytes) :
    s0.Appended (p ++ bytes) (s.setBuffer (s.db.wal.buffer ++ bytes)) where
  logs := h.logs.setBuffer
  number := h.number
  walFileNumber := h.walFileNumber
  members := h.members
  others := h.others
  bytes := by
    show s.logFile.bytes ++ (s.db.wal.buffer ++ bytes) = _
    rw [← List.append_assoc, h.bytes, List.append_assoc]
  file := h.file

-- ---------------------------------------------------------------------------
-- The log programs
-- ---------------------------------------------------------------------------

theorem onNextFault_spec (s : Sys) :
    Triple (onWorld nextFault) s
      (fun f s' => ∃ faults, (s.world.faults = [] → f = .none ∧ faults = []) ∧
        s' = { s with world := { s.world with faults := faults } })
      (fun _ _ => False) := by
  obtain ⟨db, w⟩ := s
  obtain ⟨disk, faults, unreadable, len, arcs, writes, handed⟩ := w
  cases faults with
  | nil => exact ⟨[], fun _ => ⟨rfl, rfl⟩, rfl⟩
  | cons f fs => exact ⟨fs, nofun, rfl⟩

theorem sysOp_rule {done : Sys → Sys} {cut : Nat → Sys → Sys} {Q : Sys → Prop} {E : Sys → Prop} (hs : s0.Appended p s)
    (hdone : ∀ faults, s0.Appended p { s with world := { s.world with faults := faults } } →
      Q (done { s with world := { s.world with faults := faults } }))
    (hcut : ∀ k faults, s0.Appended p { s with world := { s.world with faults := faults } } →
      E (cut k { s with world := { s.world with faults := faults } })) :
    Triple (sysOp done cut) s (fun _ => Q) (fun _ s' => s0.world.faults ≠ [] ∧ E s') := by
  refine ((onNextFault_spec s).mono (fun _ _ => id) (fun _ _ => False.elim)).bind ?_
  rintro fault s1 ⟨faults, hcalm, rfl⟩
  have hs1 : s0.Appended p { s with world := { s.world with faults := faults } } :=
    hs.faults fun hc => (hcalm (hs.calm hc)).2
  cases fault with
  | none => exact Triple.modify (hdone faults hs1)
  | fail k => exact ⟨fun hc => (nomatch (hcalm (hs.calm hc)).1), hcut k faults hs1⟩
  | crash k => exact ⟨fun hc => (nomatch (hcalm (hs.calm hc)).1), hcut k faults hs1⟩

theorem flushBuf_appended (hs : s0.Appended p s) :
    Triple flushBuf s (fun _ s' => s0.Appended p s' ∧ s'.db.wal.buffer = [])
      (fun _ s' => s0.world.faults ≠ [] ∧ s0.Appended p s') := by
  unfold flushBuf
  refine Triple.get_bind ?_
  dsimp only
  split
  · refine sysOp_rule hs (fun faults h => ⟨?_, rfl⟩) fun k faults h => h.drain k
    simpa using h.drain s.db.wal.buffer.length
  · rename_i hbuf
    exact Triple.pure ⟨hs, not_not.mp hbuf⟩

theorem writeLog_appended (hs : s0.Appended p s) (hbuf : s.db.wal.buffer = []) :
    Triple (writeLog bytes) s (fun _ => s0.Appended (p ++ bytes))
      (fun _ s' => s0.world.faults ≠ [] ∧ ∃ q, q <+: bytes ∧ s0.Appended (p ++ q) s') :=
  sysOp_rule hs (fun _ h => h.write hbuf bytes)
    fun k _ h => ⟨bytes.take k, List.take_prefix _ _, h.write hbuf _⟩

theorem writeAll_appended (hs : s0.Appended p s) :
    Triple (writeAll bytes) s (fun _ => s0.Appended (p ++ bytes))
      (fun _ s' => s0.world.faults ≠ [] ∧ ∃ q, q <+: bytes ∧ s0.Appended (p ++ q) s') := by
  unfold writeAll
  refine Triple.get_bind ?_
  dsimp only
  split
  · exact Triple.modify (hs.push bytes)
  · rename_i hspare
    -- a large write goes past the buffer, which is empty by then
    have hlast : ∀ s1, s0.Appended p s1 → (bytes.length ≥ bufCapacity → s1.db.wal.buffer = []) →
        Triple (if bytes.length ≥ bufCapacity then writeLog bytes
          else modify fun s : Sys => s.setBuffer (s.db.wal.buffer ++ bytes)) s1
          (fun _ => s0.Appended (p ++ bytes))
          (fun _ s' => s0.world.faults ≠ [] ∧ ∃ q, q <+: bytes ∧ s0.Appended (p ++ q) s') := by
      intro s1 hs1 hempty
      split
      · rename_i hbig
        exact writeLog_appended hs1 (hempty hbig)
      · exact Triple.modify (hs1.push bytes)
    split
    · refine ((flushBuf_appended hs).mono (fun _ _ => id) ?_).bind fun _ s1 h1 => hlast s1 h1.1 fun _ => h1.2
      exact fun _ s1 h1 => ⟨h1.1, [], List.nil_prefix, by rw [List.append_nil]; exact h1.2⟩
    · rename_i hflush
      refine hlast s hs fun hbig => List.length_eq_zero_iff.mp ?_
      have hcap : 0 < bufCapacity := by decide
      omega

theorem writeRecords_appended (rs : List Wal.Record) (hs : s0.Appended p s) :
    Triple (writeRecords rs) s (fun _ => s0.Appended (p ++ Wal.encodeRecords Wal.calculateChecksum rs))
      (fun _ s' => s0.world.faults ≠ [] ∧
        ∃ q, q <+: Wal.encodeRecords Wal.calculateChecksum rs ∧ s0.Appended (p ++ q) s') := by
  induction rs generalizing p s with
  | nil => exact Triple.pure (by rw [Wal.encodeRecords_nil, List.append_nil]; exact hs)
  | cons r rs ih =>
    rw [Wal.encodeRecords_cons]
    refine ((writeAll_appended hs).mono (fun _ _ => id) ?_).bind fun _ s1 h1 => ?_
    · rintro _ s1 ⟨hf, q, hq, h1⟩
      exact ⟨hf, q, hq.trans (List.prefix_append _ _), h1⟩
    · refine (ih h1).mono (fun _ s2 h2 => by rwa [← List.append_assoc]) ?_
      rintro _ s2 ⟨hf, q, hq, h2⟩
      exact ⟨hf, _ ++ q, (List.prefix_append_right_inj _).mpr hq, by rwa [← List.append_assoc]⟩

theorem walAppend_appended (entry : Bytes) (stamp : Nat) (hs : s0.Appended p s) :
    Triple (walAppend entry stamp) s (fun _ => s0.Appended (p ++ Wal.append Wal.calculateChecksum entry))
      (fun _ s' => s0.world.faults ≠ [] ∧
        ∃ q, q <+: Wal.append Wal.calculateChecksum entry ∧ s0.Appended (p ++ q) s') := by
  have hmark : s0.Appended p (s.markLog stamp) := hs.stamps (· ++ [stamp])
  have h := writeRecords_appended (Wal.appendRecords entry) hmark
  unfold Triple at h ⊢
  unfold walAppend
  cases hr : writeRecords (Wal.appendRecords entry) (s.markLog stamp) with
  | ok u s' => rw [hr] at h; exact h
  | error e s' =>
    rw [hr] at h
    obtain ⟨hf, q, hq, h⟩ := h
    refine ⟨hf, q, hq, ?_⟩
    split
    · exact h.stamps List.dropLast
    · exact h

def logEntries (ops : List WriteOp) : Bytes :=
  Wal.appendAll Wal.calculateChecksum (ops.map WriteOp.encode)

@[simp] theorem logEntries_nil : logEntries [] = [] := rfl

@[simp] theorem logEntries_cons (op : WriteOp) (ops : List WriteOp) :
    logEntries (op :: ops) = Wal.append Wal.calculateChecksum op.encode ++ logEntries ops := rfl

theorem logEntries_append (ops ops' : List WriteOp) :
    logEntries (ops ++ ops') = logEntries ops ++ logEntries ops' := by
  rw [logEntries, List.map_append, Wal.appendAll_append]
  rfl

theorem logOps_appended (ops : List WriteOp) (stamp : Nat) (hs : s0.Appended p s) :
    Triple (logOps stamp ops) s (fun _ => s0.Appended (p ++ logEntries ops))
      (fun _ s' => s0.world.faults ≠ [] ∧ ∃ q, q <+: logEntries ops ∧ s0.Appended (p ++ q) s') := by
  induction ops generalizing p s stamp with
  | nil => exact Triple.pure (by rw [logEntries_nil, List.append_nil]; exact hs)
  | cons op ops ih =>
    rw [logEntries_cons]
    refine ((walAppend_appended op.encode stamp hs).mono (fun _ _ => id) ?_).bind fun _ s1 h1 => ?_
    · rintro _ s1 ⟨hf, q, hq, h1⟩
      exact ⟨hf, q, hq.trans (List.prefix_append _ _), h1⟩
    · refine (ih (stamp + 1) h1).mono (fun _ s2 h2 => by rwa [← List.append_assoc]) ?_
      rintro _ s2 ⟨hf, q, hq, h2⟩
      exact ⟨hf, _ ++ q, (List.prefix_append_right_inj _).mpr hq, by rwa [← List.append_assoc]⟩

theorem passiveOp_appended (hs : s0.Appended p s) :
    Triple (onWorld passiveOp) s (fun _ s' => s0.Appended p s' ∧ s'.db = s.db)
      (fun _ s' => s0.world.faults ≠ [] ∧ s0.Appended p s') := by
  obtain ⟨db, ⟨disk, faults, unreadable, len, arcs, writes, handed⟩⟩ := s
  cases faults with
  | nil => exact ⟨hs, rfl⟩
  | cons f fs =>
    have hcalm : s0.world.faults ≠ [] := fun hc => (nomatch hs.calm hc)
    have hnext : s0.Appended p ⟨db, ⟨disk, fs, unreadable, len, arcs, writes, handed⟩⟩ :=
      hs.faults fun hc => absurd hc hcalm
    cases f with
    | none => exact ⟨hnext, rfl⟩
    | fail k => exact ⟨hcalm, hnext⟩
    | crash k => exact ⟨hcalm, hnext⟩

theorem walSync_appended (hs : s0.Appended p s) :
    Triple walSync s (fun _ s' => s0.Appended p s' ∧ s'.db.wal.buffer = [])
      (fun _ s' => s0.world.faults ≠ [] ∧ s0.Appended p s') := by
  refine (flushBuf_appended hs).bind fun _ s1 h1 => ?_
  refine (passiveOp_appended h1.1).mono (fun _ s2 h2 => ⟨h2.1, ?_⟩) (fun _ _ => id)
  rw [h2.2]
  exact h1.2

theorem logAndSync_appended (ops : List WriteOp) (stamp : Nat) (s : Sys) (hwal : s.db.options.useWal = true) :
    Triple (logAndSync stamp ops) s
      (fun _ s' => s.Appended (logEntries ops) s' ∧ (s.db.options.syncWal = true → s'.db.wal.buffer = []))
      (fun _ s' => s.world.faults ≠ [] ∧ ∃ q, q <+: logEntries ops ∧ s.Appended q s') := by
  unfold logAndSync
  refine Triple.get_bind ?_
  dsimp only
  rw [if_pos hwal]
  refine (logOps_appended ops stamp (.refl s)).bind fun _ s1 h1 => ?_
  split
  · refine (walSync_appended h1).mono (fun _ s2 h2 => ⟨h2.1, fun _ => h2.2⟩) ?_
    exact fun _ s2 h2 => ⟨h2.1, _, List.prefix_refl _, h2.2⟩
  · rename_i hsync
    exact Triple.pure ⟨h1, fun h => absurd h hsync⟩

-- ---------------------------------------------------------------------------
-- The history of the log
-- ---------------------------------------------------------------------------

/-- The history of the log changes by marks only. -/
def Sys.Stamped (n : Nat) (stamps : List Nat) (s : Sys) : Prop := s.db.wal.number = n ∧ s.logFile.stamps = stamps

section Stamps

variable {stamps : List Nat} {n : Nat}

theorem Sys.Stamped.appendLog {s : Sys} (h : s.Stamped n stamps) (bytes : Bytes) : (s.appendLog bytes).Stamped n stamps :=
  ⟨h.1, by rw [Sys.logFile_appendLog]; exact h.2⟩

theorem Sys.Stamped.markLog {s : Sys} (h : s.Stamped n stamps) (stamp : Nat) :
    (s.markLog stamp).Stamped n (stamps ++ [stamp]) := by
  refine ⟨h.1, ?_⟩
  simp only [Sys.logFile, Sys.markLog, onDisk, Disk.modifyLog, AList.lookup_insert, Option.getD_some]
  rw [← h.2]
  rfl

theorem stamped_rule : WriterRule (Sys.Stamped n stamps) where
  fault _ _ _ h _ := h
  append _ _ h := h.appendLog _
  buffer _ _ h := h

theorem logOps_stamped (ops : List WriteOp) (stamp : Nat) {s : Sys} (hs : s.Stamped n stamps) :
    Triple (logOps stamp ops) s (fun _ => Sys.Stamped n (stamps ++ List.range' stamp ops.length)) fun _ _ => True := by
  induction ops generalizing s stamp stamps with
  | nil => exact Triple.pure (by simpa using hs)
  | cons op ops ih =>
    have happend : Triple (walAppend op.encode stamp) s (fun _ => Sys.Stamped n (stamps ++ [stamp])) fun _ _ => True := by
      refine Triple.returns fun _ s' hr => ?_
      unfold walAppend at hr
      have hrecords := stamped_rule.writeRecords (Wal.appendRecords op.encode) _ (hs.markLog stamp)
      cases hw : writeRecords (Wal.appendRecords op.encode) (s.markLog stamp) with
      | ok u s1 =>
        rw [hw] at hr
        cases hr
        exact hrecords.ok hw
      | error e s1 =>
        rw [hw] at hr
        cases hr
    refine happend.bind fun _ s1 h1 => (ih (stamp + 1) h1).mono (fun _ s2 h2 => ?_) fun _ _ => id
    rwa [List.append_assoc, List.singleton_append, ← List.range'_succ] at h2

theorem logAndSync_stamped (ops : List WriteOp) (stamp : Nat) (s : Sys) (hwal : s.db.options.useWal = true) :
    Triple (logAndSync stamp ops) s
      (fun _ => Sys.Stamped s.db.wal.number (s.logFile.stamps ++ List.range' stamp ops.length)) fun _ _ => True := by
  unfold logAndSync
  refine Triple.get_bind ?_
  dsimp only
  rw [if_pos hwal]
  refine (logOps_stamped ops stamp ⟨rfl, rfl⟩).bind fun _ s1 h1 => ?_
  split
  · exact (stamped_rule.walSync s1 h1).mono (fun _ _ => id) fun _ _ _ => trivial
  · exact Triple.pure h1

end Stamps

-- ---------------------------------------------------------------------------
-- Writes
-- ---------------------------------------------------------------------------

theorem Sys.LogGrew.bump (h : (s0.bump n).LogGrew p s) : s0.LogGrew p s :=
  ⟨h.number, h.walFileNumber, h.members, h.others, h.bytes, h.file⟩

theorem Sys.LogGrew.of_wal {s' : Sys} (h : s0.LogGrew p s) (hwal : s'.db.wal = s.db.wal)
    (hcounter : s'.db.walFileNumber = s.db.walFileNumber) (hlogs : s'.world.disk.logs = s.world.disk.logs) : s0.LogGrew p s' where
  number := by rw [hwal]; exact h.number
  walFileNumber := hcounter.trans h.walFileNumber
  members := by rw [hlogs]; exact h.members
  others := by rw [hlogs]; exact h.others
  bytes := by rw [Sys.logFile, hwal, hlogs]; exact h.bytes
  file := by
    have hfile := h.file
    rw [Sys.logFile, Sys.logFile] at hfile ⊢
    rw [hwal, hlogs]
    exact hfile

theorem freezeIfFull_wal (s : Sys) :
    Triple freezeIfFull s (fun _ s' => s'.db.wal = s.db.wal ∧ s'.db.walFileNumber = s.db.walFileNumber ∧
      s'.world = s.world) (fun _ _ => False) := by
  unfold AiDb.freezeIfFull
  refine Triple.get_bind ?_
  dsimp only
  split
  · exact Triple.modify ⟨rfl, rfl, rfl⟩
  · exact Triple.pure ⟨rfl, rfl, rfl⟩

theorem Call.run_logGrew {c : Call} (hc : c.IsWrite) (s : Sys) (hwal : s.db.options.useWal = true) :
    Triple c.run s
      (fun _ s' => s.LogGrew (logEntries c.ops) s' ∧
        (s.db.options.syncWal = true → c.ops ≠ [] ∨ s.db.wal.buffer = [] → s'.db.wal.buffer = []))
      (fun _ s' => s.world.faults ≠ [] ∧ ∃ q, q <+: logEntries c.ops ∧ s.LogGrew q s') := by
  -- the three calls log in the same way, with the sequence numbers already taken
  have hlog : ∀ ops, Triple (logAndSync s.world.writes ops) (s.bump ops.length)
      (fun _ s' => s.LogGrew (logEntries ops) s' ∧ (s.db.options.syncWal = true → s'.db.wal.buffer = []))
      (fun _ s' => s.world.faults ≠ [] ∧ ∃ q, q <+: logEntries ops ∧ s.LogGrew q s') := by
    intro ops
    refine (logAndSync_appended ops s.world.writes (s.bump ops.length) hwal).mono ?_ ?_
    · exact fun _ s' h => ⟨h.1.toLogGrew.bump, h.2⟩
    · rintro _ s' ⟨hf, q, hq, h⟩
      exact ⟨hf, q, hq, h.toLogGrew.bump⟩
  cases c with
  | put key value =>
    unfold Call.run AiDb.put
    show Triple (logAndSync s.world.writes [.put key value] >>= fun _ => _) (s.bump 1) _ _
    refine (hlog [.put key value]).bind fun _ s1 h1 => Triple.modify_bind ?_
    refine (freezeIfFull_wal _).mono (fun _ s2 h2 => ⟨h1.1.of_wal h2.1 h2.2.1 (by rw [h2.2.2]), ?_⟩) fun _ _ => False.elim
    intro hsync _
    rw [h2.1]
    exact h1.2 hsync
  | delete key =>
    unfold Call.run AiDb.delete
    show Triple (logAndSync s.world.writes [.delete key] >>= fun _ => _) (s.bump 1) _ _
    refine (hlog [.delete key]).bind fun _ s1 h1 => Triple.modify ⟨h1.1.of_wal rfl rfl rfl, fun hsync _ => ?_⟩
    exact h1.2 hsync
  | write batch =>
    by_cases hb : batch = []
    · subst hb
      exact Triple.pure ⟨(Sys.Appended.refl s).toLogGrew, fun _ h => h.resolve_left (by simp [Call.ops])⟩
    · show Triple (AiDb.write batch) s _ _
      unfold AiDb.write
      rw [if_neg hb]
      show Triple (logAndSync s.world.writes batch >>= fun _ => _) (s.bump batch.length) _ _
      refine (hlog batch).bind fun _ s1 h1 => Triple.modify_bind ?_
      refine (freezeIfFull_wal _).mono (fun _ s2 h2 => ⟨h1.1.of_wal h2.1 h2.2.1 (by rw [h2.2.2]), ?_⟩) fun _ _ => False.elim
      intro hsync _
      rw [h2.1]
      exact h1.2 hsync
  | _ => exact hc.elim

-- ---------------------------------------------------------------------------
-- The log on disk
-- ---------------------------------------------------------------------------

theorem foldl_max_iff (l : List Nat) (a b : Nat) :
    l.foldl max a = b ↔ (b = a ∨ b ∈ l) ∧ a ≤ b ∧ ∀ x ∈ l, x ≤ b := by
  induction l generalizing a with
  | nil => simp; omega
  | cons x l ih =>
    rw [List.foldl_cons, ih]
    simp only [List.mem_cons, forall_eq_or_imp]
    constructor
    · rintro ⟨hb, hle, hall⟩
      refine ⟨?_, by omega, by omega, hall⟩
      rcases hb with hb | hb
      · rcases Nat.le_total a x with h | h
        · exact .inr (.inl (by omega))
        · exact .inl (by omega)
      · exact .inr (.inr hb)
    · rintro ⟨hb, ha, hx, hall⟩
      refine ⟨?_, by omega, hall⟩
      rcases hb with hb | hb | hb
      · exact .inl (by omega)
      · exact .inl (by omega)
      · exact .inr hb

theorem le_latestWal {d : Disk} (h : n ∈ d.logs) : n ≤ latestWal d :=
  ((foldl_max_iff d.logs.keys 1 _).mp rfl).2.2 n h

theorem latestWal_eq {d : Disk} (hmem : n ∈ d.logs) (hpos : 1 ≤ n) (hle : ∀ m ∈ d.logs, m ≤ n) : latestWal d = n :=
  (foldl_max_iff d.logs.keys 1 n).mpr ⟨.inr hmem, hpos, hle⟩

theorem latestWal_congr {d d' : Disk} (h : ∀ n, n ∈ d'.logs ↔ n ∈ d.logs) : latestWal d' = latestWal d := by
  have hd := (foldl_max_iff d.logs.keys 1 _).mp rfl
  refine (foldl_max_iff d'.logs.keys 1 _).mpr ⟨hd.1.imp_right (h _).mpr, hd.2.1, fun x hx => ?_⟩
  exact hd.2.2 x ((h x).mp hx)

/-- The file of the current log, which is the one the next open replays. -/
structure Sys.LogIs (s : Sys) (bytes : Bytes) : Prop where
  latest : s.db.wal.number = latestWal s.world.disk
  exists_file : s.db.wal.number ∈ s.world.disk.logs
  bytes : s.logFile.bytes = bytes

/-- The log holds the entries of the operations, all of them in the file. -/
structure Sys.Logged (s : Sys) (ops : List WriteOp) : Prop extends s.LogIs (logEntries ops) where
  buffer : s.db.wal.buffer = []

theorem Sys.LogIs.replayedLog (h : s.LogIs log) : s.world.disk.replayedLog.bytes = log := by
  rw [Disk.replayedLog, ← h.latest]
  exact h.bytes

theorem Sys.LogGrew.logIs (h : s0.LogGrew p s) (h0 : s0.LogIs log0) (hb : s.logFile.bytes = log) :
    s.LogIs log where
  latest := by rw [h.number, h0.latest, latestWal_congr (h.members h0.exists_file)]
  exists_file := by
    rw [h.number, h.members h0.exists_file]
    exact h0.exists_file
  bytes := hb

/-- A write that returns has its entries on disk; one that stops leaves a prefix
of them. -/
theorem Sys.Logged.call (h : s.Logged ops) (hwal : s.db.options.useWal = true) (hsync : s.db.options.syncWal = true)
    {c : Call} (hc : c.IsWrite) :
    Triple c.run s (fun _ s' => s'.Logged (ops ++ c.ops))
      (fun _ s' => s.world.faults ≠ [] ∧ ∃ q, q <+: logEntries c.ops ∧ s'.LogIs (logEntries ops ++ q)) := by
  refine (Call.run_logGrew hc s hwal).mono ?_ ?_
  · rintro _ s' ⟨hgrew, hbuf⟩
    have hb := hgrew.bytes
    rw [hbuf hsync (.inr h.buffer), h.buffer, List.append_nil, List.append_nil, h.bytes, ← logEntries_append] at hb
    exact ⟨hgrew.logIs h.toLogIs hb, hbuf hsync (.inr h.buffer)⟩
  · rintro _ s' ⟨hf, q, hq, hgrew⟩
    -- what left the buffer is a prefix of what was given to it
    obtain ⟨q', hq'⟩ := hgrew.file
    have hb := hgrew.bytes
    rw [h.buffer, List.append_nil, ← hq', List.append_assoc, List.append_cancel_left_eq] at hb
    refine ⟨hf, q', List.IsPrefix.trans ⟨s'.db.wal.buffer, hb⟩ hq, hgrew.logIs h.toLogIs ?_⟩
    rw [← hq', h.bytes]

-- ---------------------------------------------------------------------------
-- Programs that leave the log alone
-- ---------------------------------------------------------------------------

def World.SameLogs (w0 w : World) : Prop :=
  w.disk.logs = w0.disk.logs ∧ (w0.faults = [] → w.faults = [])

structure Sys.SameLog (s0 s : Sys) : Prop where
  wal : s.db.wal = s0.db.wal
  walFileNumber : s.db.walFileNumber = s0.db.walFileNumber
  options : s.db.options = s0.db.options
  world : s0.world.SameLogs s.world

theorem Sys.SameLog.refl (s : Sys) : s.SameLog s := ⟨rfl, rfl, rfl, rfl, id⟩

variable {w0 : World}

theorem atomicOp_sameLogs {f : Disk → Disk} (hf : ∀ d, (f d).logs = d.logs) : Keeps w0.SameLogs (atomicOp f) := by
  rintro w ⟨hlogs, hcalm⟩
  have h := atomicOp_spec f (.refl w)
  refine h.mono ?_ ?_
  · exact fun _ w' h' => ⟨by rw [h'.disk_eq, hf, hlogs], fun hc => h'.calm (hcalm hc)⟩
  · exact fun _ w' h' => ⟨by rw [h'.2.disk_eq, hlogs], fun hc => absurd (hcalm hc) h'.1⟩

theorem passiveOp_sameLogs : Keeps w0.SameLogs passiveOp := atomicOp_sameLogs fun _ => rfl

theorem createSst_sameLogs : Keeps w0.SameLogs (createSst n) := by
  refine atomicOp_sameLogs fun d => ?_
  unfold Disk.createSst
  split <;> rfl

theorem finishSst_sameLogs : Keeps w0.SameLogs (finishSst n f) := by
  refine atomicOp_sameLogs fun d => ?_
  unfold Disk.finishSst
  split <;> rfl

theorem removeSstIfExists_sameLogs : Keeps w0.SameLogs (removeSstIfExists n) :=
  Keeps.get.bind fun _ => Keeps.ite (atomicOp_sameLogs fun _ => rfl) Keeps.pure

theorem liftExcept_sameLogs {x : Except Error α} : Keeps w0.SameLogs (liftExcept x) := by
  cases x with
  | ok a => exact Keeps.pure
  | error e => exact Keeps.throw

theorem openWithCache_sameLogs : Keeps w0.SameLogs (openWithCache n) := by
  refine passiveOp_sameLogs.bind fun _ => Keeps.get.bind fun w => ?_
  split
  · exact Keeps.throw
  · split
    · refine Keeps.bind (Keeps.modify ?_) fun _ => Keeps.pure
      exact fun _ h => h
    · exact Keeps.throw

theorem addEntries_sameLogs (es : List Entry) (b : SSTableBuilder) : Keeps w0.SameLogs (addEntries b es) := by
  induction es generalizing b with
  | nil => exact Keeps.pure
  | cons e es ih =>
    refine Keeps.bind ?_ ih
    refine Keeps.get.bind fun _ => liftExcept_sameLogs.bind fun _ => ?_
    exact Keeps.ite (passiveOp_sameLogs.bind fun _ => Keeps.pure) Keeps.pure

theorem writeTable_sameLogs {entries : List Entry} : Keeps w0.SameLogs (writeTable n blockSize compression entries) :=
  (addEntries_sameLogs entries _).bind fun _ =>
    Keeps.ite removeSstIfExists_sameLogs (Keeps.get.bind fun _ => finishSst_sameLogs)

theorem runJob_sameLogs : Keeps w0.SameLogs (runJob inputs outputLevel blockSize fileNumber) :=
  Keeps.get.bind fun _ => liftExcept_sameLogs.bind fun _ => createSst_sameLogs.bind fun _ =>
    Keeps.get.bind fun _ => writeTable_sameLogs.bind fun _ => Keeps.pure

theorem writeManifest_sameLogs : Keeps w0.SameLogs (writeManifest p) := by
  rintro w ⟨hlogs, hcalm⟩
  refine (writeManifest_at p (.refl w)).mono (fun _ w' hat => ?_) ?_
  · exact ⟨by rw [hat.disk_eq, ← hlogs]; rfl, fun hc => hat.calm (hcalm hc)⟩
  · rintro _ w' ⟨hf, n, hat⟩
    exact ⟨by rw [hat.disk_eq, ← hlogs]; rfl, fun hc => absurd (hcalm hc) hf⟩

theorem removeInputs_sameLogs (rs : List SSTableReader) : Keeps w0.SameLogs (removeInputs rs) := by
  induction rs with
  | nil => exact Keeps.pure
  | cons r rs ih => exact removeSstIfExists_sameLogs.bind fun _ => ih

theorem onWorld_sameLog {m : W α} (hm : Keeps s0.world.SameLogs m) : Keeps s0.SameLog (onWorld m) := by
  intro s hs
  refine (onWorld_spec (hm s.world hs.world)).mono ?_ ?_
  · exact fun _ s' h => ⟨by rw [h.1]; exact hs.wal, by rw [h.1]; exact hs.walFileNumber,
      by rw [h.1]; exact hs.options, h.2⟩
  · exact fun _ s' h => ⟨by rw [h.1]; exact hs.wal, by rw [h.1]; exact hs.walFileNumber,
      by rw [h.1]; exact hs.options, h.2⟩

theorem modifyDb_sameLog {f : DB → DB} (hf : ∀ db, (f db).wal = db.wal ∧ (f db).walFileNumber = db.walFileNumber ∧
    (f db).options = db.options) : Keeps s0.SameLog (modifyDb f) :=
  Keeps.modify fun s hs => ⟨(hf s.db).1.trans hs.wal, (hf s.db).2.1.trans hs.walFileNumber,
    (hf s.db).2.2.trans hs.options, hs.world⟩

theorem takeFileNumber_sameLog : Keeps s0.SameLog takeFileNumber :=
  fun _ hs => ⟨hs.wal, hs.walFileNumber, hs.options, hs.world⟩

theorem flushMemtableToSstable_sameLog (m : MemTable) : Keeps s0.SameLog (flushMemtableToSstable m) := by
  refine takeFileNumber_sameLog.bind fun _ => Keeps.get.bind fun _ => ?_
  refine (onWorld_sameLog createSst_sameLogs).bind fun _ => (onWorld_sameLog writeTable_sameLogs).bind fun _ => ?_
  refine Keeps.ite Keeps.pure ((onWorld_sameLog openWithCache_sameLogs).bind fun _ => ?_)
  refine Keeps.bind (modifyDb_sameLog ?_) fun _ => Keeps.pure
  exact fun _ => ⟨rfl, rfl, rfl⟩

theorem flushMemtables_sameLog : Keeps s0.SameLog flushMemtables := by
  intro s hs
  have hfrozen : s0.SameLog s.frozen := by
    unfold Sys.frozen
    split
    · exact hs
    · exact ⟨hs.wal, hs.walFileNumber, hs.options, hs.world⟩
  refine flushMemtables_eq (flushImmutables_rule ?_ _ hfrozen)
  intro s m rest hs _
  exact flushMemtableToSstable_sameLog m _ ⟨hs.wal, hs.walFileNumber, hs.options, hs.world⟩

theorem logEdit_sameLog : Keeps s0.SameLog (logEdit e) := by
  refine Keeps.get.bind fun s => ?_
  split
  · exact Keeps.throw
  · refine Keeps.bind (modifyDb_sameLog ?_) fun _ => ?_
    · exact fun _ => ⟨rfl, rfl, rfl⟩
    · exact (onWorld_sameLog writeManifest_sameLogs).bind fun _ => onWorld_sameLog writeManifest_sameLogs

theorem logDeletes_sameLog (level : Nat) (rs : List SSTableReader) : Keeps s0.SameLog (logDeletes level rs) := by
  induction rs with
  | nil => exact Keeps.pure
  | cons r rs ih => exact logEdit_sameLog.bind fun _ => ih

theorem compact_sameLog (task : CompactionTask) : Keeps s0.SameLog (compact task) := by
  refine takeFileNumber_sameLog.bind fun _ => Keeps.get.bind fun _ => (onWorld_sameLog runJob_sameLogs).bind fun _ => ?_
  refine Keeps.ite Keeps.pure ((onWorld_sameLog openWithCache_sameLogs).bind fun _ => Keeps.get.bind fun _ => ?_)
  refine (onWorld_sameLog liftExcept_sameLogs).bind fun _ => ?_
  split
  · refine logEdit_sameLog.bind fun _ => (logDeletes_sameLog _ _).bind fun _ => Keeps.get.bind fun _ => ?_
    refine Keeps.get.bind fun _ => Keeps.ite ?_ Keeps.throw
    refine Keeps.bind (modifyDb_sameLog ?_) fun _ => onWorld_sameLog (removeInputs_sameLogs _)
    exact fun _ => ⟨rfl, rfl, rfl⟩
  · exact Keeps.throw

theorem maybeTriggerCompaction_sameLog : Keeps s0.SameLog maybeTriggerCompaction := by
  refine Keeps.get.bind fun _ => ?_
  dsimp only
  split
  · exact Keeps.throw
  · exact Keeps.pure
  · exact compact_sameLog _

-- ---------------------------------------------------------------------------
-- A new log
-- ---------------------------------------------------------------------------

theorem ignoreError_flushBuf (s : Sys) :
    Triple (ignoreError flushBuf) s (fun _ s' => s.Appended [] s')
      (fun e s' => (∀ err, e ≠ .error err) ∧ s.world.faults ≠ [] ∧ s.Appended [] s') := by
  have h := flushBuf_appended (.refl s)
  unfold Triple at h ⊢
  unfold ignoreError
  cases hr : flushBuf s with
  | ok u s' => rw [hr] at h; exact h.1
  | error e s' =>
    rw [hr] at h
    cases e with
    | error _ => exact h.2
    | panic => exact ⟨nofun, h⟩
    | crash => exact ⟨nofun, h⟩

theorem removeLogIfExists_spec {w w' : World} (n : Nat) (h : w.At d w') :
    Triple (removeLogIfExists n) w' (fun _ => w.At { d with logs := d.logs.erase n })
      (fun _ w'' => w.faults ≠ [] ∧ w.At d w'') := by
  unfold removeLogIfExists
  refine Triple.get_bind ?_
  split
  · exact atomicOp_spec _ h
  · rename_i hn
    rw [h.disk_eq] at hn
    have herase : d.logs.erase n = d.logs := AList.ext (List.kerase_of_notMem_keys hn)
    exact Triple.pure (by rwa [herase])

/-- How `rotate_wal` can end: with a new empty log; before the log was created, with
the old one; or with the process lost and both there. -/
theorem rotateWal_spec (h : s.LogIs log) (hn : s.db.wal.number ≤ s.db.walFileNumber) :
    Triple rotateWal s
      (fun _ s' => s'.Logged [] ∧ s'.db.wal.number ≤ s'.db.walFileNumber ∧ s'.db.options = s.db.options ∧
        (s.world.faults = [] → s'.world.faults = []))
      (fun e s' => s.world.faults ≠ [] ∧ s'.db.options = s.db.options ∧
        (s'.LogIs log ∧ s'.db.wal = s.db.wal ∧ s'.db.wal.number ≤ s'.db.walFileNumber ∨
          s'.Logged [] ∧ s'.db.wal.number ≤ s'.db.walFileNumber ∨
          (∀ err, e ≠ .error err) ∧ s'.world.disk.replayedLog.bytes = [])) := by
  have hle : ∀ m ∈ s.world.disk.logs, m ≤ s.db.wal.number := fun m hm => by
    rw [h.latest]
    exact le_latestWal hm
  have hnew : s.db.walFileNumber + 1 ∉ s.world.disk.logs := fun hm => by
    have := hle _ hm
    omega
  unfold rotateWal
  refine Triple.get_bind ?_
  dsimp only
  refine Triple.modify_bind ?_
  generalize hn' : s.db.walFileNumber + 1 = n at hnew ⊢
  refine ((onWorld_spec (atomicOp_spec _ (.refl _))).mono (fun _ _ => id) ?_).bind ?_
  · -- the new log was not created
    rintro e s1 ⟨hdb, hf, hat⟩
    refine ⟨hf, by rw [hdb], .inl ⟨?_, by rw [hdb], by rw [hdb]; show s.db.wal.number ≤ n; omega⟩⟩
    have hdisk : s1.world.disk = s.world.disk := hat.disk_eq
    refine ⟨?_, ?_, ?_⟩
    · rw [hdb, hdisk]; exact h.latest
    · rw [hdb, hdisk]; exact h.exists_file
    · rw [Sys.logFile, hdb, hdisk]; exact h.bytes
  rintro _ s1 ⟨hdb1, hat1⟩
  have hlogs1 : s1.world.disk.logs = s.world.disk.logs.insert n ⟨[], []⟩ := by
    rw [hat1.disk_eq]
    exact congrArg Disk.logs (if_neg hnew)
  have hmem1 : ∀ m, m ∈ s1.world.disk.logs ↔ m = n ∨ m ∈ s.world.disk.logs := fun m => by
    rw [hlogs1, AList.mem_insert]
  have hnumber1 : s1.db.wal.number = s.db.wal.number := by rw [hdb1]
  have hlt : s.db.wal.number < n := by omega
  refine Triple.get_bind ?_
  -- whatever happens to the old log from here on, the new one is the latest, and empty
  have hempty : ∀ s2 : Sys, s1.Appended [] s2 → s2.world.disk.logs.lookup n = some ⟨[], []⟩ ∧
      ∀ m, m ∈ s2.world.disk.logs ↔ m = n ∨ m ∈ s.world.disk.logs := by
    intro s2 h2
    refine ⟨?_, fun m => ?_⟩
    · rw [h2.others n (by rw [hnumber1]; omega), hlogs1, AList.lookup_insert]
    · rw [h2.members (by rw [hmem1, hnumber1]; exact .inr h.exists_file), hmem1]
  have hopts1 : ∀ s2 : Sys, s1.Appended [] s2 → s2.db.options = s.db.options ∧ s2.db.walFileNumber = n := by
    intro s2 h2
    refine ⟨?_, by rw [h2.walFileNumber, hdb1]⟩
    obtain ⟨wal, m, logs, faults, -, rfl⟩ := h2.logs
    rw [hdb1]
  refine ((ignoreError_flushBuf s1).mono (fun _ _ => id) ?_).bind ?_
  · rintro e s2 ⟨hne, hf, h2⟩
    obtain ⟨hlookup, hmem2⟩ := hempty s2 h2
    refine ⟨fun hc => hf (hat1.calm hc), (hopts1 s2 h2).1, .inr (.inr ⟨hne, ?_⟩)⟩
    have hlatest : latestWal s2.world.disk = n :=
      latestWal_eq ((hmem2 n).mpr (.inl rfl)) (by omega) fun m hm => by
        rcases (hmem2 m).mp hm with rfl | hm
        · exact le_refl _
        · have := hle m hm
          omega
    rw [Disk.replayedLog, hlatest, hlookup]
    rfl
  rintro _ s2 h2
  obtain ⟨hlookup, hmem2⟩ := hempty s2 h2
  refine Triple.modify_bind ?_
  -- removing the old log, or failing to
  have hdone : ∀ s3 : Sys, s3.db = { s2.db with wal := ⟨n, []⟩ } →
      s3.world.disk.logs.lookup n = some ⟨[], []⟩ → (∀ m ∈ s3.world.disk.logs, m ∈ s2.world.disk.logs) →
      s3.Logged [] ∧ s3.db.wal.number ≤ s3.db.walFileNumber := by
    intro s3 hdb3 hlookup3 hmem3
    have hexists : n ∈ s3.world.disk.logs := AList.lookup_isSome.mp (by rw [hlookup3]; rfl)
    have hnumber3 : s3.db.wal.number = n := by rw [hdb3]
    refine ⟨⟨⟨?_, by rwa [hnumber3], ?_⟩, by rw [hdb3]⟩, ?_⟩
    · rw [hnumber3]
      refine (latestWal_eq hexists (by omega) fun m hm => ?_).symm
      rcases (hmem2 m).mp (hmem3 m hm) with rfl | hm
      · exact le_refl _
      · have := hle m hm
        omega
    · rw [Sys.logFile, hnumber3, hlookup3]
      rfl
    · rw [hnumber3, hdb3]
      exact le_of_eq (hopts1 s2 h2).2.symm
  have hcalm2 : s.world.faults = [] → s2.world.faults = [] := fun hc => h2.calm (hat1.calm hc)
  refine (onWorld_spec (removeLogIfExists_spec s1.db.wal.number (.refl _))).mono ?_ ?_
  · rintro _ s3 ⟨hdb3, hat3⟩
    have hne : n ≠ s1.db.wal.number := by rw [hnumber1]; omega
    obtain ⟨hlogged, hcount⟩ := hdone s3 hdb3 (by rw [hat3.disk_eq, AList.lookup_erase_ne hne]; exact hlookup) fun m hm => by
      rw [hat3.disk_eq, AList.mem_erase] at hm
      exact hm.2
    exact ⟨hlogged, hcount, by rw [hdb3]; exact (hopts1 s2 h2).1, fun hc => hat3.calm (hcalm2 hc)⟩
  · rintro e s3 ⟨hdb3, hf, hat3⟩
    obtain ⟨hlogged, hcount⟩ := hdone s3 hdb3 (by rw [hat3.disk_eq]; exact hlookup) fun m hm => by
      rwa [hat3.disk_eq] at hm
    exact ⟨fun hc => hf (hcalm2 hc), by rw [hdb3]; exact (hopts1 s2 h2).1, .inr (.inl ⟨hlogged, hcount⟩)⟩

end AiDb
