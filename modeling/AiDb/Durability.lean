import AiDb.Flushing

/-!
# Durability beside a flush

What a crash leaves is the latest log and the complete tables. A write is in the log
before it is in a memtable; a flush writes the memtables out and then puts an empty
log in the place of the old one.
-/

namespace AiDb

open Library Compaction

variable {s s' : Shared} {threads : List Thread} {t t' : Thread} {i : Nat} {op : WriteOp}

-- ---------------------------------------------------------------------------
-- Tables on disk
-- ---------------------------------------------------------------------------

/-- A complete table file has a version of the key that was written at `stamp` or
later. -/
def Disk.TableHolds (d : Disk) (key : Bytes) (stamp : Nat) : Prop :=
  ∃ n file f, d.ssts.lookup n = some file ∧ d.files[file]? = some (.complete f) ∧
    ∃ e ∈ f.entries, e.key = key ∧ stamp ≤ e.value.stamp

theorem Disk.Written.tableHolds {d d' : Disk} (h : d.Written n es d') (hn : n ∉ d.ssts)
    (ht : d.TableHolds key stamp) : d'.TableHolds key stamp := by
  obtain ⟨more, hfiles⟩ := h.files_eq hn
  obtain ⟨m, file, f, hm, hf, he⟩ := ht
  have hmn : m ≠ n := by
    rintro rfl
    exact hn (AList.lookup_isSome.mp (by rw [hm]; rfl))
  refine ⟨m, file, f, ?_, by rw [hfiles]; exact getElem?_append_some hf more, he⟩
  cases h with
  | untouched => exact hm
  | created => rw [Disk.createSst_unused hn, AList.lookup_insert_ne hmn]; exact hm
  | abandoned =>
    rw [Disk.removeSst, Disk.createSst_unused hn, AList.lookup_erase_ne hmn, AList.lookup_insert_ne hmn]
    exact hm
  | finished => rw [Disk.withSst_unused hn, AList.lookup_insert_ne hmn]; exact hm

theorem flushMemtableToSstable_written (m : MemTable) (s : Sys) :
    Triple (flushMemtableToSstable m) s (fun _ s' => s.world.disk.Written s.db.nextFileNumber m.table s'.world.disk)
      (fun _ s' => s.world.disk.Written s.db.nextFileNumber m.table s'.world.disk) := by
  refine (flushMemtableToSstable_spec m s).mono ?_ ?_
  · rintro _ s' (⟨hes, -, hat⟩ | ⟨hes, f, r, hwf, hentries, -, hat, -⟩)
    · rw [hat.disk_eq]
      exact .abandoned hes
    · rw [hat.disk_eq]
      exact .finished hes hwf hentries
  · rintro _ s' ⟨-, d, hw, hat⟩
    rw [hat.disk_eq]
    exact hw

theorem tableHolds_mono (hm : s.Moves t s' t') (hs : s.sys.Serving) (h : s.sys.world.disk.TableHolds key stamp) :
    s'.sys.world.disk.TableHolds key stamp := by
  by_cases hw : ∃ m, t = .flush (.writing m)
  · obtain ⟨m, rfl⟩ := hw
    cases hm with
    | install hr => exact ((flushMemtableToSstable_written m s.sys).ok hr).tableHolds hs.numbered.next_unused h
    | notInstalled hr => exact ((flushMemtableToSstable_written m s.sys).error hr).tableHolds hs.numbered.next_unused h
  · have hk := hm.tablesKept fun m heq => hw ⟨m, heq⟩
    unfold Disk.TableHolds
    rw [hk.ssts, hk.files]
    exact h

theorem tableHolds_of_flush {s s' : Sys} {m : MemTable} {ops : List WriteOp} (hs : s.Serving)
    (hr : flushMemtableToSstable m s = .ok n s') (hof : m.Of ops) (he : op.entry i ∈ m.iter) :
    s'.world.disk.TableHolds op.key i := by
  -- the newest version of the key is the one in the table
  obtain ⟨e, hmem, hkey, hstamp⟩ : ∃ e ∈ m.table, e.key = op.key ∧ i ≤ e.value.stamp := by
    cases hnew : m.newest op.key ⊤ with
    | none => exact absurd le_top (MemTable.newest_eq_none.mp hnew _ he rfl)
    | some x =>
      obtain ⟨hx, -, hleast⟩ := MemTable.newest_eq_some.mp hnew
      obtain ⟨j, op', hop', rfl⟩ := hof x hx
      have hij : i ≤ j := by
        have hle := hleast _ he rfl le_top
        rw [← not_lt, InternalKey.lt_iff] at hle
        by_contra hlt
        refine hle (.inr ⟨(MemTable.newest_eq_some.mp hnew).2.1.1.symm, .inl ?_⟩)
        show ((j + 1 : ℕ) : Sequence) < ((i + 1 : ℕ) : Sequence)
        exact_mod_cast Nat.succ_lt_succ (not_le.mp hlt)
      have hstored : stored m.table op.key = some (op'.entry j).2 := by
        rw [m.stored_table, MemTable.version, hnew]
        rfl
      obtain ⟨e, he, hvalue⟩ := Option.map_eq_some_iff.mp hstored
      refine ⟨e, List.mem_of_find?_eq_some he, by simpa using List.find?_some he, ?_⟩
      rw [hvalue]
      cases op' <;> exact hij
  have hne : m.table ≠ [] := List.ne_nil_of_mem hmem
  have hunused := hs.numbered.next_unused
  rcases (flushMemtableToSstable_spec m s).ok hr with ⟨hes, -, -⟩ | ⟨-, f, r, -, hentries, -, hat, -⟩
  · exact absurd hes hne
  · refine ⟨s.db.nextFileNumber, s.world.disk.files.length, f, ?_, ?_, e, by rw [hentries]; exact hmem, hkey, hstamp⟩
    · rw [hat.disk_eq, Disk.withSst_unused hunused, AList.lookup_insert]
    · rw [hat.disk_eq, Disk.withSst_unused hunused]
      simp

-- ---------------------------------------------------------------------------
-- Logs
-- ---------------------------------------------------------------------------

/-- The log holds the entries of the operations that its history names, whole. -/
def LogFile.Of (log : LogFile) (ops : List WriteOp) : Prop :=
  log.bytes = logEntries (log.stamps.filterMap (ops[·]?)) ∧ ∀ i ∈ log.stamps, i < ops.length

theorem LogFile.of_empty : LogFile.Of ⟨[], []⟩ ops := ⟨rfl, fun _ h => (nomatch h)⟩

theorem LogFile.Of.append {log : LogFile} {ops : List WriteOp} (h : log.Of ops) (more : List WriteOp) :
    log.Of (ops ++ more) := by
  refine ⟨h.1.trans (congrArg logEntries (List.filterMap_congr fun i hi => ?_)), fun i hi => ?_⟩
  · rw [List.getElem?_append_left (h.2 i hi)]
  · rw [List.length_append]
    exact lt_of_lt_of_le (h.2 i hi) (Nat.le_add_right _ _)

theorem filterMap_range' {as bs : List α} (h : as <+: bs.drop n) :
    (List.range' n as.length).filterMap (bs[·]?) = as := by
  induction as generalizing n with
  | nil => rfl
  | cons a as ih =>
    rw [List.length_cons, List.range'_succ, List.filterMap_cons_some (getElem?_of_prefix_drop h),
      ih (prefix_drop_succ h)]

theorem LogFile.Of.extend {log log' : LogFile} {ops numbered : List WriteOp} (h : log.Of numbered)
    (hbytes : log'.bytes = log.bytes ++ logEntries ops)
    (hstamps : log'.stamps = log.stamps ++ List.range' n ops.length) (hops : ops <+: numbered.drop n) :
    log'.Of numbered := by
  constructor
  · rw [hbytes, hstamps, List.filterMap_append, filterMap_range' hops, logEntries_append, h.1]
  · intro i hi
    rw [hstamps] at hi
    rcases List.mem_append.mp hi with hi | hi
    · exact h.2 i hi
    · have hlen := hops.length_le
      rw [List.length_drop] at hlen
      rw [List.mem_range'_1] at hi
      omega

def Shared.LogHolds (s : Shared) (i : Nat) : Prop :=
  s.sys.world.disk.replayedLog.Of s.numbered ∧ i ∈ s.sys.world.disk.replayedLog.stamps

/-- The operation with number `i + 1` is in the log that the next open replays, or a
complete table has it, or a later version of its key. -/
def Shared.Present (s : Shared) (i : Nat) (op : WriteOp) : Prop :=
  s.LogHolds i ∨ s.sys.world.disk.TableHolds op.key i

-- ---------------------------------------------------------------------------
-- The condition
-- ---------------------------------------------------------------------------

def Thread.inserting : Thread → Bool
  | .write _ (.inserting _ _ (_ :: _)) => true
  | _ => false

/-- Everything that was logged is in tables: no memtable holds a version, none is in
hand, and no writer is between the log and the memtable. -/
def Settled (s : Shared) (threads : List Thread) : Prop :=
  (∀ m ∈ s.sys.db.memtable :: s.sys.db.immutableMemtables, m.isEmpty = true) ∧
    ∀ t ∈ threads, t.inserting = false ∧ ∀ m ∈ t.inHand, m.isEmpty = true

/-- A write goes to the log that the next open replays, and this log is replaced or
removed only when everything that was logged is in tables. -/
def RotatesSettled (s : Shared) (threads : List Thread) : Thread → Prop
  | .write _ (.numbered _ _) =>
    s.sys.db.wal.number ∈ s.sys.world.disk.logs ∧ s.sys.db.wal.number = latestWal s.sys.world.disk
  | .flush .rotating => Settled s threads
  | .flush (.swapped old) => old = latestWal s.sys.world.disk → Settled s threads
  | _ => True

instance (s : Shared) (threads : List Thread) (t : Thread) : Decidable (RotatesSettled s threads t) := by
  unfold RotatesSettled Settled
  split <;> infer_instance

-- ---------------------------------------------------------------------------
-- The invariant
-- ---------------------------------------------------------------------------

def Thread.Unlogged (i : Nat) : Thread → Prop
  | .write ops (.numbered stamp _) => stamp ≤ i ∧ i < stamp + ops.length
  | _ => False

structure Durable (c : Config Shared Thread) : Prop where
  serving : c.shared.sys.Serving
  useWal : c.shared.sys.db.options.useWal = true
  syncWal : c.shared.sys.db.options.syncWal = true
  buffer : c.shared.sys.db.wal.buffer = []
  logs : ∀ n log, c.shared.sys.world.disk.logs.lookup n = some log → log.Of c.shared.numbered
  accounted : ∀ (i : Nat) op, c.shared.numbered[i]? = some op → (∃ t ∈ c.threads, t.Owes i) ∨
    Stored (fun s => s.sys.world.disk.TableHolds op.key i) (op.entry i) c.shared c.threads
  present : ∀ (i : Nat) op, c.shared.numbered[i]? = some op →
    (∃ t ∈ c.threads, t.Unlogged i) ∨ c.shared.Present i op

theorem Durable.replayedLog (h : Durable ⟨s, threads⟩) : s.sys.world.disk.replayedLog.Of s.numbered := by
  unfold Disk.replayedLog
  cases hl : s.sys.world.disk.logs.lookup (latestWal s.sys.world.disk) with
  | none => exact LogFile.of_empty
  | some log => exact h.logs _ log hl

/-- When everything is settled, the tables alone have every operation past its WAL
section. -/
theorem Durable.settled (h : Durable ⟨s, threads⟩) (hs : Settled s threads) (hop : s.numbered[i]? = some op) :
    (∃ t ∈ threads, t.Unlogged i) ∨ s.sys.world.disk.TableHolds op.key i := by
  have hempty : ∀ {m : MemTable}, m.isEmpty = true → ∀ e, e ∉ m.iter := by
    intro m hm e he
    have hnil : m.iter = [] := by simpa [MemTable.isEmpty, MemTable.iter] using hm
    rw [hnil] at he
    cases he
  rcases h.accounted i op hop with ⟨t, ht, howes⟩ | hin | ⟨m, hm, he⟩ | ⟨t, ht, m, hm, he⟩ | hT
  · have hno := (hs.2 t ht).1
    cases t with
    | write ops pc =>
      cases pc with
      | numbered stamp seq => exact .inl ⟨_, ht, howes⟩
      | inserting stamp seq rest =>
        cases rest with
        | nil =>
          rw [Thread.Owes, List.length_nil] at howes
          omega
        | cons op rest => cases hno
      | _ => exact howes.elim
    | _ => exact howes.elim
  · exact absurd hin (hempty (hs.1 _ List.mem_cons_self) _)
  · exact absurd he (hempty (hs.1 m (List.mem_cons_of_mem _ hm)) _)
  · exact absurd he (hempty ((hs.2 t ht).2 m hm) _)
  · exact .inr hT

theorem Durable.accounted_step (h : Durable ⟨s, threads⟩) (hnum : Numbering ⟨s, threads⟩) (ht : threads[j]? = some t)
    (hm : s.Moves t s' t') : ∀ (i : Nat) op, s'.numbered[i]? = some op → (∃ x ∈ threads.set j t', x.Owes i) ∨
      Stored (fun s => s.sys.world.disk.TableHolds op.key i) (op.entry i) s' (threads.set j t') := by
  have hplaced := hnum.placed t (List.mem_of_getElem? ht)
  have hstored : ∀ (i : Nat) (op : WriteOp), Stored (fun s => s.sys.world.disk.TableHolds op.key i) (op.entry i) s threads →
      Stored (fun s => s.sys.world.disk.TableHolds op.key i) (op.entry i) s' (threads.set j t') := by
    intro i op hst
    refine hst.step hnum hm ht (tableHolds_mono hm h.serving) ?_
    rintro m n rfl hr he
    exact tableHolds_of_flush h.serving hr hplaced he
  -- an operation that had its number before
  have hold : (∀ i, t.Owes i → t'.Owes i) → ∀ (i : Nat) op, s.numbered[i]? = some op →
      (∃ x ∈ threads.set j t', x.Owes i) ∨
        Stored (fun s => s.sys.world.disk.TableHolds op.key i) (op.entry i) s' (threads.set j t') := by
    intro howes i op hop
    rcases h.accounted i op hop with hx | hst
    · rcases Config.exists_set ht t' hx with hx | hx
      · exact .inl ⟨t', Config.mem_set_self ht t', howes i hx⟩
      · exact .inl hx
    · exact .inr (hstored i op hst)
  cases hm with
  | @number ops =>
    intro i op hop
    by_cases hi : i < s.numbered.length
    · exact hold (fun _ => False.elim) i op (by rwa [List.getElem?_append_left hi] at hop)
    · have hlt : i < (s.numbered ++ ops).length := (List.getElem?_eq_some_iff.mp hop).1
      rw [List.length_append] at hlt
      have hw : s.sys.world.writes = s.numbered.length := hnum.writes
      refine .inl ⟨_, Config.mem_set_self ht _, ?_⟩
      rw [Thread.Owes, hw]
      omega
  | @insert ops stamp seq op rest =>
    obtain ⟨rfl, hpre⟩ := hplaced
    have hop := getElem?_of_prefix_drop hpre
    intro i op' hop'
    by_cases hi : i = stamp
    · subst hi
      change s.numbered[i]? = some op' at hop'
      rw [hop] at hop'
      cases hop'
      exact .inr (.inl (((hnum.memtables _ List.mem_cons_self).mem_apply hop).mpr (.inl rfl)))
    · rcases h.accounted i op' hop' with hx | hst
      · refine .inl ((Config.exists_set ht _ hx).elim (fun hx => ⟨_, Config.mem_set_self ht _, ?_⟩) id)
        rw [Thread.Owes, List.length_cons] at hx
        rw [Thread.Owes]
        omega
      · exact .inr (hstored i op' hst)
  | inserted =>
    refine hold fun i hi => ?_
    rw [Thread.Owes, List.length_nil] at hi
    omega
  | log => exact hold fun _ => id
  | _ => exact hold fun _ => id

theorem Shared.Moves.logs_eq (hm : s.Moves t s' t') (hbuf : s.sys.db.wal.buffer = [])
    (ht : ∀ ops pc, t ≠ .write ops pc) (hcreate : t ≠ .flush .rotating) (hremove : ∀ old, t ≠ .flush (.swapped old)) :
    s'.sys.world.disk.logs = s.sys.world.disk.logs ∧ s'.numbered = s.numbered ∧ s'.sys.db.wal.buffer = [] := by
  cases hm with
  | empty => exact absurd rfl (ht _ _)
  | number => exact absurd rfl (ht _ _)
  | log => exact absurd rfl (ht _ _)
  | insert => exact absurd rfl (ht _ _)
  | inserted => exact absurd rfl (ht _ _)
  | create => exact absurd rfl hcreate
  | @remove old => exact absurd rfl (hremove old)
  | @install m _ _ hr =>
    have hsame := ((flushMemtableToSstable_sameLog m) s.sys (.refl s.sys)).ok hr
    exact ⟨hsame.world.1, rfl, by rw [hsame.wal]; exact hbuf⟩
  | @notInstalled m _ _ hr =>
    have hsame := ((flushMemtableToSstable_sameLog m) s.sys (.refl s.sys)).error hr
    exact ⟨hsame.world.1, rfl, by rw [hsame.wal]; exact hbuf⟩
  | swap happ hempty =>
    rw [hempty hbuf]
    exact ⟨rfl, rfl, rfl⟩
  | _ => exact ⟨rfl, rfl, hbuf⟩

theorem Disk.replayedLog_congr {d d' : Disk} (h : d'.logs = d.logs) : d'.replayedLog = d.replayedLog := by
  have hlatest : latestWal d' = latestWal d := by rw [latestWal, h]; rfl
  rw [Disk.replayedLog, Disk.replayedLog, hlatest, h]

theorem Disk.replayedLog_erase {d : Disk} (h : n ≠ latestWal d) :
    ({ d with logs := d.logs.erase n } : Disk).replayedLog = d.replayedLog := by
  have hlatest : latestWal { d with logs := d.logs.erase n } = latestWal d := by
    have hd := (foldl_max_iff d.logs.keys 1 _).mp (rfl : latestWal d = latestWal d)
    refine (foldl_max_iff _ 1 _).mpr ⟨hd.1.imp_right fun hmem => ?_, hd.2.1, fun x hx => ?_⟩
    · show _ ∈ d.logs.erase n
      rw [AList.mem_erase]
      exact ⟨h.symm, hmem⟩
    · have hx' : x ∈ d.logs.erase n := hx
      rw [AList.mem_erase] at hx'
      exact hd.2.2 x hx'.2
  rw [Disk.replayedLog, Disk.replayedLog, hlatest, AList.lookup_erase_ne h.symm]

theorem Durable.present_kept (h : Durable ⟨s, threads⟩) (ht : threads[j]? = some t) (hm : s.Moves t s' t')
    (hunlogged : ∀ i, ¬t.Unlogged i) (hlog : ∀ i, s.LogHolds i → s'.LogHolds i) (hop : s.numbered[i]? = some op) :
    (∃ x ∈ threads.set j t', x.Unlogged i) ∨ s'.Present i op := by
  rcases h.present i op hop with hx | hlogged | htable
  · exact .inl ((Config.exists_set ht t' hx).resolve_left (hunlogged i))
  · exact .inr (.inl (hlog i hlogged))
  · exact .inr (.inr (tableHolds_mono hm h.serving htable))

theorem Durable.kept (h : Durable ⟨s, threads⟩) (hnum : Numbering ⟨s, threads⟩) (ht : threads[j]? = some t)
    (hm : s.Moves t s' t') (hunlogged : ∀ i, ¬t.Unlogged i) (hn : s'.numbered = s.numbered)
    (hlogs : s'.sys.world.disk.logs = s.sys.world.disk.logs) (hbuf : s'.sys.db.wal.buffer = [])
    (hopts : s'.sys.db.options = s.sys.db.options) : Durable ⟨s', threads.set j t'⟩ := by
  refine ⟨hm.serving h.serving, by rw [hopts]; exact h.useWal, by rw [hopts]; exact h.syncWal, hbuf, ?_,
    h.accounted_step hnum ht hm, fun i op hop => ?_⟩
  · rw [hlogs, hn]
    exact h.logs
  · refine h.present_kept ht hm hunlogged (fun i hi => ?_) (by rwa [← hn])
    unfold Shared.LogHolds
    rw [Disk.replayedLog_congr hlogs, hn]
    exact hi

theorem Durable.log_step {ops : List WriteOp} (h : Durable ⟨s, threads⟩) (hnum : Numbering ⟨s, threads⟩)
    (ht : threads[j]? = some (.write ops (.numbered stamp seq)))
    (hm : s.Moves (.write ops (.numbered stamp seq)) s' (.write ops (.inserting stamp seq ops)))
    (hP : RotatesSettled s threads (.write ops (.numbered stamp seq))) (happ : s.sys.Appended (logEntries ops) s'.sys)
    (hbuf : s'.sys.db.wal.buffer = []) (hn : s'.numbered = s.numbered)
    (hstamps : s'.sys.logFile.stamps = s.sys.logFile.stamps ++ List.range' stamp ops.length) :
    Durable ⟨s', threads.set j (.write ops (.inserting stamp seq ops))⟩ := by
  obtain ⟨hmem, hlatest⟩ := hP
  have hpre : ops <+: s.numbered.drop stamp := (hnum.placed _ (List.mem_of_getElem? ht)).2
  have hopts := happ.logs.writesKept.options
  have hreplayed : s.sys.world.disk.replayedLog = s.sys.logFile := by
    rw [Disk.replayedLog, ← hlatest]
    rfl
  have hreplayed' : s'.sys.world.disk.replayedLog = s'.sys.logFile := by
    rw [Disk.replayedLog, latestWal_congr (happ.members hmem), ← hlatest, ← happ.number]
    rfl
  have hof : s'.sys.logFile.Of s.numbered := by
    have hold : s.sys.logFile.Of s.numbered := hreplayed ▸ h.replayedLog
    refine hold.extend ?_ hstamps hpre
    have hb := happ.bytes
    have hbuf0 : s.sys.db.wal.buffer = [] := h.buffer
    rwa [hbuf, hbuf0, List.append_nil, List.append_nil] at hb
  refine ⟨hm.serving h.serving, by rw [hopts]; exact h.useWal, by rw [hopts]; exact h.syncWal, hbuf, ?_,
    h.accounted_step hnum ht hm, fun i op hop => ?_⟩
  · intro n log hlog
    rw [hn]
    by_cases hnn : n = s.sys.db.wal.number
    · have : s'.sys.logFile = log := by
        rw [Sys.logFile, happ.number, ← hnn]
        exact congrArg (Option.getD · ⟨[], []⟩) hlog
      exact this ▸ hof
    · change s'.sys.world.disk.logs.lookup n = some log at hlog
      rw [happ.others n hnn] at hlog
      exact h.logs n log hlog
  · have hhold : s'.LogHolds i ↔ i ∈ s'.sys.logFile.stamps := by
      rw [Shared.LogHolds, hreplayed', hn]
      exact ⟨And.right, fun hi => ⟨hof, hi⟩⟩
    change s'.numbered[i]? = some op at hop
    rw [hn] at hop
    rcases h.present i op hop with hx | hlogged | htable
    · -- the operation of this write is in the log now
      rcases Config.exists_set ht (.write ops (.inserting stamp seq ops)) hx with hx | hx
      · refine .inr (.inl (hhold.mpr ?_))
        rw [hstamps, List.mem_append, List.mem_range'_1]
        exact .inr hx
      · exact .inl hx
    · refine .inr (.inl (hhold.mpr ?_))
      rw [hstamps]
      exact List.mem_append_left _ (hreplayed ▸ hlogged.2)
    · exact .inr (.inr (tableHolds_mono hm h.serving htable))

/-- The replayed log may become another one only when everything is in tables. -/
theorem Durable.settled_step (h : Durable ⟨s, threads⟩) (hnum : Numbering ⟨s, threads⟩) (ht : threads[j]? = some t)
    (hm : s.Moves t s' t') (hs : Settled s threads) (hunlogged : ∀ i, ¬t.Unlogged i) (hn : s'.numbered = s.numbered)
    (hlogs : ∀ n log, s'.sys.world.disk.logs.lookup n = some log → log.Of s.numbered)
    (hbuf : s'.sys.db.wal.buffer = []) (hopts : s'.sys.db.options = s.sys.db.options) :
    Durable ⟨s', threads.set j t'⟩ := by
  refine ⟨hm.serving h.serving, by rw [hopts]; exact h.useWal, by rw [hopts]; exact h.syncWal, hbuf, ?_,
    h.accounted_step hnum ht hm, fun i op hop => ?_⟩
  · rw [hn]
    exact hlogs
  · rcases h.settled hs (by rwa [← hn]) with hx | htable
    · exact .inl ((Config.exists_set ht t' hx).resolve_left (hunlogged i))
    · exact .inr (.inr (tableHolds_mono hm h.serving htable))

theorem Durable.step (h : Durable ⟨s, threads⟩) (hnum : Numbering ⟨s, threads⟩) (ht : threads[j]? = some t)
    (hP : RotatesSettled s threads t) (hm : s.Moves t s' t') : Durable ⟨s', threads.set j t'⟩ := by
  have hbuf : s.sys.db.wal.buffer = [] := h.buffer
  have hmoves := hm
  cases hm with
  | empty => exact h.kept hnum ht hmoves (fun _ => id) rfl rfl hbuf rfl
  | @number ops =>
    refine ⟨hmoves.serving h.serving, h.useWal, h.syncWal, hbuf, fun n log hlog => (h.logs n log hlog).append ops,
      h.accounted_step hnum ht hmoves, fun i op hop => ?_⟩
    by_cases hi : i < s.numbered.length
    · refine h.present_kept ht hmoves (fun _ => id) (fun i hlog => ?_) (by rwa [List.getElem?_append_left hi] at hop)
      exact ⟨hlog.1.append ops, hlog.2⟩
    · have hlt : i < (s.numbered ++ ops).length := (List.getElem?_eq_some_iff.mp hop).1
      rw [List.length_append] at hlt
      have hw : s.sys.world.writes = s.numbered.length := hnum.writes
      refine .inl ⟨_, Config.mem_set_self ht _, ?_⟩
      rw [Thread.Unlogged, hw]
      omega
  | log hlogs happ =>
    obtain ⟨happ, hsync, hstamps⟩ := happ h.useWal
    exact h.log_step hnum ht hmoves hP happ (hsync h.syncWal) rfl hstamps
  | insert => exact h.kept hnum ht hmoves (fun _ => id) rfl rfl hbuf rfl
  | inserted => exact h.kept hnum ht hmoves (fun _ => id) rfl rfl hbuf rfl
  | create =>
    refine h.settled_step hnum ht hmoves hP (fun _ => id) rfl (fun n log hlog => ?_) hbuf rfl
    simp only [Sys.withNewLog] at hlog
    split at hlog
    · exact h.logs n log hlog
    · by_cases hnn : n = s.sys.db.walFileNumber + 1
      · rw [hnn, AList.lookup_insert] at hlog
        cases hlog
        exact LogFile.of_empty
      · rw [AList.lookup_insert_ne hnn] at hlog
        exact h.logs n log hlog
  | @remove old =>
    have hlogs : ∀ n log, (s.sys.world.disk.logs.erase old).lookup n = some log → log.Of s.numbered := by
      intro n log hlog
      by_cases hnn : n = old
      · rw [hnn, AList.lookup_erase] at hlog
        cases hlog
      · rw [AList.lookup_erase_ne hnn] at hlog
        exact h.logs n log hlog
    by_cases hold : old = latestWal s.sys.world.disk
    · exact h.settled_step hnum ht hmoves (hP hold) (fun _ => id) rfl hlogs hbuf rfl
    · refine ⟨hmoves.serving h.serving, h.useWal, h.syncWal, hbuf, hlogs, h.accounted_step hnum ht hmoves,
        fun i op hop => h.present_kept ht hmoves (fun _ => id) (fun i hlog => ?_) hop⟩
      have hsame : (s.sys.withoutLog old).world.disk.replayedLog = s.sys.world.disk.replayedLog :=
        Disk.replayedLog_erase hold
      unfold Shared.LogHolds
      rw [hsame]
      exact hlog
  | _ =>
    obtain ⟨hl, hn, hb⟩ := hmoves.logs_eq hbuf (by simp) (by simp) (by simp)
    exact h.kept hnum ht hmoves (fun _ => id) hn hl hb (hmoves.options_eq)

theorem Durable.fresh (hs : Shared.fresh len o = some s) (hwal : o.useWal = true) (hsync : o.syncWal = true) :
    Durable ⟨s, threads⟩ := by
  obtain ⟨hfresh, hn, -⟩ := Shared.fresh_eq hs
  obtain ⟨hsound, -, -, hopts, -⟩ := Sys.fresh_sound hfresh
  obtain ⟨hlogged, -, -, -, -, -⟩ := Sys.fresh_opened hfresh
  refine ⟨hsound.serving, by rw [hopts]; exact hwal, by rw [hopts]; exact hsync, hlogged.buffer, ?_,
    fun i op hop => ?_, fun i op hop => ?_⟩
  · exact fun n log hlog => by rw [Sys.fresh_logs hfresh hlog]; exact LogFile.of_empty
  · rw [hn] at hop
    cases hop
  · rw [hn] at hop
    cases hop

/-- Writers and flushes, cut off at any point: as long as writes go to the log that
the next open replays, and this log is replaced only when everything is settled,
every operation that is past its WAL section (so every one whose call has returned)
is in that log or in a complete table. -/
theorem present_of_rotatesSettled (len : CompressedLen) (o : Options) (threads : List Thread) (schedule : List Nat)
    (c : Config Shared Thread) (hwal : o.useWal = true) (hsync : o.syncWal = true) (hstart : ∀ t ∈ threads, t.Starting)
    (halong : AlongThreads RotatesSettled len o threads schedule) (hrun : runThreads len o threads schedule = some c)
    (i : Nat) (op : WriteOp) (hop : c.shared.numbered[i]? = some op) (hlogged : ∀ t ∈ c.threads, ¬t.Unlogged i) :
    c.shared.Present i op := by
  obtain ⟨-, hd⟩ : Numbering c ∧ Durable c :=
    runThreads_invariant (I := Durable) (fun s hs => .fresh hs hwal hsync)
      (fun _ _ _ _ _ _ hd hnum ht hP hm => hd.step hnum ht hP hm) hstart halong hrun
  rcases hd.present i op hop with ⟨t, ht, hx⟩ | h
  · exact absurd hx (hlogged t ht)
  · exact h

def Thread.isUnlogged : Thread → Bool
  | .write _ (.numbered _ _) => true
  | _ => false

theorem Thread.isUnlogged_of (h : t.Unlogged i) : t.isUnlogged = true := by
  unfold Thread.Unlogged at h
  split at h
  · rfl
  · exact h.elim

def SstContent.lacks (key : Bytes) : SstContent → Bool
  | .incomplete => true
  | .complete f => f.entries.all fun e => e.key ≠ key

theorem Disk.TableHolds.not_lacks {d : Disk} (h : d.TableHolds key stamp) : ¬∀ x ∈ d.files, x.lacks key = true := by
  intro hlacks
  obtain ⟨n, file, f, -, hf, e, he, hkey, -⟩ := h
  have := List.all_eq_true.mp (hlacks _ (List.mem_of_getElem? hf)) e he
  simp [hkey] at this

theorem present_flush_in_turn : ∃ c, runThreads .unused .plain
      [.write [.put [97] [1]] .start, .flush .start, .write [.put [98] [1]] .start]
      [0, 0, 0, 0, 1, 1, 1, 1, 1, 1, 1, 1, 2, 2, 2, 2] = some c ∧
    AlongThreads RotatesSettled .unused .plain
      [.write [.put [97] [1]] .start, .flush .start, .write [.put [98] [1]] .start]
      [0, 0, 0, 0, 1, 1, 1, 1, 1, 1, 1, 1, 2, 2, 2, 2] ∧
    c.shared.Present 0 (.put [97] [1]) ∧ c.shared.Present 1 (.put [98] [1]) := by
  have hcheck : (runThreads .unused .plain
      [.write [.put [97] [1]] .start, .flush .start, .write [.put [98] [1]] .start]
      [0, 0, 0, 0, 1, 1, 1, 1, 1, 1, 1, 1, 2, 2, 2, 2]).map (fun c => (c.shared.numbered,
        c.threads.all (fun t => !t.isUnlogged))) = some ([.put [97] [1], .put [98] [1]], true) := by decide +kernel
  have halong : AlongThreads RotatesSettled .unused .plain
      [.write [.put [97] [1]] .start, .flush .start, .write [.put [98] [1]] .start]
      [0, 0, 0, 0, 1, 1, 1, 1, 1, 1, 1, 1, 2, 2, 2, 2] := alongThreads_of_check (by decide +kernel)
  obtain ⟨c, hc, heq⟩ := Option.map_eq_some_iff.mp hcheck
  obtain ⟨hn, hlogged⟩ := by simpa only [Prod.mk.injEq] using heq
  have hpresent := present_of_rotatesSettled .unused .plain _ _ c rfl rfl (by simp [Thread.Starting]) halong hc
  have hun : ∀ i, ∀ t ∈ c.threads, ¬t.Unlogged i := fun i t ht hx => by
    have := List.all_eq_true.mp hlogged t ht
    rw [Thread.isUnlogged_of hx] at this
    cases this
  exact ⟨c, hc, halong, hpresent 0 _ (by rw [hn]; rfl) (hun 0), hpresent 1 _ (by rw [hn]; rfl) (hun 1)⟩

/-- The second put is logged before the flush freezes the memtable and inserted after
it; the flush then puts a new log in the place of the one that has the put. -/
theorem not_present_between : ∃ c, runThreads .unused .plain
      [.write [.put [98] [1]] .start, .write [.put [97] [1]] .start, .flush .start]
      [0, 0, 0, 0, 1, 1, 2, 2, 2, 2, 2, 1, 1, 2] = some c ∧
    (∀ t ∈ c.threads, t.Returned) ∧ c.shared.numbered[1]? = some (.put [97] [1]) ∧
    ¬c.shared.Present 1 (.put [97] [1]) := by
  have hcheck : (runThreads .unused .plain
      [.write [.put [98] [1]] .start, .write [.put [97] [1]] .start, .flush .start]
      [0, 0, 0, 0, 1, 1, 2, 2, 2, 2, 2, 1, 1, 2]).map (fun c => (c.threads.all Thread.isReturned, c.shared.numbered[1]?,
        c.shared.sys.world.disk.replayedLog.stamps, c.shared.sys.world.disk.files.all (·.lacks [97]))) =
      some (true, some (.put [97] [1]), [], true) := by decide +kernel
  obtain ⟨c, hc, heq⟩ := Option.map_eq_some_iff.mp hcheck
  obtain ⟨hret, hop, hstamps, hfiles⟩ := by simpa only [Prod.mk.injEq] using heq
  refine ⟨c, hc, fun t ht => Thread.returned_of_isReturned (List.all_eq_true.mp hret t ht), hop, ?_⟩
  rintro (hlog | htable)
  · rw [Shared.LogHolds, hstamps] at hlog
    cases hlog.2
  · exact htable.not_lacks (List.all_eq_true.mp hfiles)

end AiDb
