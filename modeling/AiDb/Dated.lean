import AiDb.DeepLevels

/-!
# Stamps of the past

A write takes the next stamp. Whatever a memtable, a table file or a log holds was
written before, so its stamp is at most the next one; an entry that is replayed
beyond the history counts as written now.
-/

namespace AiDb

open Library Compaction

variable {s s' : Sys} {db : DB} {w w' : World} {d d' : Disk}

-- ---------------------------------------------------------------------------
-- Logs
-- ---------------------------------------------------------------------------

def Disk.LogsDated (n : Nat) (d : Disk) : Prop := ∀ m log, d.logs.lookup m = some log → ∀ t ∈ log.stamps, t < n

theorem Disk.LogsDated.mono (h : d.LogsDated n) (hle : n ≤ m) : d.LogsDated m :=
  fun k log hlog t ht => lt_of_lt_of_le (h k log hlog t ht) hle

theorem Disk.LogsDated.getD (h : d.LogsDated n) (m : Nat) : ∀ t ∈ ((d.logs.lookup m).getD ⟨[], []⟩).stamps, t < n := by
  cases hlog : d.logs.lookup m with
  | none => simp
  | some log => exact h m log hlog

theorem Disk.LogsDated.insert (h : d.LogsDated n) (hlog : ∀ t ∈ log.stamps, t < n) :
    Disk.LogsDated n { d with logs := d.logs.insert m log } := by
  intro k log' hk
  by_cases hkm : k = m
  · subst hkm
    simp only [AList.lookup_insert, Option.some.injEq] at hk
    rwa [← hk]
  · simp only [AList.lookup_insert_ne hkm] at hk
    exact h k log' hk

theorem Disk.LogsDated.erase (h : d.LogsDated n) (m : Nat) : Disk.LogsDated n { d with logs := d.logs.erase m } := by
  intro k log hk
  by_cases hkm : k = m
  · subst hkm
    simp at hk
  · simp only [AList.lookup_erase_ne hkm] at hk
    exact h k log hk

theorem logsDated_rule (n : Nat) : LogRule (· < n) fun s => s.world.disk.LogsDated n where
  fault _ _ _ h _ := h
  append s _ h := h.insert (h.getD s.db.wal.number)
  buffer _ _ h := h
  mark s stamp hlt h := by
    refine h.insert fun t ht => ?_
    rcases List.mem_append.mp ht with ht | ht
    · exact h.getD s.db.wal.number t ht
    · rwa [List.mem_singleton.mp ht]
  unmark s h := h.insert fun t ht => h.getD s.db.wal.number t (List.mem_of_mem_dropLast ht)
  writer _ _ _ h := h
  create _ _ h _ := h.insert (by simp)
  remove _ m h := h.erase m

theorem Call.run_stamps {c : Call} (hc : c.IsWrite) (s : Sys) :
    Triple c.run s (fun _ s' => s'.world.writes = s.world.writes + c.ops.length)
      (fun _ s' => s'.world.writes = s.world.writes + c.ops.length) := by
  have hbump : ∀ n s', (s.bump n).Logs s' → s'.world.writes = s.world.writes + n := by
    rintro n s' ⟨wal, m, logs, faults, -, rfl⟩
    rfl
  have hinsert : ∀ ops s', (s.insert ops).Logs s' → s'.world.writes = s.world.writes + ops.length := by
    rintro ops s' ⟨wal, m, logs, faults, -, rfl⟩
    rfl
  have hfull : ∀ ops s', (s.insert ops).freezeIfFull.Logs s' → s'.world.writes = s.world.writes + ops.length := by
    rintro ops s' ⟨wal, m, logs, faults, -, rfl⟩
    show (s.insert ops).freezeIfFull.world.writes = _
    unfold Sys.freezeIfFull
    split <;> rfl
  cases c with
  | put key value => exact (put_spec key value s).mono (fun _ => hfull _) (fun _ => hbump 1)
  | delete key => exact (delete_spec key s).mono (fun _ => hinsert _) (fun _ => hbump 1)
  | write batch =>
    by_cases hb : batch = []
    · subst hb
      exact Triple.pure rfl
    · exact (write_spec batch hb s).mono (fun _ => hfull batch) (fun _ => hbump batch.length)
  | _ => exact hc.elim

theorem Call.run_logsDated {c : Call} (hc : c.IsWrite) (h : s.world.disk.LogsDated s.world.writes) :
    Triple c.run s (fun _ s' => s'.world.disk.LogsDated s'.world.writes) (fun _ s' => s'.world.disk.LogsDated s'.world.writes) := by
  let n := s.world.writes + c.ops.length
  have hlog : ∀ ops, ops.length = c.ops.length → Keeps (fun s => s.world.disk.LogsDated n) (logAndSync s.world.writes ops) :=
    fun ops hlen => (logsDated_rule n).logAndSync fun t _ hlt => by rwa [hlen] at hlt
  have hfreeze : Keeps (fun s => s.world.disk.LogsDated n) freezeIfFull :=
    Keeps.get.bind fun _ => Keeps.ite (Keeps.modify fun _ => id) Keeps.pure
  have hinsert : ∀ stamp seq ops, Keeps (fun s => s.world.disk.LogsDated n) (insertOps stamp seq ops) :=
    fun _ _ _ => Keeps.modify fun _ => id
  have hrun : Triple c.run s (fun _ s' => s'.world.disk.LogsDated n) (fun _ s' => s'.world.disk.LogsDated n) := by
    have hn : s.world.disk.LogsDated n := h.mono (Nat.le_add_right _ _)
    cases c with
    | put key value =>
      exact (hlog [.put key value] rfl).bind (fun _ => (hinsert _ _ _).bind fun _ => hfreeze) (s.bump 1) hn
    | delete key => exact (hlog [.delete key] rfl).bind (fun _ => hinsert _ _ _) (s.bump 1) hn
    | write batch =>
      show Triple (AiDb.write batch) s _ _
      unfold AiDb.write
      split
      · exact Triple.pure hn
      · exact (hlog batch rfl).bind (fun _ => (hinsert _ _ _).bind fun _ => hfreeze) (s.bump batch.length) hn
    | _ => exact hc.elim
  refine (hrun.and (Call.run_stamps hc s)).mono ?_ ?_
  · exact fun _ s' hs => by rw [hs.2]; exact hs.1
  · exact fun _ s' hs => by rw [hs.2]; exact hs.1

-- ---------------------------------------------------------------------------
-- Table files
-- ---------------------------------------------------------------------------

def Disk.FilesDated (n : Nat) (d : Disk) : Prop :=
  ∀ f, .complete f ∈ d.files → ∀ e ∈ f.entries, e.value.stamp ≤ n

theorem Disk.FilesDated.mono (h : d.FilesDated n) (hle : n ≤ m) : d.FilesDated m :=
  fun f hf e he => (h f hf e he).trans hle

theorem Disk.FilesDated.entriesOf (h : d.FilesDated n) (he : e ∈ d.entriesOf r) : e.value.stamp ≤ n := by
  unfold Disk.entriesOf at he
  split at he
  · rename_i f hf
    exact h f (List.mem_of_getElem? hf) e he
  · cases he

theorem Disk.FilesDated.createSst (h : d.FilesDated n) (m : Nat) : (d.createSst m).FilesDated n := by
  intro f hf
  refine h f ?_
  unfold Disk.createSst at hf
  split at hf
  · exact (List.mem_or_eq_of_mem_set hf).resolve_right (by simp)
  · simpa using hf

theorem Disk.FilesDated.finishSst (h : d.FilesDated n) (m : Nat) (hf : ∀ e ∈ f.entries, e.value.stamp ≤ n) :
    (d.finishSst m f).FilesDated n := by
  unfold Disk.finishSst
  split
  · intro g hg
    rcases List.mem_or_eq_of_mem_set hg with hg | hg
    · exact h g hg
    · cases hg
      exact hf
  · exact h

theorem Disk.FilesDated.written (h : d.FilesDated n) (hes : ∀ e ∈ es, e.value.stamp ≤ n) (hd : d.Written m es d') :
    d'.FilesDated n := by
  cases hd with
  | untouched => exact h
  | created => exact h.createSst m
  | abandoned => exact h.createSst m
  | finished _ _ hentries => exact (h.createSst m).finishSst m (by rwa [hentries])

-- ---------------------------------------------------------------------------
-- The calls
-- ---------------------------------------------------------------------------

/-- What the memtables and the table files hold was written before. -/
structure Sys.Past (s : Sys) : Prop where
  memtables : ∀ m ∈ s.db.memtables, ∀ e ∈ m.versions, e.value.stamp ≤ s.world.writes
  files : s.world.disk.FilesDated s.world.writes

theorem Sys.Past.logs (h : s.Past) (hl : s.Logs s') : s'.Past := by
  obtain ⟨wal, n, logs, faults, -, rfl⟩ := hl
  exact ⟨h.memtables, h.files⟩

theorem Sys.Past.bump (h : s.Past) (n : Nat) : (s.bump n).Past :=
  ⟨fun m hm e he => (h.memtables m hm e he).trans (Nat.le_add_right _ n), h.files.mono (Nat.le_add_right _ n)⟩

theorem Sys.Past.insert (h : s.Past) (ops : List WriteOp) : (s.insert ops).Past := by
  have hle : s.world.writes ≤ s.world.writes + ops.length := Nat.le_add_right _ _
  refine ⟨fun m hm e he => ?_, h.files.mono hle⟩
  rcases List.mem_cons.mp hm with rfl | hm
  · obtain ⟨x, hx, rfl⟩ := List.mem_map.mp he
    rcases mem_applyOps hx with hx | ⟨-, hlt⟩
    · exact (h.memtables _ List.mem_cons_self _ (List.mem_map_of_mem hx)).trans hle
    · exact hlt.le
  · exact (h.memtables m (List.mem_cons_of_mem _ hm) e he).trans hle

theorem MemTable.versions_new (n : Nat) : (MemTable.new n).versions = [] := rfl

theorem Sys.Past.freeze (h : s.Past) : s.freeze.Past := by
  have hmem : s.freeze.db.memtables = MemTable.new (s.db.sequence + 1) :: s.db.memtables := by
    simp [DB.memtables, Sys.freeze, DB.freeze]
  refine ⟨fun m hm e he => ?_, h.files⟩
  rw [hmem] at hm
  rcases List.mem_cons.mp hm with rfl | hm
  · rw [MemTable.versions_new] at he
    cases he
  · exact h.memtables m hm e he

theorem Sys.Past.popped (h : s.Past) (himm : s.db.immutableMemtables = m :: rest) : (s.popped rest).Past := by
  refine ⟨fun x hx => h.memtables x ?_, h.files⟩
  simp only [DB.memtables, Sys.popped, himm, List.mem_cons, List.mem_reverse] at hx ⊢
  tauto

theorem Sys.Past.atTables (h : s.Past) (hes : ∀ e ∈ es, e.value.stamp ≤ s.world.writes) (hd : s.world.disk.Written n es d)
    (hat : s'.AtTables { s.handOut.db with sstables := levels } s.handOut.world d') (hfiles : d'.files = d.files) : s'.Past := by
  obtain ⟨⟨vs, hdb⟩, manifest, hat⟩ := hat
  refine ⟨?_, ?_⟩
  · rw [hdb, hat.writes_eq]
    exact h.memtables
  · rw [hat.writes_eq, hat.disk_eq, Disk.FilesDated]
    dsimp only
    rw [hfiles]
    exact h.files.written hes hd

theorem Sys.Past.compacted (h : s.Past) (hc : s.Compacted task removed s') : s'.Past := by
  obtain ⟨es, f, r, hjob, hes, hwf, hentries, -, -, -, hat⟩ := hc
  refine h.atTables (fun e he => ?_) (.finished hes hwf hentries) hat (Disk.removeSsts_files _ _)
  obtain ⟨r, hr, he⟩ := Sys.mem_jobEntries hjob he
  exact h.files.entriesOf he

theorem Sys.Past.stopped (h : s.Past) (hc : s.CompactionStopped task s') : s'.Past := by
  obtain ⟨es, d, ⟨hjob, hd⟩ | rfl, hat⟩ := hc
  · refine h.atTables (fun e he => ?_) hd hat rfl
    obtain ⟨r, hr, he⟩ := Sys.mem_jobEntries hjob he
    exact h.files.entriesOf he
  · have hd : s.world.disk.Written 0 [] s.world.disk := .untouched
    exact h.atTables (by simp) hd hat rfl

theorem flushMemtableToSstable_past (h : s.Past) (himm : s.db.immutableMemtables = m :: rest) :
    Triple (flushMemtableToSstable m) (s.popped rest) (fun _ => Sys.Past) (fun _ => Sys.Past) := by
  have hp := h.popped himm
  have hm : ∀ e ∈ m.table, e.value.stamp ≤ s.world.writes := fun e he =>
    h.memtables m (by simp [DB.memtables, himm]) e (m.table_subset he)
  refine (flushMemtableToSstable_spec m (s.popped rest)).mono ?_ ?_
  · rintro _ s' (⟨hes, hdb, hat⟩ | ⟨hes, f, r, hwf, hentries, hdb, hat, -⟩)
    · exact hp.atTables hm (.abandoned hes) (.intro hdb hat) rfl
    · exact hp.atTables hm (.finished hes hwf hentries) (.intro hdb hat) rfl
  · rintro _ s' ⟨hdb, d, hd, hat⟩
    exact hp.atTables hm hd (.intro hdb hat) rfl

theorem compact_past (h : s.Past) (hne : s.db.nextFileNumber ≠ 0) :
    Triple (compact task) s (fun _ => Sys.Past) (fun _ => Sys.Past) := by
  refine (compact_spec task s hne).mono ?_ ?_
  · rintro _ s' (⟨-, hdb, hat⟩ | hc)
    · have hd : s.world.disk.Written s.db.nextFileNumber [] _ := .abandoned rfl
      exact h.atTables (by simp) hd (.intro hdb hat) rfl
    · exact h.compacted hc
  · rintro _ s' (hc | ⟨removed, -, hc⟩)
    · exact h.stopped hc
    · exact h.compacted hc

def Sys.Dated (s : Sys) : Prop := (s.Reached ∧ s.Past) ∧ s.world.disk.LogsDated s.world.writes

theorem dated_logs : LogRule (fun _ => False) Sys.Dated := by
  have hlogs : LogRule (fun _ => False) fun s => s.world.disk.LogsDated s.world.writes :=
    { fault := fun s f fs => (logsDated_rule s.world.writes).fault s f fs
      append := fun s bytes => (logsDated_rule s.world.writes).append s bytes
      buffer := fun _ _ => id
      mark := fun _ _ hfalse => hfalse.elim
      unmark := fun s => (logsDated_rule s.world.writes).unmark s
      writer := fun _ _ _ => id
      create := fun s n => (logsDated_rule s.world.writes).create s n
      remove := fun s n => (logsDated_rule s.world.writes).remove s n }
  exact LogRule.and (.of_logs fun _ _ h hl => ⟨h.1.logs hl, h.2.logs hl⟩) hlogs

theorem Sys.SameLog.logsDated (h : s.SameLog s') (hk : s.MemtablesKept s') (hs : s.world.disk.LogsDated s.world.writes) :
    s'.world.disk.LogsDated s'.world.writes := by
  rw [Disk.LogsDated, h.world.1, hk.writes]
  exact hs

theorem dated_rule : KeepRule Sys.Dated where
  logs := dated_logs
  freeze s h := ⟨⟨h.1.1.tablesKept s.tablesKept_freeze h.1.1.bounded.freeze, h.1.2.freeze⟩, h.2⟩
  round s m rest h himm := by
    have hrun := (reached_rule.round s m rest h.1.1 himm).and (flushMemtableToSstable_past h.1.2 himm)
    have hlog := (flushMemtableToSstable_sameLog m _ (.refl (s.popped rest))).and (flushMemtableToSstable_step m _)
    refine (hrun.and hlog).mono ?_ ?_
    · exact fun _ s' hs => ⟨hs.1, hs.2.1.logsDated hs.2.2.kept h.2⟩
    · exact fun _ s' hs => ⟨hs.1, hs.2.1.logsDated hs.2.2.kept h.2⟩
  compact s task h hpick := by
    have hne : s.db.nextFileNumber ≠ 0 := by have := h.1.1.two_le; omega
    have hrun := (reached_rule.compact s task h.1.1 hpick).and (compact_past h.1.2 hne)
    have hlog := (compact_sameLog task _ (.refl s)).and (compact_step task s hne)
    refine (hrun.and hlog).mono ?_ ?_
    · exact fun _ s' hs => ⟨hs.1, hs.2.1.logsDated hs.2.2.kept h.2⟩
    · exact fun _ s' hs => ⟨hs.1, hs.2.1.logsDated hs.2.2.kept h.2⟩

theorem Call.run_dated (c : Call) : Keeps Sys.Dated c.run := by
  by_cases hc : c.IsWrite
  · have hpast : Keeps (fun s => s.Reached ∧ s.Past) c.run := by
      refine Call.write_rule ?_ ?_ ?_ (fun _ _ h hl => ⟨h.1.logs hl, h.2.logs hl⟩) hc
      · exact fun s n h => ⟨h.1.tablesKept (s.tablesKept_bump n) (h.1.bounded.bump n), h.2.bump n⟩
      · exact fun s ops h => ⟨h.1.tablesKept (s.tablesKept_insert ops) (h.1.bounded.insert ops), h.2.insert ops⟩
      · exact fun s h => ⟨h.1.tablesKept s.tablesKept_freeze h.1.bounded.freeze, h.2.freeze⟩
    exact fun s h => (hpast s h.1).and (Call.run_logsDated hc h.2)
  · exact dated_rule.call hc

-- ---------------------------------------------------------------------------
-- Opening
-- ---------------------------------------------------------------------------

theorem atomicOp_logsDated {f : Disk → Disk} (hf : ∀ d : Disk, d.LogsDated n → (f d).LogsDated n) :
    Keeps (fun w : World => w.disk.LogsDated n) (atomicOp f) := by
  intro w h
  refine (atomicOp_spec f (.refl w)).mono ?_ ?_
  · intro _ w' hat
    rw [hat.disk_eq]
    exact hf w.disk h
  · rintro _ w' ⟨-, hat⟩
    rwa [hat.disk_eq]

theorem openDb_logsDated (o : Options) : Keeps (fun w : World => w.disk.LogsDated n) (openDb o) := by
  have hlift : ∀ {α : Type} (x : Except Error α), Keeps (fun w : World => w.disk.LogsDated n) (liftExcept x) := by
    rintro α (e | a)
    · exact Keeps.throw
    · exact Keeps.pure
  have hdir : Keeps (fun w : World => w.disk.LogsDated n) (openDir o) := by
    refine Keeps.get.bind fun w => Keeps.ite ?_ (Keeps.ite Keeps.throw Keeps.pure)
    exact Keeps.ite (atomicOp_logsDated fun _ => id) Keeps.throw
  have hlog : ∀ m, Keeps (fun w : World => w.disk.LogsDated n) (openLog m) := by
    intro m
    refine atomicOp_logsDated fun d h => ?_
    split
    · exact h
    · exact h.insert (by simp)
  have hrecover : ∀ log, Keeps (fun w : World => w.disk.LogsDated n) (recoverLog log) :=
    fun log => Keeps.ite ((atomicOp_logsDated fun _ => id).bind fun _ => hlift _) Keeps.pure
  have hload : ∀ ns, Keeps (fun w : World => w.disk.LogsDated n) (loadSsts ns) := by
    intro ns w h
    refine (loadSsts_spec ns w).mono ?_ ?_
    · rintro _ w' ⟨hat, -⟩
      rwa [hat.disk_eq]
    · rintro _ w' ⟨-, hat⟩
      rwa [hat.disk_eq]
  have hmanifest : Keeps (fun w : World => w.disk.LogsDated n) (newVersionSet o.maxLevels) := by
    refine Keeps.get.bind fun w => ?_
    split
    · refine (atomicOp_logsDated fun _ => id).bind fun _ => (hlift _).bind fun x => ?_
      cases x with
      | some vs => exact Keeps.pure
      | none => exact Keeps.throw
    · have hcreate : Keeps (fun w : World => w.disk.LogsDated n) (atomicOp fun d => { d with manifest := some [] }) :=
        atomicOp_logsDated fun _ h => h
      exact hcreate.bind fun _ => Keeps.pure
  exact (hlift _).bind fun _ => hdir.bind fun _ => Keeps.get.bind fun w => (hlog _).bind fun _ => Keeps.get.bind fun w' =>
    (hrecover _).bind fun _ => Keeps.get.bind fun w'' => (hload _).bind fun _ => hmanifest.bind fun _ => Keeps.pure

theorem mem_replay {m : MemTable} {seq : Nat} (he : e ∈ (replay m seq entries).iter) :
    e ∈ m.iter ∨ ∃ x ∈ entries, e.2.stamp = x.2 := by
  induction entries generalizing m seq with
  | nil => exact .inl he
  | cons entry rest ih =>
    obtain ⟨bytes, stamp⟩ := entry
    unfold replay at he
    split at he
    · rename_i op hop
      rcases ih he with he | ⟨x, hx, heq⟩
      · have he : e ∈ (applyOps m stamp (seq + 1) [op]).iter := he
        rcases mem_applyOps he with he | ⟨hge, hlt⟩
        · exact .inl he
        · refine .inr ⟨_, List.mem_cons_self, ?_⟩
          simp only [List.length_singleton] at hlt
          omega
      · exact .inr ⟨x, List.mem_cons_of_mem _ hx, heq⟩
    · rcases ih he with he | ⟨x, hx, heq⟩
      · exact .inl he
      · exact .inr ⟨x, List.mem_cons_of_mem _ hx, heq⟩

theorem LogFile.stamped_le {log : LogFile} (h : ∀ t ∈ log.stamps, t < n) : ∀ x ∈ log.stamped recovered n, x.2 ≤ n := by
  intro x hx
  have hstamp := (List.of_mem_zip hx).2
  rcases List.mem_append.mp hstamp with ht | ht
  · exact (h _ ht).le
  · exact (List.eq_of_mem_replicate ht).le

structure World.Dated (w : World) : Prop where
  sane : w.disk.Sane
  files : w.disk.FilesDated w.writes
  logs : w.disk.LogsDated w.writes

theorem openDb_dated (o : Options) (h : World.Dated w) :
    Triple (openDb o) w (fun db w' => Sys.Dated ⟨db, w'⟩) (fun _ => World.Dated) := by
  refine ((openDb_spec o w).and (openDb_logsDated o w h.logs)).mono ?_ ?_
  · rintro db w' ⟨⟨hsame, recovered, tables, vs, lo, hi, rfl, -, hloads, -, hhi, -⟩, hlogs⟩
    refine ⟨⟨openedDb_reached h.sane hsame hloads hhi, ?_⟩, ?_⟩
    all_goals obtain ⟨dir, logs, manifest, faults, arcs, -, -, rfl⟩ := hsame
    swap
    · exact hlogs
    refine ⟨fun m hm e he => ?_, h.files⟩
    obtain rfl := List.mem_singleton.mp hm
    obtain ⟨x, hx, rfl⟩ := List.mem_map.mp he
    rcases mem_replay hx with hx | ⟨y, hy, heq⟩
    · cases hx
    · exact heq ▸ LogFile.stamped_le (h.logs.getD _) y hy
  · rintro _ w' ⟨⟨⟨dir, logs, manifest, faults, arcs, -, -, rfl⟩, -⟩, hlogs⟩
    exact ⟨h.sane.of_sub (fun _ _ => id) rfl, h.files, hlogs⟩

theorem Sys.Dated.enter (h : Sys.Dated ⟨db, w⟩) (env : Env) : Sys.Dated ⟨db, w.enter env⟩ :=
  ⟨⟨h.1.1.enter env, h.1.2.memtables, h.1.2.files⟩, h.2⟩

theorem Sys.Dated.world (h : s.Dated) : s.world.Dated := ⟨h.1.1.sane, h.1.2.files, h.2⟩

theorem dated_invariant : Invariant Sys.Dated World.Dated fun _ _ _ => True where
  leave h := h.world
  enterOpen h := h.enter _
  enterClosed h := ⟨h.sane, h.files, h.logs⟩
  opened h _ := openDb_dated _ ⟨h.sane, h.files, h.logs⟩
  called h _ := Call.run_dated _ _ (h.enter _)
  dropped h _ := (dated_rule.dropDb _ (h.enter _)).mono (fun _ _ hs => hs.world) (fun _ _ hs => hs.world)

theorem World.dated_empty : (World.empty len).Dated := by
  refine ⟨Disk.sane_empty, fun f hf => ?_, fun m log hlog => ?_⟩
  · cases hf
  · cases hlog

theorem State.dated {st : State} (h : st.Reachable len) : st.Holds Sys.Dated World.Dated := by
  obtain ⟨run, rfl⟩ := h
  exact dated_invariant.runs (s := State.init len) World.dated_empty (State.along_true run)

end AiDb
