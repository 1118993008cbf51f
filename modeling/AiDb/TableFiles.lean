import AiDb.Archive
import AiDb.Batches
import AiDb.Transparency

/-!
# The files of the tables

In the first session every table of the levels has its file under its own number, whatever
fails: a compaction takes its inputs off the levels before it deletes them. As long as all
calls return there are no other tables in the directory, so nothing is left over.
-/

namespace AiDb

open Library Compaction

variable {d d' : Disk} {rs removed others : List SSTableReader} {s s' : Sys} {db : DB} {w : World}

-- ---------------------------------------------------------------------------
-- Tables and their files
-- ---------------------------------------------------------------------------

structure Disk.Files (d : Disk) (rs : List SSTableReader) : Prop where
  found : ∀ r ∈ rs, d.ssts.lookup r.fileNumber = some r.file
  nodup : (rs.map SSTableReader.fileNumber).Nodup

def Disk.Only (d : Disk) (rs : List SSTableReader) : Prop := ∀ n ∈ d.ssts, n ∈ rs.map SSTableReader.fileNumber

namespace Disk.Files

theorem mem (h : d.Files rs) (hr : r ∈ rs) : r.fileNumber ∈ d.ssts := AList.lookup_isSome.mp (by simp [h.found r hr])

theorem perm (h : d.Files rs) (hperm : rs.Perm rs') : d.Files rs' where
  found r hr := h.found r (hperm.mem_iff.mpr hr)
  nodup := (hperm.map SSTableReader.fileNumber).nodup_iff.mp h.nodup

theorem congr (h : d.Files rs) (hs : d'.ssts = d.ssts) : d'.Files rs := ⟨by rw [hs]; exact h.found, h.nodup⟩

theorem written (h : d.Files rs) (hn : n ∉ d.ssts) (hw : d.Written n es d') : d'.Files rs where
  found r hr := by
    rw [hw.lookup_ne hn fun heq => hn (heq ▸ h.mem hr)]
    exact h.found r hr
  nodup := h.nodup

theorem added (h : d.Files rs) (hn : n ∉ d.ssts) (hw : d.Written n es d') (hnumber : r.fileNumber = n)
    (hlookup : d'.ssts.lookup n = some r.file) : d'.Files (r :: rs) where
  found := List.forall_mem_cons.mpr ⟨by rw [hnumber]; exact hlookup, (h.written hn hw).found⟩
  nodup := by
    refine List.nodup_cons.mpr ⟨fun hmem => ?_, h.nodup⟩
    obtain ⟨x, hx, hxn⟩ := List.mem_map.mp hmem
    exact hn (by rw [← hnumber, ← hxn]; exact h.mem hx)

theorem deleted (h : d.Files (rs ++ others)) (hsub : removed ⊆ rs) : (d.removeSsts removed).Files others where
  found r hr := by
    have hnodup := h.nodup
    rw [List.map_append, List.nodup_append] at hnodup
    rw [Disk.lookup_removeSsts_ne fun x hx => hnodup.2.2 _ (List.mem_map_of_mem (hsub hx)) _ (List.mem_map_of_mem hr)]
    exact h.found r (List.mem_append_right _ hr)
  nodup := by
    have hnodup := h.nodup
    rw [List.map_append, List.nodup_append] at hnodup
    exact hnodup.2.1

end Disk.Files

theorem Disk.notMem_removeSsts (hr : r ∈ rs) : r.fileNumber ∉ (d.removeSsts rs).ssts := by
  induction rs generalizing d with
  | nil => cases hr
  | cons x rs ih =>
    rcases List.mem_cons.mp hr with rfl | hr
    · intro hmem
      -- its own file goes first
      have hleft : r.fileNumber ∈ (d.removeSst r.fileNumber).ssts := Disk.mem_of_removeSsts (d := d.removeSst _) hmem
      exact (AList.mem_erase.mp hleft).1 rfl
    · exact ih hr

namespace Disk.Only

theorem perm (h : d.Only rs) (hperm : rs.Perm rs') : d.Only rs' := fun n hn =>
  (hperm.map SSTableReader.fileNumber).mem_iff.mp (h n hn)

theorem congr (h : d.Only rs) (hs : d'.ssts = d.ssts) : d'.Only rs := fun n hn => h n (by rwa [← hs])

theorem abandoned (h : d.Only rs) : ((d.createSst n).removeSst n).Only rs := fun m hm => by
  obtain ⟨hne, hmem⟩ := AList.mem_erase.mp hm
  exact h m ((Disk.mem_createSst.mp hmem).resolve_left hne)

theorem added (h : d.Only rs) (hnumber : r.fileNumber = n) : (d.withSst n f).Only (r :: rs) := fun m hm => by
  rcases Disk.mem_withSst.mp hm with rfl | hm
  · simp [hnumber]
  · exact List.mem_cons_of_mem _ (h m hm)

theorem deleted (h : d.Only (rs ++ others)) : (d.removeSsts rs).Only others := fun m hm => by
  have hmem := h m (Disk.mem_of_removeSsts hm)
  rw [List.map_append, List.mem_append] at hmem
  refine hmem.resolve_left fun hgone => ?_
  obtain ⟨r, hr, rfl⟩ := List.mem_map.mp hgone
  exact Disk.notMem_removeSsts hr hm

end Disk.Only

-- ---------------------------------------------------------------------------
-- Flushes and compactions
-- ---------------------------------------------------------------------------

def Sys.Filed (s : Sys) : Prop := s.world.disk.Files s.db.sstables.flatten

def Sys.NoStrays (s : Sys) : Prop := s.world.disk.Only s.db.sstables.flatten

theorem Sys.Filed.kept (h : s.Filed) (hk : s.TablesKept s') : s'.Filed := by
  unfold Sys.Filed
  rw [hk.sstables]
  exact Disk.Files.congr h hk.ssts

theorem Sys.NoStrays.kept (h : s.NoStrays) (hk : s.TablesKept s') : s'.NoStrays := by
  unfold Sys.NoStrays
  rw [hk.sstables]
  exact Disk.Only.congr h hk.ssts

theorem flushMemtableToSstable_filed (h : s.Alone) (hf : s.Filed) (m : MemTable) (rest : List MemTable) :
    Triple (flushMemtableToSstable m) (s.popped rest) (fun _ s' => s'.Filed ∧ (s.NoStrays → s'.NoStrays))
      (fun _ s' => s'.Filed) := by
  refine ((flushMemtableToSstable_spec m (s.popped rest)).and (flushMemtableToSstable_written m (s.popped rest))).mono ?_ ?_
  · rintro _ s' ⟨⟨-, hdb, hat⟩ | ⟨-, f, r, -, -, hdb, hat, ho⟩, hw⟩
    · have hsst : s'.db.sstables = s.db.sstables := by rw [hdb]; rfl
      unfold Sys.Filed Sys.NoStrays
      rw [hsst]
      refine ⟨Disk.Files.written hf h.unused hw, fun hno => ?_⟩
      rw [hat.disk_eq]
      exact Disk.Only.abandoned hno
    · have hsst : s'.db.sstables.flatten = r :: s.db.sstables.flatten := by
        obtain ⟨l0, ls, hl⟩ := List.exists_cons_of_ne_nil h.reached.levels
        rw [hdb]
        simp [DB.installFront, Sys.handOut, Sys.popped, hl]
      have hnumber : r.fileNumber = s.db.nextFileNumber := by rw [ho.reader]; rfl
      unfold Sys.Filed Sys.NoStrays
      rw [hsst]
      refine ⟨Disk.Files.added hf h.unused hw hnumber (by rw [hat.disk_eq]; exact ho.lookup), fun hno => ?_⟩
      rw [hat.disk_eq]
      exact Disk.Only.added hno hnumber
  · rintro _ s' ⟨⟨hdb, -⟩, hw⟩
    have hsst : s'.db.sstables = s.db.sstables := by rw [hdb]; rfl
    unfold Sys.Filed
    rw [hsst]
    exact Disk.Files.written hf h.unused hw

theorem Sys.Compacted.filed (hc : s.Compacted task removed s') (h : s.Alone) (hf : s.Filed)
    (hpick : pickCompaction s.db.options.maxLevels s.db.sstables = some (some task)) (hsub : removed ⊆ task.inputs) :
    s'.Filed ∧ (removed = task.inputs → s.NoStrays → s'.NoStrays) := by
  obtain ⟨es, f, r, -, hes, hwf, hentries, ho, -, hout, ⟨vs, hdb⟩, manifest, hat⟩ := hc
  obtain ⟨kept, hold, hnew⟩ := (updateLevels_compacts hpick h.intact.arcs hout r).perm
  have hlevels : s'.db.sstables.flatten.Perm (r :: kept) := by
    rw [hdb]
    exact hnew
  have hssts : s'.world.disk.ssts = ((s.world.disk.withSst s.db.nextFileNumber f).removeSsts removed).ssts := by rw [hat.disk_eq]
  have hnumber : r.fileNumber = s.db.nextFileNumber := by rw [ho.reader]; rfl
  -- the output is in the directory before the inputs go
  have hmiddle : (r :: s.db.sstables.flatten).Perm (task.inputs ++ r :: kept) :=
    (hold.cons r).trans List.perm_middle.symm
  have hw : s.world.disk.Written s.db.nextFileNumber es (s.world.disk.withSst s.db.nextFileNumber f) := .finished hes hwf hentries
  have hadded := (Disk.Files.added hf h.unused hw hnumber ho.lookup).perm hmiddle
  refine ⟨((hadded.deleted hsub).perm hlevels.symm).congr hssts, ?_⟩
  rintro rfl hno
  exact (((Disk.Only.added hno hnumber).perm hmiddle).deleted.perm hlevels.symm).congr hssts

theorem compact_filed (h : s.Alone) (hf : s.Filed) (hpick : pickCompaction s.db.options.maxLevels s.db.sstables = some (some task)) :
    Triple (compact task) s (fun _ s' => s'.Filed ∧ (s.NoStrays → s'.NoStrays)) (fun _ s' => s'.Filed) := by
  refine (compact_spec task s h.next_ne_zero).mono ?_ ?_
  · rintro _ s' (⟨-, hdb, hat⟩ | hc)
    · have hsst : s'.db.sstables = s.db.sstables := by rw [hdb]; rfl
      unfold Sys.Filed Sys.NoStrays
      rw [hsst, hat.disk_eq]
      exact ⟨Disk.Files.written hf h.unused (.abandoned rfl), fun hno => Disk.Only.abandoned hno⟩
    · obtain ⟨hfiled, hno⟩ := hc.filed h hf hpick (List.Subset.refl _)
      exact ⟨hfiled, hno rfl⟩
  · rintro _ s' (⟨es, d, hd, ⟨vs, hdb⟩, manifest, hat⟩ | ⟨removed, hprefix, hc⟩)
    · have hsst : s'.db.sstables = s.db.sstables := by rw [hdb]; rfl
      have hfiles : d.Files s.db.sstables.flatten := by
        rcases hd with ⟨-, hw⟩ | rfl
        · exact Disk.Files.written hf h.unused hw
        · exact hf
      unfold Sys.Filed
      rw [hsst]
      exact hfiles.congr (by rw [hat.disk_eq])
    · exact (hc.filed h hf hpick hprefix.subset).1

-- ---------------------------------------------------------------------------
-- Calls
-- ---------------------------------------------------------------------------

theorem filed_rule : CallRule (fun s => s.Alone ∧ s.Filed) (fun s => s.Alone ∧ s.Filed) where
  weaken _ := id
  logs _ _ h hl := ⟨h.1.logs hl, h.2.kept hl.tablesKept⟩
  round s m rest h himm := by
    refine ((flushMemtableToSstable_alone h.1 himm).and (flushMemtableToSstable_filed h.1 h.2 m rest)).mono ?_ ?_
    · exact fun _ _ h' => ⟨h'.1.1, h'.2.1⟩
    · exact fun _ _ h' => ⟨h'.1.1, h'.2⟩
  compact s task h hpick := by
    refine ((compact_alone h.1 hpick).and (compact_filed h.1 h.2 hpick)).mono ?_ ?_
    · exact fun _ _ h' => ⟨h'.1.1, h'.2.1⟩
    · exact fun _ _ h' => ⟨h'.1.1, h'.2⟩

theorem Call.run_filed (c : Call) : Keeps (fun s => s.Alone ∧ s.Filed) c.run := by
  by_cases hc : c.IsWrite
  · refine Call.write_rule ?_ ?_ ?_ filed_rule.logs hc
    · exact fun s n h => ⟨h.1.bump n, h.2.kept (s.tablesKept_bump n)⟩
    · exact fun s ops h => ⟨h.1.insert ops, h.2.kept (s.tablesKept_insert ops)⟩
    · exact fun s h => ⟨h.1.freeze, h.2.kept s.tablesKept_freeze⟩
  · exact fun s h => filed_rule.call hc h ⟨h.1.frozen, h.2.kept s.tablesKept_frozen⟩

structure Sys.Tidied (s : Sys) : Prop where
  alone : s.Alone
  filed : s.Filed
  noStrays : s.NoStrays

theorem Sys.Tidied.kept (h : s.Tidied) (halone : s'.Alone) (hk : s.TablesKept s') : s'.Tidied :=
  ⟨halone, h.filed.kept hk, h.noStrays.kept hk⟩

theorem flushTables_tidied (h : s.Tidied) (hr : flushTables s = .ok () s') : s'.Tidied := by
  refine flushTables_returns (F := Sys.Tidied) ?_ (fun _ _ h hl => h.kept (h.alone.logs hl) hl.tablesKept)
    (h.kept h.alone.frozen s.tablesKept_frozen) hr
  intro s m rest n s' h himm hr
  obtain ⟨hfiled, hno⟩ := (flushMemtableToSstable_filed h.alone h.filed m rest).ok hr
  exact ⟨((flushMemtableToSstable_alone h.alone himm).ok hr).1, hfiled, hno h.noStrays⟩

theorem maybeTriggerCompaction_tidied (h : s.Tidied) :
    Triple maybeTriggerCompaction s (fun _ => Sys.Tidied) (fun _ _ => True) := by
  unfold maybeTriggerCompaction
  refine Triple.get_bind ?_
  dsimp only
  split
  · exact Triple.throw trivial
  · exact Triple.pure h
  · rename_i task hpick
    refine ((compact_alone h.alone hpick).and (compact_filed h.alone h.filed hpick)).mono ?_ fun _ _ _ => trivial
    exact fun _ _ h' => ⟨h'.1.1, h'.2.1, h'.2.2 h.noStrays⟩

theorem flush_tidied (h : s.Tidied) : Triple AiDb.flush s (fun _ => Sys.Tidied) (fun _ _ => True) := by
  rw [flush_eq]
  exact (Triple.returns fun _ s1 hr => flushTables_tidied h hr).bind fun _ s1 h1 => maybeTriggerCompaction_tidied h1

theorem Call.run_tidied (c : Call) (h : s.Tidied) : Triple c.run s (fun _ => Sys.Tidied) (fun _ _ => True) := by
  have hlogs : ∀ s s', Sys.Tidied s → s.Logs s' → s'.Tidied := fun _ _ h hl => h.kept (h.alone.logs hl) hl.tablesKept
  by_cases hc : c.IsWrite
  · have hwrite : Keeps Sys.Tidied c.run := by
      refine Call.write_rule ?_ ?_ ?_ hlogs hc
      · exact fun s n h => h.kept (h.alone.bump n) (s.tablesKept_bump n)
      · exact fun s ops h => h.kept (h.alone.insert ops) (s.tablesKept_insert ops)
      · exact fun s h => h.kept h.alone.freeze s.tablesKept_freeze
    exact (hwrite s h).mono (fun _ _ => id) fun _ _ _ => trivial
  · cases c with
    | flushTables => exact Triple.returns fun _ _ hr => flushTables_tidied h hr
    | maybeTriggerCompaction => exact maybeTriggerCompaction_tidied h
    | flush => exact flush_tidied h
    | close =>
      refine (flush_tidied h).bind fun _ s1 h1 => Triple.get_bind ?_
      split
      · exact (Keeps.of_logs hlogs (fun _ => walSync_logs) s1 h1).mono (fun _ _ => id) fun _ _ _ => trivial
      · exact Triple.pure h1
    | _ => exact absurd trivial hc

-- ---------------------------------------------------------------------------
-- Sessions
-- ---------------------------------------------------------------------------

theorem openDb_tidied (len : CompressedLen) (env : Env) (o : Options) :
    Triple (openDb o) ((World.empty len).enter env) (fun db w => Sys.Tidied ⟨db, w⟩) (fun _ _ => True) := by
  refine ((openDb_alone len env o).and (openDb_spec o _)).mono ?_ fun _ _ _ => trivial
  rintro db w ⟨⟨halone, hblank⟩, ⟨dir, logs, manifest, faults, arcs, -, -, rfl⟩, -⟩
  have hnil : db.sstables.flatten = [] := by
    have htables := hblank.tables
    simp_all
  refine ⟨halone, ?_, ?_⟩
  · unfold Sys.Filed
    rw [hnil]
    exact ⟨List.forall_mem_nil _, List.nodup_nil⟩
  · exact fun n hn => absurd hn (AList.notMem_empty n)

/-- In one session, whatever fails in it, every table of the levels has its file in the
directory under its own number; and if every step returns, the directory has no other
tables. -/
theorem oneSession_tables_filed (len : CompressedLen) (env : Env) (o : Options) (calls : List (Env × Call)) (db : DB) (w : World)
    (hrun : (State.init len).runs (oneSession env o calls) = ⟨some db, w⟩) :
    (∀ r ∈ db.sstables.flatten, w.disk.ssts.lookup r.fileNumber = some r.file) ∧
      (db.sstables.flatten.map SSTableReader.fileNumber).Nodup ∧
      ((State.init len).Along (fun st env a => (st.exec env a).1 = .ok ()) (oneSession env o calls) →
        ∀ n, n ∈ w.disk.ssts ↔ ∃ r ∈ db.sstables.flatten, r.fileNumber = n) := by
  have hfiled := oneSession_rule (J := fun s => s.Alone ∧ s.Filed)
    (fun env o => (openDb_tidied len env o).mono (fun _ _ h => ⟨h.alone, h.filed⟩) fun _ _ _ => trivial)
    (fun db w env h => ⟨h.1.enter env, h.2⟩) (fun db w env c h _ => Call.run_filed c _ ⟨h.1.enter env, h.2⟩)
    (State.along_true (oneSession env o calls)) (by rw [hrun])
  rw [hrun] at hfiled
  refine ⟨hfiled.2.found, hfiled.2.nodup, fun halong n => ⟨fun hn => ?_, ?_⟩⟩
  · have htidied := oneSession_rule (J := Sys.Tidied) (openDb_tidied len)
      (fun db w env h => ⟨h.alone.enter env, h.filed, h.noStrays⟩) (fun db w env c h hreturns => ?_) halong (by rw [hrun])
    · rw [hrun] at htidied
      exact List.mem_map.mp (htidied.noStrays n hn)
    · have h' : Sys.Tidied ⟨db, w.enter env⟩ := ⟨h.alone.enter env, h.filed, h.noStrays⟩
      refine Triple.intro (fun u s' hr => (Call.run_tidied c h').ok hr) fun e s' hr => ?_
      simp only [State.exec, hr] at hreturns
      cases e <;> cases hreturns
  · rintro ⟨r, hr, rfl⟩
    exact hfiled.2.mem hr

def fourTablesCompacted : List (Env × Action) :=
  oneSession .calm .plain ((List.replicate 4 [(.calm, .put [97] [1]), (.calm, .flushTables)]).flatten ++
    [(.calm, .maybeTriggerCompaction)])

def State.tableNumbers (st : State) : Option (List Nat) :=
  st.db.map fun db => db.sstables.flatten.map SSTableReader.fileNumber

theorem oneSession_tables_filed_fourTables : ∃ db w, (State.init .unused).runs fourTablesCompacted = ⟨some db, w⟩ ∧
    ∃ r, db.sstables.flatten = [r] ∧ r.fileNumber = 6 ∧ w.disk.ssts.lookup 6 = some r.file ∧
      ∀ n, n ∈ w.disk.ssts ↔ n = 6 := by
  have hnumbers : ((State.init .unused).runs fourTablesCompacted).tableNumbers = some [6] := by decide +kernel
  have halong : (State.init .unused).Along (fun st env a => (st.exec env a).1 = .ok ()) fourTablesCompacted := by
    have hcheck : (State.init .unused).checkAlong (fun st env a => decide ((st.exec env a).1 = .ok ()))
        fourTablesCompacted = true := by decide +kernel
    exact State.along_of_check (fun _ _ _ => of_decide_eq_true) hcheck
  obtain ⟨db, hdb, hnumbers⟩ := Option.map_eq_some_iff.mp hnumbers
  have hrun : (State.init .unused).runs fourTablesCompacted =
      ⟨some db, ((State.init .unused).runs fourTablesCompacted).world⟩ := by rw [← hdb]
  obtain ⟨r, hr, hnumber⟩ := List.map_eq_singleton_iff.mp hnumbers
  obtain ⟨hfound, -, honly⟩ := oneSession_tables_filed .unused .calm .plain _ db _ hrun
  rw [hr] at hfound honly
  refine ⟨db, _, hrun, r, hr, hnumber, ?_, fun n => ?_⟩
  · rw [← hnumber]
    exact hfound r (List.mem_singleton_self r)
  · rw [honly halong n]
    simp [hnumber, eq_comm]

end AiDb
