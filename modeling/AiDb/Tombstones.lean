import AiDb.DeepLevels

/-!
# Dropped tombstones

A compaction drops the tombstones among its inputs. The tables of level 1 and deeper
are outputs of compactions of the same session, so they hold none, and no later table
goes into their files. So only a compaction of level 0 drops tombstones, and whether
a deeper table still holds the key is left to the data.
-/

namespace AiDb

open Library Compaction

variable {s s' : Sys} {db : DB} {w w' : World}

-- ---------------------------------------------------------------------------
-- Deep tables hold no tombstones
-- ---------------------------------------------------------------------------

structure Sys.DeepLive (s : Sys) : Prop where
  file_lt : ∀ r ∈ s.db.sstables.tail.flatten, r.file < s.world.disk.files.length
  below : ∀ r ∈ s.db.sstables.tail.flatten, ∀ n, s.world.disk.ssts.lookup n = some r.file → n < s.db.nextFileNumber
  live : ∀ r ∈ s.db.sstables.tail.flatten, ∀ e ∈ s.world.disk.entriesOf r, e.value.bytes ≠ []

theorem Sys.DeepLive.kept (h : s.DeepLive) (hk : s.TablesKept s') : s'.DeepLive := by
  obtain ⟨hfile, hbelow, hlive⟩ := h
  refine ⟨?_, ?_, ?_⟩
  · rw [hk.sstables, hk.files]
    exact hfile
  · rw [hk.sstables, hk.ssts, hk.nextFileNumber]
    exact hbelow
  · rw [hk.sstables]
    intro r hr e he
    rw [Disk.entriesOf, hk.files] at he
    exact hlive r hr e he

theorem Sys.DeepLive.step (h : s.DeepLive) (hnext : s'.db.nextFileNumber = s.db.nextFileNumber + 1)
    (hleaves : s.world.disk.Leaves s.db.nextFileNumber s'.world.disk)
    (hlen : s.world.disk.files.length ≤ s'.world.disk.files.length)
    (htail : ∀ r ∈ s'.db.sstables.tail.flatten, r ∈ s.db.sstables.tail.flatten ∨
      r.file < s'.world.disk.files.length ∧ (∀ n, s'.world.disk.ssts.lookup n = some r.file → n = s.db.nextFileNumber) ∧
        ∀ e ∈ s'.world.disk.entriesOf r, e.value.bytes ≠ []) : s'.DeepLive := by
  have hold : ∀ r ∈ s.db.sstables.tail.flatten, s'.world.disk.files[r.file]? = s.world.disk.files[r.file]? ∧
      ∀ n, s'.world.disk.ssts.lookup n = some r.file → s.world.disk.ssts.lookup n = some r.file :=
    fun r hr => hleaves r.file (h.file_lt r hr) fun hn => lt_irrefl _ (h.below r hr _ hn)
  refine ⟨fun r hr => ?_, fun r hr n hn => ?_, fun r hr e he => ?_⟩
  · rcases htail r hr with hr | ⟨hlt, -⟩
    · exact lt_of_lt_of_le (h.file_lt r hr) hlen
    · exact hlt
  · rw [hnext]
    rcases htail r hr with hr | ⟨-, hown, -⟩
    · exact Nat.lt_succ_of_lt (h.below r hr n ((hold r hr).2 n hn))
    · exact Nat.lt_succ_of_le (le_of_eq (hown n hn))
  · rcases htail r hr with hr | ⟨-, -, hlive⟩
    · rw [Disk.entriesOf, (hold r hr).1] at he
      exact h.live r hr e he
    · exact hlive e he

theorem Sys.DeepLive.atTables (h : s.DeepLive) (hd : s.world.disk.Written s.db.nextFileNumber es d)
    (htail : levels.tail = s.db.sstables.tail)
    (hat : s'.AtTables { s.handOut.db with sstables := levels } s.handOut.world d) : s'.DeepLive := by
  obtain ⟨⟨vs, hdb⟩, manifest, hat⟩ := hat
  refine h.step (by rw [hdb]; rfl) (by rw [hat.disk_eq]; exact hd.leaves) (by rw [hat.disk_eq]; exact hd.length_le) ?_
  intro r hr
  have hsst : s'.db.sstables = levels := by rw [hdb]
  rw [hsst, htail] at hr
  exact .inl hr

theorem mem_tail_modify {levels : List (List α)} {f : List α → List α} (hf : ∀ l, ∀ x ∈ f l, x = a ∨ x ∈ l)
    (hx : x ∈ (levels.modify i f).tail.flatten) : x = a ∨ x ∈ levels.tail.flatten := by
  cases levels with
  | nil => simp at hx
  | cons l levels =>
    cases i with
    | zero => exact .inr hx
    | succ i => exact mem_flatten_modify hf hx

theorem mem_tail_updateLevels (hx : x ∈ (updateLevels task r levels).tail.flatten) :
    x = r ∨ x ∈ levels.tail.flatten := by
  unfold updateLevels at hx
  refine (mem_tail_modify (fun l y hy => ?_) hx).elim .inl fun hx => ?_
  · split at hy
    · exact List.mem_cons.mp hy
    · exact (List.mem_append.mp hy).symm.imp_left List.mem_singleton.mp
  · exact mem_tail_modify (fun l y hy => .inr (List.mem_of_mem_filter hy)) hx

theorem Sys.DeepLive.compacted (h : s.DeepLive) (hsane : s.world.disk.Sane) (hout : 0 < task.outputLevel)
    (hc : s.Compacted task removed s') : s'.DeepLive := by
  obtain ⟨es, f, r, hjob, -, hwf, hentries, ho, -, -, ⟨vs, hdb⟩, manifest, hat⟩ := hc
  have hfiles : s'.world.disk.files = (s.world.disk.withSst s.db.nextFileNumber f).files := by
    rw [hat.disk_eq]
    exact Disk.removeSsts_files _ _
  have hssts : ∀ n file, s'.world.disk.ssts.lookup n = some file →
      (s.world.disk.withSst s.db.nextFileNumber f).ssts.lookup n = some file := by
    intro n file hn
    rw [hat.disk_eq] at hn
    exact Disk.lookup_removeSsts hn
  have hleaves : s.world.disk.Leaves s.db.nextFileNumber s'.world.disk := by
    rw [hat.disk_eq]
    exact (Disk.leaves_withSst _ _ f).removeSsts removed
  have hcontent : s'.world.disk.files[r.file]? = some (.complete f) := by
    rw [hfiles]
    exact ho.content
  refine h.step (by rw [hdb]; rfl) hleaves ?_ fun x hx => ?_
  · rw [hfiles, Disk.withSst, Disk.length_finishSst]
    exact Disk.length_createSst
  · have hsst : s'.db.sstables = updateLevels task r s.db.sstables := by rw [hdb]
    rw [hsst] at hx
    rcases mem_tail_updateLevels hx with rfl | hx
    · refine .inr ⟨(List.getElem?_eq_some_iff.mp hcontent).1, fun n hn => ?_, ?_⟩
      · exact (hsane.withSst s.db.nextFileNumber hwf).apart _ _ _ (hssts n _ hn) ho.lookup
      · rw [Disk.entriesOf, hcontent]
        show ∀ e ∈ f.entries, _
        rw [hentries]
        exact Sys.jobEntries_live hjob hout
    · exact .inl hx

theorem deepLive_rule : CallRule (fun s => s.Reached ∧ s.DeepLive) (fun s => s.Reached ∧ s.DeepLive) where
  weaken _ := id
  logs s s' h hl := ⟨h.1.logs hl, h.2.kept hl.tablesKept⟩
  round s m rest h himm := by
    have hp := h.2.kept (s.tablesKept_popped rest)
    have hrun := (reached_rule.round s m rest h.1 himm).and (flushMemtableToSstable_spec m (s.popped rest))
    refine hrun.mono ?_ ?_
    · rintro _ s' ⟨hr, ⟨hes, hdb, hat⟩ | ⟨hes, f, r, hwf, hentries, hdb, hat, -⟩⟩
      · exact ⟨hr, hp.atTables (.abandoned hes) rfl (.intro hdb hat)⟩
      · exact ⟨hr, hp.atTables (.finished hes hwf hentries) (headD_modify_zero _ r).2 (.intro hdb hat)⟩
    · rintro _ s' ⟨hr, hdb, d, hd, hat⟩
      exact ⟨hr, hp.atTables hd rfl (.intro hdb hat)⟩
  compact s task h hpick := by
    have hne : s.db.nextFileNumber ≠ 0 := by have := h.1.two_le; omega
    have hout := pickCompaction_outputLevel hpick
    have hrun := (reached_rule.compact s task h.1 hpick).and (compact_spec task s hne)
    refine hrun.mono ?_ ?_
    · rintro _ s' ⟨hr, ⟨-, hdb, hat⟩ | hc⟩
      · exact ⟨hr, h.2.atTables (.abandoned rfl) rfl (.intro hdb hat)⟩
      · exact ⟨hr, h.2.compacted h.1.sane hout hc⟩
    · rintro _ s' ⟨hr, ⟨es, d, hd, hat⟩ | ⟨removed, -, hc⟩⟩
      · rcases hd with ⟨-, hd⟩ | rfl
        · exact ⟨hr, h.2.atTables hd rfl hat⟩
        · exact ⟨hr, h.2.atTables (.untouched : s.world.disk.Written _ [] _) rfl hat⟩
      · exact ⟨hr, h.2.compacted h.1.sane hout hc⟩

theorem Call.run_deepLive (c : Call) : Keeps (fun s => s.Reached ∧ s.DeepLive) c.run := by
  by_cases hc : c.IsWrite
  · intro s h
    refine ((Call.run_reached c s h.1).and (c.run_tablesKept hc s)).mono ?_ ?_
    · exact fun _ s' hs => ⟨hs.1, h.2.kept hs.2⟩
    · exact fun _ s' hs => ⟨hs.1, h.2.kept hs.2⟩
  · exact fun s h => deepLive_rule.call hc h ⟨h.1.frozen, h.2.kept s.tablesKept_frozen⟩

theorem Sys.DeepLive.enter (h : Sys.DeepLive ⟨db, w⟩) (env : Env) : Sys.DeepLive ⟨db, w.enter env⟩ :=
  ⟨h.file_lt, h.below, h.live⟩

theorem deepLive_invariant : Invariant (fun s => s.Reached ∧ s.DeepLive) (·.disk.Sane) fun _ _ _ => True where
  leave h := h.1.sane
  enterOpen h := ⟨h.1.enter _, h.2.enter _⟩
  enterClosed h := h
  opened := by
    intro w env o hsane _
    have hopen : Triple (AiDb.openDb o) (w.enter env) (fun db w' => Sys.Reached ⟨db, w'⟩) (fun _ w' => w'.disk.Sane) :=
      reached_invariant.opened hsane trivial
    refine (hopen.and (openDb_spec o _)).mono ?_ fun _ _ h => h.1
    rintro db w' ⟨hr, -, recovered, tables, vs, lo, hi, rfl, -⟩
    exact ⟨hr, by simp [openedDb], by simp [openedDb], by simp [openedDb]⟩
  called h _ := Call.run_deepLive _ _ ⟨h.1.enter _, h.2.enter _⟩
  dropped := by
    intro db w env h _
    have hreached := h.1.enter env
    have hdeep := h.2.enter env
    exact (deepLive_rule.dropDb ⟨hreached.frozen, hdeep.kept (Sys.tablesKept_frozen _)⟩).mono (fun _ _ h => h.1.sane)
      (fun _ _ h => h.1.sane)

theorem State.deepLive {st : State} (h : st.Reachable len) (hdb : st.db = some db) :
    Sys.Reached ⟨db, st.world⟩ ∧ Sys.DeepLive ⟨db, st.world⟩ := by
  obtain ⟨run, rfl⟩ := h
  have hinit : (State.init len).Holds (fun s => s.Reached ∧ s.DeepLive) (·.disk.Sane) := Disk.sane_empty
  have hrun := deepLive_invariant.runs hinit (State.along_true run)
  unfold State.Holds at hrun
  rwa [hdb] at hrun

-- ---------------------------------------------------------------------------
-- What a job drops
-- ---------------------------------------------------------------------------

/-- The keys whose tombstones the job of the task drops. -/
def Sys.dropped (s : Sys) (task : CompactionTask) : List Bytes :=
  match jobMerge s.world s.created task.inputs with
  | .ok merged => discarded task.outputLevel none merged
  | .error _ => []

/-- No table outside the inputs, at the level of the task or deeper, has an entry for a key
whose tombstone is dropped. -/
def Sys.DropsSafely (s : Sys) (task : CompactionTask) : Prop :=
  ∀ key ∈ s.dropped task, ∀ level ∈ s.db.sstables.drop task.level, ∀ r ∈ level, r ∉ task.inputs →
    ∀ e ∈ s.world.disk.entriesOf r, e.key ≠ key

def Sys.HeldDeep (s : Sys) (key : Bytes) : Prop :=
  ∃ r ∈ s.db.sstables.tail.flatten, ∃ e ∈ s.world.disk.entriesOf r, e.key = key

/-- Whatever is read and whatever is not: what is dropped was a tombstone in an input. -/
theorem Sys.mem_dropped (h : key ∈ s.dropped task) :
    ∃ r ∈ task.inputs, ∃ e ∈ s.world.disk.entriesOf r, e.key = key ∧ e.value.bytes = [] := by
  unfold Sys.dropped at h
  cases hmerge : jobMerge s.world s.created task.inputs with
  | error e => simp [hmerge] at h
  | ok merged =>
    rw [hmerge] at h
    obtain ⟨-, e, he, hkey, hnil⟩ := mem_discarded h
    obtain ⟨r, hr, her⟩ := Sys.mem_jobMerge hmerge he
    exact ⟨r, hr, e, her, hkey, hnil⟩

theorem Sys.DropsSafely.of_level0 (hlevels : s.db.sstables = l :: ls)
    (h : ∀ key ∈ s.dropped ⟨l, 0, 1⟩, ¬s.HeldDeep key) : s.DropsSafely ⟨l, 0, 1⟩ := by
  intro key hkey level hlevel r hr hnot e he heq
  rw [List.drop_zero, hlevels] at hlevel
  rcases List.mem_cons.mp hlevel with rfl | hlevel
  · exact hnot hr
  · refine h key hkey ⟨r, ?_, e, he, heq⟩
    rw [hlevels]
    exact List.mem_flatten.mpr ⟨level, hlevel, hr⟩

theorem Sys.DeepLive.dropped_nil (h : s.DeepLive) (hi : 0 < i) (hlevel : s.db.sstables[i]? = some (r :: rest)) :
    s.dropped ⟨[r], i, i + 1⟩ = [] := by
  refine List.eq_nil_iff_forall_not_mem.mpr fun key hkey => ?_
  obtain ⟨x, hx, e, he, -, hnil⟩ := Sys.mem_dropped hkey
  obtain rfl := List.mem_singleton.mp hx
  refine h.live x (List.mem_flatten.mpr ⟨x :: rest, ?_, List.mem_cons_self⟩) e he hnil
  obtain ⟨i, rfl⟩ := Nat.exists_eq_succ_of_ne_zero (Nat.ne_of_gt hi)
  rw [← List.getElem?_tail] at hlevel
  exact List.mem_of_getElem? hlevel

/-- On readable tables a task of level 0 drops the keys whose newest version in level 0
is a tombstone. -/
theorem Sys.Intact.mem_dropped_iff (hs : s.Intact) (hread : ∀ file off, s.world.unreadable file off = false)
    (hunused : s.db.nextFileNumber ∉ s.world.disk.ssts) (hin : ∀ r ∈ task.inputs, r ∈ s.db.sstables.flatten)
    (hout : 0 < task.outputLevel) : key ∈ s.dropped task ↔
      ∃ v, firstStored (task.inputs.map s.world.disk.entriesOf) key = some v ∧ v.bytes = [] := by
  obtain ⟨merged, hmerge, hfrom, hstored⟩ := hs.jobMerge_ok hread hunused hin
  have hmerge : jobMerge s.world s.created task.inputs = .ok merged := hmerge
  unfold Sys.dropped
  rw [hmerge, ← hstored key]
  exact (mem_discarded_iff hfrom (by simp)).trans (and_iff_right hout)

theorem Sys.Intact.dropsSafely_iff (hs : s.Intact) (hlevels : s.db.sstables = l :: ls) :
    s.DropsSafely ⟨l, 0, 1⟩ ↔ ∀ key ∈ s.dropped ⟨l, 0, 1⟩, ¬s.HeldDeep key := by
  refine ⟨?_, Sys.DropsSafely.of_level0 hlevels⟩
  rintro h key hkey ⟨r, hr, e, he, heq⟩
  rw [hlevels] at hr
  obtain ⟨level, hlevel, hr⟩ := List.mem_flatten.mp hr
  -- no reader is in two levels
  have hnot : r ∉ l := by
    intro hl
    have harcs := hs.arcs
    rw [hlevels, List.flatten_cons, List.map_append, List.nodup_append] at harcs
    exact harcs.2.2 _ (List.mem_map_of_mem hl) _ (List.mem_map_of_mem (List.mem_flatten.mpr ⟨level, hlevel, hr⟩)) rfl
  refine h key hkey level ?_ r hr hnot e he heq
  rw [List.drop_zero, hlevels]
  exact List.mem_cons_of_mem _ hlevel

/-- In every state of every run: a task of level 1 or deeper drops nothing that hides
anything, nor does one of level 0 if no key with a tombstone in level 0 is held deeper.
As long as no table file was written over and every block can be read, it is the newest
version of the key in level 0 that counts. -/
theorem tombstones_dropped_safely_iff {st : State} (h : st.Reachable len) (hdb : st.db = some db) (env : Env)
    (hpick : pickCompaction db.options.maxLevels db.sstables = some (some task)) :
    ((task.level = 0 → ∀ r ∈ db.sstables.headD [], ∀ e ∈ st.world.disk.entriesOf r, e.value.bytes = [] →
        ¬Sys.HeldDeep ⟨db, st.world⟩ e.key) → Sys.DropsSafely ⟨db, st.world.enter env⟩ task) ∧
      ((Sys.handOut ⟨db, st.world⟩).world.NoOverwrite → (∀ file off, env.unreadable file off = false) →
        (Sys.DropsSafely ⟨db, st.world.enter env⟩ task ↔ (task.level = 0 → ∀ key v,
          firstStored ((db.sstables.headD []).map st.world.disk.entriesOf) key = some v → v.bytes = [] →
            ¬Sys.HeldDeep ⟨db, st.world⟩ key))) := by
  obtain ⟨hreached, hdeep⟩ := State.deepLive h hdb
  have hdeep := hdeep.enter env
  rcases pickCompaction_cases hpick with ⟨l, ls, hl, -, rfl⟩ | ⟨-, i, r, rest, hi, hlevel, rfl⟩
  · have hhead : db.sstables.headD [] = l := by simp [hl]
    refine ⟨fun hcond => Sys.DropsSafely.of_level0 hl fun key hkey => ?_, fun hno hread => ?_⟩
    · obtain ⟨r, hr, e, he, rfl, hnil⟩ := Sys.mem_dropped hkey
      exact hcond rfl r (by rw [hhead]; exact hr) e he hnil
    · obtain ⟨hunused, hno⟩ := (Sys.noOverwrite_handOut ⟨db, st.world⟩).mp hno
      have hs := ((hreached.enter env).intact hno)
      rw [hs.dropsSafely_iff hl, hhead]
      simp only [true_imp_iff]
      refine forall_congr' fun key => ?_
      rw [hs.mem_dropped_iff hread hunused (picked_mem hpick) Nat.one_pos]
      exact ⟨fun hcond v hv hnil => hcond ⟨v, hv, hnil⟩, fun hcond ⟨v, hv, hnil⟩ => hcond v hv hnil⟩
  · have hsafe : Sys.DropsSafely ⟨db, st.world.enter env⟩ ⟨[r], i, i + 1⟩ := by
      intro key hkey
      rw [hdeep.dropped_nil hi hlevel] at hkey
      cases hkey
    have hne : i ≠ 0 := Nat.ne_of_gt hi
    exact ⟨fun _ => hsafe, fun _ _ => iff_of_true hsafe fun hzero => absurd hzero hne⟩

def deletedAndFlushed : List (Env × Action) :=
  [.call (.delete [97]), .call .flush, .call (.put [98] [1]), .call .flush, .call (.put [98] [2]), .call .flush,
    .call (.put [98] [3]), .call .flushTables].map (Env.calm, ·)

theorem tombstones_dropped_safely_nothingDeep : ∃ (st : State) (db : DB) (task : CompactionTask), st.Reachable .unused ∧ st.db = some db ∧
    pickCompaction db.options.maxLevels db.sstables = some (some task) ∧
    [97] ∈ Sys.dropped ⟨db, st.world.enter .calm⟩ task ∧ Sys.DropsSafely ⟨db, st.world.enter .calm⟩ task := by
  obtain ⟨st, hst⟩ : ∃ st, st = (State.init .unused).runs ((.calm, .openDb .plain) :: deletedAndFlushed) := ⟨_, rfl⟩
  have hrun : st.db.bind (fun db => (pickCompaction db.options.maxLevels db.sstables).join.map fun task =>
      (decide ([97] ∈ Sys.dropped ⟨db, st.world.enter .calm⟩ task), db.sstables.tail.flatten.length)) = some (true, 0) := by
    rw [hst]
    decide +kernel
  obtain ⟨db, hdb, hrun⟩ := Option.bind_eq_some_iff.mp hrun
  obtain ⟨task, hpick, hrun⟩ := Option.map_eq_some_iff.mp hrun
  obtain ⟨hdropped, hnil⟩ := Prod.mk.inj hrun
  have hpick := Option.join_eq_some_iff.mp hpick
  have hreach : st.Reachable .unused := ⟨_, hst.symm⟩
  refine ⟨st, db, task, hreach, hdb, hpick, of_decide_eq_true hdropped,
    (tombstones_dropped_safely_iff hreach hdb .calm hpick).1 fun _ _ _ e _ _ => ?_⟩
  rintro ⟨r, hr, -⟩
  rw [List.length_eq_zero_iff.mp hnil] at hr
  cases hr

def State.dropsUnsafely (st : State) (key : Bytes) : Bool :=
  st.db.any fun db => (pickCompaction db.options.maxLevels db.sstables).join.any fun task =>
    decide (key ∈ Sys.dropped ⟨db, st.world.enter .calm⟩ task) &&
      (db.sstables.drop task.level).flatten.any fun r =>
        !(task.inputs.any fun input => input.arc = r.arc) && (st.world.disk.entriesOf r).any fun e => e.key = key

theorem State.dropsUnsafely_sound {st : State} (h : st.dropsUnsafely key = true) : ∃ db task, st.db = some db ∧
    pickCompaction db.options.maxLevels db.sstables = some (some task) ∧
    ¬Sys.DropsSafely ⟨db, st.world.enter .calm⟩ task := by
  obtain ⟨db, hdb, h⟩ := (Option.any_eq_true _ _).mp h
  obtain ⟨task, hpick, h⟩ := (Option.any_eq_true _ _).mp h
  rw [Bool.and_eq_true, List.any_eq_true] at h
  obtain ⟨hdropped, r, hr, h⟩ := h
  rw [Bool.and_eq_true, List.any_eq_true] at h
  obtain ⟨hnot, e, he, hkey⟩ := h
  obtain ⟨level, hlevel, hr⟩ := List.mem_flatten.mp hr
  refine ⟨db, task, hdb, Option.join_eq_some_iff.mp hpick, fun hsafe => ?_⟩
  refine hsafe key (of_decide_eq_true hdropped) level hlevel r hr (fun hmem => ?_) e he (of_decide_eq_true hkey)
  simp only [Bool.not_eq_true', List.any_eq_false, decide_eq_true_eq] at hnot
  exact hnot r hmem rfl

/-- The key is put and flushed four times, which takes it to level 1, before it is deleted. -/
theorem not_tombstones_dropped_safely : ∃ (st : State) (db : DB) (task : CompactionTask), st.Reachable .unused ∧ st.db = some db ∧
    pickCompaction db.options.maxLevels db.sstables = some (some task) ∧
    ¬Sys.DropsSafely ⟨db, st.world.enter .calm⟩ task := by
  obtain ⟨st, hst⟩ : ∃ st, st = (State.init .unused).runs ((.calm, .openDb .plain) ::
      (List.replicate 4 [(.calm, .call (.put [97] [1])), (.calm, .call .flush)]).flatten ++ deletedAndFlushed) := ⟨_, rfl⟩
  have hrun : st.dropsUnsafely [97] = true := by
    rw [hst]
    decide +kernel
  obtain ⟨db, task, hdb, hpick, hnot⟩ := State.dropsUnsafely_sound hrun
  exact ⟨st, db, task, ⟨_, hst.symm⟩, hdb, hpick, hnot⟩

end AiDb
