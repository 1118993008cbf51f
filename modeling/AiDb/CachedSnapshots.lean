import AiDb.CachedRuns
import AiDb.Immutability

/-!
# Snapshots of a handle with a cache

A snapshot reads through the block cache of its handle. It shows what was there when it was
taken as long as the calls after it leave that to be found, and no file number comes back
under which a table is on the disk or a block in the cache.
-/

namespace AiDb

open Library Compaction

namespace Cached

variable {s s' : CSys} {start : World} {view : Bytes → Option Bytes}

-- ---------------------------------------------------------------------------
-- Calls
-- ---------------------------------------------------------------------------

theorem maybeTriggerCompaction_showing (h : s.sys.Showing seq start view) (hc : s.sys.CompactsUnseenAt seq) :
    Triple Cached.maybeTriggerCompaction s (fun _ s' => s'.sys.Showing seq start view)
      (fun _ s' => s'.sys.Showing seq start view) := by
  unfold Cached.maybeTriggerCompaction
  refine Triple.get_bind ?_
  dsimp only
  split
  · exact Triple.throw h
  · exact Triple.pure h
  · rename_i task hpick
    have hne : s.sys.db.nextFileNumber ≠ 0 := by have := h.reached.two_le; omega
    have hdone : ∀ s', s.CompactionLeft task s' → s'.sys.Showing seq start view := by
      intro s' hleft
      have hreached : s'.sys.Reached := h.reached.tableStep hleft.tableStep fun hs hunused =>
        (hleft.intact hs hunused hpick).1
      refine h.compaction hc hpick hreached hleft.tableStep fun hs hunused => ?_
      refine (hleft.intact hs hunused hpick).2.imp_right ?_
      rintro ⟨es, hjob, hes, htables⟩
      exact hs.merges hc.readable hunused hpick hjob (by rwa [if_neg hes])
    exact (compact_spec task s hne).mono (fun _ => hdone) (fun _ => hdone)

theorem flushTables_showing (h : s.sys.Showing seq start view) (hc : s.sys.FlushesUnseen seq) :
    Triple (onSys flushTables) s (fun _ s' => s'.sys.Showing seq start view) (fun _ s' => s'.sys.Showing seq start view) :=
  (onSys_spec (AiDb.flushTables_showing h hc)).mono (fun _ _ h => h.2) (fun _ _ h => h.2)

theorem logs_showing {m : M Unit} (hm : ∀ t : Sys, Keeps t.Logs m) :
    Keeps (fun s : CSys => s.sys.Showing seq start view) (onSys m) :=
  keeps_onSys (Keeps.of_logs (fun _ _ h hl => h.logs hl) hm)

theorem flush_showing (h : s.sys.Showing seq start view) (hc : s.sys.LeavesSnapshot seq .flush) :
    Triple Cached.flush s (fun _ s' => s'.sys.Showing seq start view) (fun _ s' => s'.sys.Showing seq start view) := by
  have hf := flushTables_showing h hc.1
  refine Triple.bind (Q := fun _ s1 => s1.sys.Showing seq start view ∧ s1.sys.CompactsUnseenAt seq) ?_
    fun _ s1 h1 => maybeTriggerCompaction_showing h1.1 h1.2
  refine Triple.intro (fun _ s1 hr => ⟨hf.ok hr, hc.2 s1.sys ?_⟩) fun _ s1 hr => hf.error hr
  unfold onSys at hr
  split at hr
  · rename_i hrun
    cases hr
    exact hrun
  · cases hr

theorem runCached_showing {c : Call} (h : s.sys.Showing seq start view) (hc : s.sys.LeavesSnapshot seq c) :
    Triple c.runCached s (fun _ s' => s'.sys.Showing seq start view) (fun _ s' => s'.sys.Showing seq start view) := by
  cases c with
  | put key value => exact keeps_onSys (Call.run_write_showing (c := .put key value) trivial) s h
  | delete key => exact keeps_onSys (Call.run_write_showing (c := .delete key) trivial) s h
  | write batch => exact keeps_onSys (Call.run_write_showing (c := .write batch) trivial) s h
  | flushTables => exact flushTables_showing h hc
  | maybeTriggerCompaction => exact maybeTriggerCompaction_showing h hc
  | flush => exact flush_showing h hc
  | close =>
    refine (flush_showing h hc).bind fun _ s1 h1 => ?_
    exact (Keeps.get.bind fun s => Keeps.ite (logs_showing fun _ => walSync_logs) Keeps.pure) s1 h1

-- ---------------------------------------------------------------------------
-- Runs
-- ---------------------------------------------------------------------------

/-- A step of the run after the snapshot: reads are free, and calls meet their condition. -/
def State.LeavesSnapshot (seq : Nat) (st : State) (env : Env) : Action → Prop
  | .call c => ∀ db cache, st.session = some (db, cache) → Sys.LeavesSnapshot seq ⟨db, st.world.enter env⟩ c
  | .getAtSequence _ _ | .clearCache => True
  | .openDb _ _ | .drop | .crash => False

theorem showing_invariant : Invariant (Sys.Showing seq start view) (fun _ => True) (State.LeavesSnapshot seq) where
  leave _ := trivial
  enterOpen h := h.enter _
  enterClosed _ := trivial
  opened _ hP := hP.elim
  called h hP := runCached_showing (h.enter _) (hP _ _ rfl)
  dropped _ hP := hP.elim

theorem showing_getAtSequence (h : s.sys.Showing seq start view) (hno : s.sys.world.NoOverwrite)
    (hcalm : ∀ file off, s.sys.world.unreadable file off = false) (hgood : s.Good) (hread : s.sys.TablesRead) (key : Bytes) :
    ∃ s', getAtSequence key seq s = .ok (view key) s' ∧ s'.sys = s.sys ∧ s'.Good := by
  obtain ⟨v, s', hrun, hsys, hgood', hget⟩ := getAtSequence_ok hgood hread key seq
  have hseen : s.sys.getAtSequence key seq = .ok (s.sys.seen seq key) :=
    (h.reached.intact hno).getAtSequence_eq hcalm seq key
  rw [h.seen hno, hget] at hseen
  cases hseen
  exact ⟨s', hrun, hsys, hgood'⟩

theorem State.Holds.handle {J : Sys → Prop} {K : World → Prop} {st : State} (h : st.Holds J K)
    (hs : st.handle env = some s) : ∃ db, J ⟨db, st.world⟩ ∧ s.sys = ⟨db, st.world.enter env⟩ := by
  obtain ⟨⟨db, cache⟩, hst, rfl⟩ := Option.map_eq_some_iff.mp hs
  unfold State.Holds at h
  rw [hst] at h
  exact ⟨db, h, rfl⟩

/-- A snapshot in any state of any run, and any run after it whose calls meet the condition
where they start: as long as the file numbers handed out are fresh, and those of no file of
the directory, the snapshot reads for every key what `DB::get` read when it was taken. -/
theorem snapshot_get_eq_of_leavesSnapshot (len : CompressedLen) (acts more : List (Env × Action))
    (hfresh : (State.init len).Along State.HandsOutFresh acts) (hs : ((State.init len).runs acts).handle .calm = some s)
    (hmore : ((State.init len).runs acts).Along
      (fun st env a => st.HandsOutFresh env a ∧ st.LeavesSnapshot s.sys.db.sequence env a) more)
    (hs' : (((State.init len).runs acts).runs more).handle .calm = some s') (hno : s'.sys.world.NoOverwrite)
    (hread : s.sys.TablesRead) (hread' : s'.sys.TablesRead) (key : Bytes) :
    ∃ v t t', getAtSequence key s.sys.db.sequence s = .ok v t ∧ getAtSequence key s.sys.db.sequence s' = .ok v t' := by
  have hinit : (State.init len).Agrees := Disk.sane_empty
  have hagrees := hinit.runs hfresh
  have hagrees' := hagrees.runs (hmore.mono fun _ _ _ h => h.1)
  obtain ⟨⟨db, cache⟩, hst, rfl⟩ := Option.map_eq_some_iff.mp hs
  generalize hgen : (State.init len).runs acts = st at *
  have hreached : Sys.Reached ⟨db, st.world⟩ := by
    rw [← hgen] at hst ⊢
    exact State.reached hst
  have hstart : Sys.Showing db.sequence st.world (Sys.seen ⟨db, st.world⟩ db.sequence) ⟨db, st.world⟩ :=
    ⟨hreached, le_refl _, id, fun _ _ => rfl⟩
  have hholds : st.Holds (Sys.Showing db.sequence st.world (Sys.seen ⟨db, st.world⟩ db.sequence)) fun _ => True := by
    unfold State.Holds
    rw [hst]
    exact hstart
  obtain ⟨db', hend, hsys'⟩ := (showing_invariant.runs hholds (hmore.mono fun _ _ _ h => h.2)).handle hs'
  have hend' : s'.sys.Showing db.sequence st.world (Sys.seen ⟨db, st.world⟩ db.sequence) := by
    rw [hsys']
    exact hend.enter .calm
  obtain ⟨t', hrun', -⟩ := showing_getAtSequence hend' hno (State.readable_handle hs') (hagrees'.good hs') hread' key
  obtain ⟨t, hrun, -⟩ := showing_getAtSequence (s := ⟨⟨db, st.world.enter .calm⟩, cache⟩) (hstart.enter .calm)
    (hend'.noOverwrite hno) (fun _ _ => rfl) (hagrees.good hs) hread key
  exact ⟨_, t, t', hrun, hrun'⟩

def putOnce : List (Env × Action) := [.openDb .plain 1024, .call (.put [97] [1])].map (Env.calm, ·)

def checkAfterPut (more : List (Env × Action)) (check : CSys → CSys → Bool) : Bool :=
  match ((State.init .unused).runs putOnce).handle .calm,
    (((State.init .unused).runs putOnce).runs more).handle .calm with
  | some s, some s' => check s s'
  | _, _ => false

theorem checkAfterPut_sound (h : checkAfterPut more check = true) : ∃ s s',
    ((State.init .unused).runs putOnce).handle .calm = some s ∧
    (((State.init .unused).runs putOnce).runs more).handle .calm = some s' ∧ check s s' = true := by
  unfold checkAfterPut at h
  split at h
  · rename_i s s' hs hs'
    exact ⟨s, s', hs, hs', h⟩
  · cases h

/-- A flush after the snapshot, a lookup that caches its block, and then a put of the same key. -/
def flushedFirst : List (Env × Action) := [.call .flushTables, .getAtSequence [97] 1, .call (.put [97] [2])].map (Env.calm, ·)

theorem snapshot_get_eq_flushedFirst : ∃ s s' v t t', ((State.init .unused).runs putOnce).handle .calm = some s ∧
    (((State.init .unused).runs putOnce).runs flushedFirst).handle .calm = some s' ∧ s'.find ⟨2, 0⟩ ≠ none ∧
    getAtSequence [97] s.sys.db.sequence s = .ok v t ∧ getAtSequence [97] s.sys.db.sequence s' = .ok v t' := by
  have hcheck : checkAfterPut flushedFirst (fun s s' => s.sys.tablesRead && s'.sys.tablesRead &&
      (s'.find ⟨2, 0⟩).isSome && s'.sys.world.handed.all (·.2 = false) && s.sys.db.immutableMemtables.isEmpty &&
      s.sys.db.sstables.flatten.isEmpty && s.sys.db.memtable.iter.all fun e => e.2.bytes ≠ [] ∧ e.1.userKey ≠ []) = true := by
    decide +kernel
  obtain ⟨s, s', hs, hs', hcheck⟩ := checkAfterPut_sound hcheck
  simp only [Bool.and_eq_true, List.all_eq_true, decide_eq_true_eq, List.isEmpty_iff] at hcheck
  obtain ⟨⟨⟨⟨⟨⟨hread, hread'⟩, hfind⟩, hhanded⟩, himm⟩, hflat⟩, hentries⟩ := hcheck
  have hfresh : (State.init .unused).Along State.HandsOutFresh putOnce :=
    State.along_of_check (fun _ _ _ => State.handsOutFresh_sound) (by decide +kernel)
  have hfresh' : ((State.init .unused).runs putOnce).Along State.HandsOutFresh flushedFirst :=
    State.along_of_check (fun _ _ _ => State.handsOutFresh_sound) (by decide +kernel)
  have hleaves : ((State.init .unused).runs putOnce).Along (State.LeavesSnapshot s.sys.db.sequence) flushedFirst := by
    refine ⟨fun db cache hst => ?_, trivial, fun _ _ _ => trivial, trivial⟩
    have hsys : s.sys = ⟨db, ((State.init .unused).runs putOnce).world.enter .calm⟩ := by
      rw [State.handle, hst] at hs
      cases hs
      rfl
    have hreached := (State.reached hst).enter .calm
    rw [← hsys] at hreached ⊢
    refine ⟨by rw [hsys]; rfl, fun m hm e he => ?_, fun key => ?_⟩
    · have hm : m = s.sys.db.memtable := by simpa [DB.memtables, himm] using hm
      subst hm
      exact (hentries e he).2
    · exact Sys.seenFlushed_first hreached.bounded himm hflat (fun e he => (hentries e he).1) key
  obtain ⟨v, t, t', hget, hget'⟩ := snapshot_get_eq_of_leavesSnapshot .unused putOnce flushedFirst hfresh hs
    (hfresh'.and hleaves) hs' hhanded (Sys.tablesRead_sound hread) (Sys.tablesRead_sound hread') [97]
  exact ⟨s, s', v, t, t', hs, hs', Option.isSome_iff_ne_none.mp hfind, hget, hget'⟩

/-- A put after the snapshot, and then a flush: the table keeps only the version that the
snapshot is not to see. -/
theorem snapshot_get_ne_flushedLater : ∃ s s', ((State.init .unused).runs putOnce).handle .calm = some s ∧
    (((State.init .unused).runs putOnce).runs ([.call (.put [97] [2]), .call .flush].map (Env.calm, ·))).handle .calm =
      some s' ∧
    (∃ t, getAtSequence [97] s.sys.db.sequence s = .ok (some [1]) t) ∧
    ∃ t, getAtSequence [97] s.sys.db.sequence s' = .ok (some [2]) t := by
  have hcheck : checkAfterPut ([.call (.put [97] [2]), .call .flush].map (Env.calm, ·)) (fun s s' =>
      value s [97] s.sys.db.sequence = some (some [1]) && value s' [97] s.sys.db.sequence = some (some [2])) = true := by
    decide +kernel
  obtain ⟨s, s', hs, hs', hcheck⟩ := checkAfterPut_sound hcheck
  simp only [Bool.and_eq_true, decide_eq_true_eq] at hcheck
  exact ⟨s, s', hs, hs', value_eq_some.mp hcheck.1, value_eq_some.mp hcheck.2⟩

end Cached

end AiDb
