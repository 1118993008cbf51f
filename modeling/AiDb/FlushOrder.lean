import AiDb.Layers
import AiDb.Library.Tickets
import AiDb.Recording
import AiDb.Writers

/-!
# Concurrent flushes

Flush calls beside each other, with the pop of a memtable, the building of its table
and the insertion at the front of level 0 as separate steps. Memtables are numbered
as they are frozen; the pops come in that order, the insertions in any. A flush is
followed up to the point where it looks for a compaction.
-/

namespace AiDb

open Library Compaction

-- ---------------------------------------------------------------------------
-- Building and installing
-- ---------------------------------------------------------------------------

/-- `flush_memtable_to_sstable` up to the lock of the table list: the number and the
reader of the new table, or nothing when there was no entry. -/
def buildSstable (m : MemTable) : M (Option (Nat × SSTableReader)) := do
  let fileNumber ← takeFileNumber
  let options := (← get).db.options
  let entries := latestVersions none m.iter
  onWorld (createSst fileNumber)
  onWorld (writeTable fileNumber options.blockSize options.compression entries)
  if entries = [] then return none
  let reader ← onWorld (openWithCache fileNumber)
  return some (fileNumber, reader)

def installBuilt : Option (Nat × SSTableReader) → M Nat
  | none => return 0
  | some (fileNumber, reader) => do
    installFront reader
    return fileNumber

theorem flushMemtableToSstable_eq (m : MemTable) : flushMemtableToSstable m = buildSstable m >>= installBuilt := by
  unfold flushMemtableToSstable buildSstable
  simp only [bind_assoc]
  refine congrArg _ (funext fun n => congrArg _ (funext fun s => congrArg _ (funext fun _ => congrArg _
    (funext fun _ => ?_))))
  split
  · rfl
  · simp only [bind_assoc, pure_bind, installBuilt]

theorem buildSstable_db (m : MemTable) (s : Sys) : Triple (buildSstable m) s
    (fun o s' => s'.db = s.handOut.db ∧ (o ≠ none → m.table ≠ [])) (fun _ s' => s'.db = s.handOut.db) := by
  have hworld : ∀ {α : Type} (w : W α) (s1 : Sys), s1.db = s.handOut.db →
      Triple (onWorld w) s1 (fun _ s' => s'.db = s.handOut.db) (fun _ s' => s'.db = s.handOut.db) :=
    fun w s1 h1 => (onWorld_db w s1).mono (fun _ _ h => h.trans h1) (fun _ _ h => h.trans h1)
  unfold buildSstable
  refine takeFileNumber_bind (Triple.get_bind ?_)
  refine (hworld _ _ rfl).bind fun _ s1 h1 => (hworld _ _ h1).bind fun _ s2 h2 => ?_
  split
  · exact Triple.pure ⟨h2, by simp⟩
  · rename_i hne
    exact (hworld _ _ h2).bind fun _ s3 h3 => Triple.pure ⟨h3, fun _ => hne⟩

-- ---------------------------------------------------------------------------
-- The threads
-- ---------------------------------------------------------------------------

/-- The handle, with the history of its memtables: how many were frozen, the places in
that order of those on the immutable list, and for each table of level 0 its number and
the place of its memtable. -/
structure Flushers where
  shared : Shared
  frozen : Nat
  waiting : List Nat
  installed : List (Nat × Nat)

/-- Where a flush is; `place` is that of the memtable it took off the list. -/
inductive FlushStage
  | start
  | freezing
  | popping
  | building (place : Nat) (m : MemTable)
  | installing (place : Nat) (r : SSTableReader)
  | rotating
  | created (n : Nat)
  | swapped (old : Nat)
  | returned
  | failed

inductive Flusher
  | write (ops : List WriteOp) (pc : WritePc)
  | freeze (returned : Bool)
  | flush (stage : FlushStage)

def Flushers.sys (s : Flushers) : Sys := s.shared.sys

def Flushers.withSys (s : Flushers) (sys : Sys) : Flushers := { s with shared := { s.shared with sys } }

def Flushers.freeze (s : Flushers) : Flushers :=
  { s.withSys s.sys.freeze with frozen := s.frozen + 1, waiting := s.waiting ++ [s.frozen] }

def Flushers.after (s : Flushers) (r : EStateM.Result Exit Sys α) (stage : α → FlushStage) : Flushers × FlushStage :=
  match r with
  | .ok a sys => (s.withSys sys, stage a)
  | .error _ sys => (s.withSys sys, .failed)

def FlushStage.next (s : Flushers) : FlushStage → Option (Flushers × FlushStage)
  | .start => some (s, if s.sys.db.memtable.isEmpty then .popping else .freezing)
  | .freezing => some (s.freeze, .popping)
  | .popping =>
    match s.sys.db.immutableMemtables with
    | [] => some (s, .rotating)
    | m :: rest =>
      some ({ s.withSys (s.sys.popped rest) with waiting := s.waiting.tail }, .building (s.waiting.headD 0) m)
  | .building place m => some (s.after (buildSstable m s.sys) fun
      | none => .popping
      | some (_, r) => .installing place r)
  | .installing place r =>
    some ({ s.withSys { s.sys with db := s.sys.db.installFront r } with
      installed := (r.fileNumber, place) :: s.installed }, .popping)
  | .rotating => some (s.after (createWal s.sys) .created)
  | .created n => some (s.after (swapWal n s.sys) .swapped)
  | .swapped old => some (s.after (onWorld (removeLogIfExists old) s.sys) fun _ => .returned)
  | .returned | .failed => none

def Flusher.next (s : Flushers) : Flusher → Option (Flushers × Flusher)
  | .write ops pc => (pc.next s.shared ops).map fun (shared, pc') => ({ s with shared }, .write ops pc')
  | .freeze false => some (s.freeze, .freeze true)
  | .freeze true => none
  | .flush stage => (stage.next s).map fun (s', stage') => (s', .flush stage')

def Flushers.fresh (len : CompressedLen) (o : Options) : Option Flushers :=
  (Shared.fresh len o).map fun shared => ⟨shared, 0, [], []⟩

def Flusher.Starting : Flusher → Prop
  | .write _ pc => pc = .start
  | .freeze returned => returned = false
  | .flush stage => stage = .start

/-- The place of the memtable that a flush has taken off the list and has still to put
into level 0. -/
def Flusher.hand : Flusher → Option Nat
  | .flush (.building place m) => if m.table = [] then none else some place
  | .flush (.installing place _) => some place
  | _ => none

/-- A table is put into level 0 only when no flush has an older memtable in hand. -/
def InstallsOldest (_ : Flushers) (threads : List Flusher) : Flusher → Prop
  | .flush (.installing place _) => ∀ other ∈ threads.filterMap Flusher.hand, place ≤ other
  | _ => True

instance decidableInstallsOldest (s : Flushers) (threads : List Flusher) (t : Flusher) :
    Decidable (InstallsOldest s threads t) := by
  unfold InstallsOldest
  split <;> infer_instance

-- ---------------------------------------------------------------------------
-- Places as tickets
-- ---------------------------------------------------------------------------

variable {s s' : Flushers} {threads : List Flusher} {t t' : Flusher}

structure Flushers.Tracks (s : Flushers) : Prop where
  waiting : s.waiting.length = s.sys.db.immutableMemtables.length
  level0 : s.installed.map Prod.fst = (s.sys.db.sstables.headD []).map SSTableReader.fileNumber
  levels : s.sys.db.sstables ≠ []

def Flushers.tickets (s : Flushers) (threads : List Flusher) : Tickets :=
  ⟨s.frozen, s.waiting, (threads.filterMap Flusher.hand : List Nat), s.installed.map Prod.snd⟩

structure Flushers.Same (s s' : Flushers) : Prop where
  frozen : s'.frozen = s.frozen
  waiting : s'.waiting = s.waiting
  installed : s'.installed = s.installed
  immutables : s'.sys.db.immutableMemtables = s.sys.db.immutableMemtables
  sstables : s'.sys.db.sstables = s.sys.db.sstables

theorem Flushers.Same.refl (s : Flushers) : s.Same s := ⟨rfl, rfl, rfl, rfl, rfl⟩

theorem Flushers.Same.tracks (h : s.Same s') (hs : s.Tracks) : s'.Tracks where
  waiting := by rw [h.waiting, h.immutables]; exact hs.waiting
  level0 := by rw [h.installed, h.sstables]; exact hs.level0
  levels := by rw [h.sstables]; exact hs.levels

theorem Flushers.Same.tickets_eq (h : s.Same s') : s'.tickets threads = s.tickets threads := by
  simp only [Flushers.tickets, h.frozen, h.waiting, h.installed]

theorem Flushers.same_withSys (s : Flushers) {sys : Sys} (himm : sys.db.immutableMemtables = s.sys.db.immutableMemtables)
    (hsst : sys.db.sstables = s.sys.db.sstables) : s.Same (s.withSys sys) := ⟨rfl, rfl, rfl, himm, hsst⟩

theorem Sys.Logs.same {sys : Sys} (h : s.sys.Logs sys) : s.Same (s.withSys sys) :=
  s.same_withSys h.writesKept.immutableMemtables h.tablesKept.sstables

theorem WritePc.next_same {pc : WritePc} (h : pc.next s.shared ops = some (shared, pc')) :
    s.Same { s with shared } := by
  cases pc with
  | start =>
    rw [WritePc.next] at h
    split at h <;> cases h
    · exact .refl s
    · exact ⟨rfl, rfl, rfl, rfl, rfl⟩
  | numbered stamp seq =>
    have hlogs : Keeps s.sys.Logs (logAndSync stamp ops) := logAndSync_logs
    have hlogs := hlogs s.sys (.refl s.sys)
    simp only [WritePc.next] at h
    cases hr : logAndSync stamp ops s.shared.sys with
    | ok u sys =>
      rw [hr] at h
      cases h
      have hl := hlogs.ok hr
      exact ⟨rfl, rfl, rfl, hl.writesKept.immutableMemtables, hl.tablesKept.sstables⟩
    | error e sys =>
      rw [hr] at h
      cases h
      exact (hlogs.error hr).same
  | inserting stamp seq rest =>
    cases rest with
    | nil => cases h; exact .refl s
    | cons op rest => cases h; exact ⟨rfl, rfl, rfl, rfl, rfl⟩
  | returned => cases h
  | failed => cases h

theorem Flushers.after_logs {m : M α} (hm : ∀ s0 : Sys, Keeps s0.Logs m) (s : Flushers) (stage : α → FlushStage) :
    s.Same (s.after (m s.sys) stage).1 := by
  have hl := hm s.sys s.sys (.refl s.sys)
  unfold Flushers.after
  cases hr : m s.sys with
  | ok a sys => exact (hl.ok hr).same
  | error e sys => exact (hl.error hr).same

theorem createWal_logs {s0 : Sys} : Keeps s0.Logs createWal := by
  refine Keeps.get.bind fun s => Keeps.bind (Keeps.modify ?_) fun _ => openLog_logs.bind fun _ => Keeps.pure
  rintro s1 ⟨wal, n, logs, faults, hf, rfl⟩
  exact ⟨wal, _, logs, faults, hf, rfl⟩

theorem swapWal_logs {s0 : Sys} : Keeps s0.Logs (swapWal n) := by
  refine Keeps.get.bind fun s => (ignoreError_keeps flushBuf_logs).bind fun _ => Keeps.bind (Keeps.modify ?_) fun _ =>
    Keeps.pure
  rintro s1 ⟨wal, n, logs, faults, hf, rfl⟩
  exact ⟨_, n, logs, faults, hf, rfl⟩

-- ---------------------------------------------------------------------------
-- One step
-- ---------------------------------------------------------------------------

def Flushers.StepsTo (s : Flushers) (threads : List Flusher) (i : Nat) (s' : Flushers) (t' : Flusher) : Prop :=
  s'.Tracks ∧ (s.tickets threads).Step (s'.tickets (threads.set i t'))

theorem Flushers.Same.steps (h : s.Same s') (hs : s.Tracks) (ht : threads[i]? = some t) (hhand : t'.hand = t.hand) :
    s.StepsTo threads i s' t' := by
  refine ⟨h.tracks hs, ?_⟩
  rw [h.tickets_eq]
  unfold Flushers.tickets
  rw [Config.filterMap_set ht hhand]
  exact .idle

theorem Flushers.Same.drops (h : s.Same s') (hs : s.Tracks) (ht : threads[i]? = some t) (hhand : t.hand = some place)
    (hhand' : t'.hand = none) : s.StepsTo threads i s' t' := by
  refine ⟨h.tracks hs, ?_⟩
  rw [h.tickets_eq]
  have hperm := (Config.filterMap_set_none ht hhand hhand').trans (List.perm_append_singleton _ _)
  exact .drop (Multiset.coe_eq_coe.mpr hperm)

theorem Flushers.steps_freeze (hs : s.Tracks) (ht : threads[i]? = some t) (hhand : t'.hand = t.hand) :
    s.StepsTo threads i s.freeze t' := by
  refine ⟨⟨?_, hs.level0, hs.levels⟩, ?_⟩
  · have hwaiting := hs.waiting
    simp [Flushers.freeze, Flushers.withSys, Flushers.sys, Sys.freeze, DB.freeze] at hwaiting ⊢
    exact hwaiting
  · unfold Flushers.tickets
    rw [Config.filterMap_set ht hhand]
    exact .arrive

theorem Flushers.steps_pop (hs : s.Tracks) (ht : threads[i]? = some (.flush .popping))
    (himm : s.sys.db.immutableMemtables = m :: rest) (hw : s.waiting = place :: places) :
    s.StepsTo threads i { s.withSys (s.sys.popped rest) with waiting := places } (.flush (.building place m)) := by
  refine ⟨⟨?_, hs.level0, hs.levels⟩, ?_⟩
  · have hlen := hs.waiting
    rw [himm, hw] at hlen
    exact Nat.succ.inj hlen
  by_cases hm : m.table = []
  · have hhand : (Flusher.flush (.building place m)).hand = none := if_pos hm
    unfold Flushers.tickets
    rw [Config.filterMap_set (f := Flusher.hand) ht hhand]
    exact .discard hw
  · have hhand : (Flusher.flush (.building place m)).hand = some place := if_neg hm
    have hperm := (Config.filterMap_set_perm (f := Flusher.hand) ht rfl hhand).trans (List.perm_append_singleton _ _)
    have heq : (((threads.set i (.flush (.building place m))).filterMap Flusher.hand : List Nat) : Multiset Nat) =
        place ::ₘ (threads.filterMap Flusher.hand : List Nat) := Multiset.coe_eq_coe.mpr hperm
    unfold Flushers.tickets
    rw [heq]
    exact .take hw

theorem Flushers.steps_install (hs : s.Tracks) (ht : threads[i]? = some (.flush (.installing place r)))
    (hP : InstallsOldest s threads (.flush (.installing place r))) :
    s.StepsTo threads i { s.withSys { s.sys with db := s.sys.db.installFront r } with
      installed := (r.fileNumber, place) :: s.installed } (.flush .popping) := by
  refine ⟨⟨hs.waiting, ?_, ?_⟩, ?_⟩
  · obtain ⟨l0, ls, hsst⟩ := List.exists_cons_of_ne_nil hs.levels
    have hl0 := hs.level0
    rw [hsst] at hl0
    show _ = ((s.sys.db.sstables.modify 0 (r :: ·)).headD []).map SSTableReader.fileNumber
    simp [hsst, hl0]
  · show s.sys.db.sstables.modify 0 (r :: ·) ≠ []
    simpa using hs.levels
  · have hhand : (Flusher.flush .popping).hand = none := rfl
    have hperm := (Config.filterMap_set_none (f := Flusher.hand) ht rfl hhand).trans (List.perm_append_singleton _ _)
    exact .put (Multiset.coe_eq_coe.mpr hperm) hP

theorem Flushers.after_steps {m : M α} {stage : α → FlushStage} (hm : ∀ s0 : Sys, Keeps s0.Logs m) (hs : s.Tracks)
    (ht : threads[i]? = some t) (hhand : t.hand = none) (hstage : ∀ a, (Flusher.flush (stage a)).hand = none)
    (h : some (s.after (m s.sys) stage) = some (s', stage')) : s.StepsTo threads i s' (.flush stage') := by
  have hsame := Flushers.after_logs hm s stage
  obtain rfl : (s.after (m s.sys) stage).1 = s' := congrArg Prod.fst (Option.some.inj h)
  obtain rfl : (s.after (m s.sys) stage).2 = stage' := congrArg Prod.snd (Option.some.inj h)
  refine hsame.steps hs ht ?_
  rw [hhand]
  unfold Flushers.after
  split
  · exact hstage _
  · rfl

theorem FlushStage.next_steps {stage stage' : FlushStage} (hs : s.Tracks) (ht : threads[i]? = some (.flush stage))
    (hP : InstallsOldest s threads (.flush stage)) (h : stage.next s = some (s', stage')) :
    s.StepsTo threads i s' (.flush stage') := by
  cases stage with
  | start =>
    cases h
    refine (Flushers.Same.refl s).steps hs ht ?_
    split <;> rfl
  | freezing => cases h; exact Flushers.steps_freeze hs ht rfl
  | popping =>
    simp only [FlushStage.next] at h
    split at h
    · cases h
      exact (Flushers.Same.refl s).steps hs ht rfl
    · rename_i m rest himm
      have hlen := hs.waiting
      rw [himm] at hlen
      obtain ⟨place, places, hw⟩ := List.exists_cons_of_length_pos (l := s.waiting) (by simp [hlen])
      rw [hw] at h
      cases h
      exact Flushers.steps_pop hs ht himm hw
  | building place m =>
    have hbuild := buildSstable_db m s.sys
    simp only [FlushStage.next, Flushers.after] at h
    -- without a table to install the memtable is no longer in hand
    have hgone : ∀ sys stage', sys.db = s.sys.handOut.db → (Flusher.flush stage').hand = none →
        s.StepsTo threads i (s.withSys sys) (.flush stage') := by
      intro sys stage' hdb hhand
      have hsame : s.Same (s.withSys sys) := s.same_withSys (by rw [hdb]; rfl) (by rw [hdb]; rfl)
      by_cases hm : m.table = []
      · exact hsame.steps hs ht (hhand.trans (if_pos hm).symm)
      · exact hsame.drops hs ht (if_neg hm) hhand
    cases hr : buildSstable m s.sys with
    | error e sys =>
      rw [hr] at h
      cases h
      exact hgone sys .failed (hbuild.error hr) rfl
    | ok o sys =>
      rw [hr] at h
      obtain ⟨hdb, hne⟩ := hbuild.ok hr
      cases o with
      | none =>
        cases h
        exact hgone sys .popping hdb rfl
      | some built =>
        cases h
        have hsame : s.Same (s.withSys sys) := s.same_withSys (by rw [hdb]; rfl) (by rw [hdb]; rfl)
        exact hsame.steps hs ht (if_neg (hne (by simp))).symm
  | installing place r => cases h; exact Flushers.steps_install hs ht hP
  | rotating => exact Flushers.after_steps (fun _ => createWal_logs) hs ht rfl (fun _ => rfl) h
  | created n => exact Flushers.after_steps (fun _ => swapWal_logs) hs ht rfl (fun _ => rfl) h
  | swapped old => exact Flushers.after_steps (fun _ => removeLogIfExists_logs) hs ht rfl (fun _ => rfl) h
  | returned => cases h
  | failed => cases h

theorem Flusher.next_steps (hs : s.Tracks) (ht : threads[i]? = some t) (hP : InstallsOldest s threads t)
    (h : t.next s = some (s', t')) : s.StepsTo threads i s' t' := by
  cases t with
  | write ops pc =>
    obtain ⟨⟨shared, pc'⟩, hn, heq⟩ := Option.map_eq_some_iff.mp h
    cases heq
    exact (WritePc.next_same hn).steps hs ht rfl
  | freeze returned =>
    cases returned with
    | true => cases h
    | false => cases h; exact Flushers.steps_freeze hs ht rfl
  | flush stage =>
    obtain ⟨⟨s1, stage'⟩, hn, heq⟩ := Option.map_eq_some_iff.mp h
    cases heq
    exact FlushStage.next_steps hs ht hP hn

-- ---------------------------------------------------------------------------
-- Every interleaving
-- ---------------------------------------------------------------------------

theorem Flushers.fresh_tracks (h : Flushers.fresh len o = some s) (hstart : ∀ t ∈ threads, t.Starting) :
    s.Tracks ∧ (s.tickets threads).Ordered := by
  obtain ⟨shared, hshared, rfl⟩ := Option.map_eq_some_iff.mp h
  obtain ⟨sys, hsys, rfl⟩ := Option.map_eq_some_iff.mp hshared
  obtain ⟨-, hmem, htables, -⟩ := Sys.fresh_sound hsys
  have hhands : threads.filterMap Flusher.hand = [] := by
    refine List.filterMap_eq_nil_iff.mpr fun t ht => ?_
    have := hstart t ht
    cases t with
    | flush stage => cases this; rfl
    | _ => rfl
  have himm : sys.db.immutableMemtables = [] := by
    simp only [DB.memtables, List.cons.injEq, List.reverse_eq_nil_iff] at hmem
    exact hmem.2
  obtain ⟨l0, ls, hsst, hl0, -⟩ := List.map_eq_cons_iff.mp htables
  obtain rfl : l0 = [] := by simpa using hl0
  refine ⟨⟨by simp [Flushers.sys, himm], by simp [Flushers.sys, hsst], by simp [Flushers.sys, hsst]⟩, ?_⟩
  unfold Flushers.tickets
  rw [hhands]
  exact Tickets.ordered_nil

/-- However the calls are interleaved: as long as each table is put into level 0 when no
flush has an older memtable in hand, the tables of level 0 stand from the most recently
to the least recently frozen memtable. -/
theorem level0_freeze_order (len : CompressedLen) (o : Options) (threads : List Flusher) (schedule : List Nat)
    (s : Flushers) (c : Config Flushers Flusher) (hs : Flushers.fresh len o = some s)
    (hstart : ∀ t ∈ threads, t.Starting)
    (halong : (Config.mk s threads).Along Flusher.next InstallsOldest schedule)
    (hrun : (Config.mk s threads).run Flusher.next schedule = some c) :
    c.shared.installed.map Prod.fst = (c.shared.sys.db.sstables.headD []).map SSTableReader.fileNumber ∧
      c.shared.installed.Pairwise fun newer older => older.2 < newer.2 := by
  have hI : c.shared.Tracks ∧ (c.shared.tickets c.threads).Ordered := by
    refine Config.run_invariant (I := fun c => c.shared.Tracks ∧ (c.shared.tickets c.threads).Ordered) ?_
      (Flushers.fresh_tracks hs hstart) halong hrun
    intro c i t s' t' hc hP ht hnext
    obtain ⟨htracks, hstep⟩ := Flusher.next_steps hc.1 ht hP hnext
    exact ⟨htracks, hstep.ordered hc.2⟩
  exact ⟨hI.1.level0, List.pairwise_map.mp hI.2.stack⟩

def twoFlushers : List Flusher :=
  [.write [.put [97] [1]] .start, .freeze false, .write [.put [97] [2]] .start, .freeze false, .flush .start, .flush .start]

def bothTaken : List Nat := [0, 0, 0, 0, 1, 2, 2, 2, 2, 3, 4, 4, 5, 5]

theorem level0_freeze_order_inTurn : ∃ s c, Flushers.fresh .unused .plain = some s ∧
    (Config.mk s twoFlushers).run Flusher.next (bothTaken ++ [4, 4, 5, 5]) = some c ∧
    (Config.mk s twoFlushers).Along Flusher.next InstallsOldest (bothTaken ++ [4, 4, 5, 5]) ∧
    c.shared.installed = [(3, 1), (2, 0)] ∧
    c.shared.installed.map Prod.fst = (c.shared.sys.db.sstables.headD []).map SSTableReader.fileNumber ∧
      c.shared.installed.Pairwise fun newer older => older.2 < newer.2 := by
  have hcheck : (Flushers.fresh .unused .plain).map (fun s =>
      ((Config.mk s twoFlushers).checkAlong Flusher.next InstallsOldest (bothTaken ++ [4, 4, 5, 5]),
        ((Config.mk s twoFlushers).run Flusher.next (bothTaken ++ [4, 4, 5, 5])).map fun c => c.shared.installed)) =
      some (true, some [(3, 1), (2, 0)]) := by decide +kernel
  obtain ⟨s, hs, hcheck⟩ := Option.map_eq_some_iff.mp hcheck
  obtain ⟨hcond, hend⟩ := Prod.mk.inj hcheck
  obtain ⟨c, hc, hinstalled⟩ := Option.map_eq_some_iff.mp hend
  have halong := Config.along_of_check hcond
  exact ⟨s, c, hs, hc, halong, hinstalled,
    level0_freeze_order .unused .plain _ _ s c hs (by simp [twoFlushers, Flusher.Starting]) halong hc⟩

/-- The second flush puts its table into level 0 first. -/
theorem level0_freeze_order_overtaken : ∃ s c, Flushers.fresh .unused .plain = some s ∧
    (∀ t ∈ twoFlushers, t.Starting) ∧
    (Config.mk s twoFlushers).run Flusher.next (bothTaken ++ [5, 5, 4, 4]) = some c ∧
    c.shared.installed.map Prod.fst = (c.shared.sys.db.sstables.headD []).map SSTableReader.fileNumber ∧
    ¬c.shared.installed.Pairwise fun newer older => older.2 < newer.2 := by
  have hcheck : (Flushers.fresh .unused .plain).map (fun s =>
      ((Config.mk s twoFlushers).run Flusher.next (bothTaken ++ [5, 5, 4, 4])).map fun c =>
        (c.shared.installed, (c.shared.sys.db.sstables.headD []).map SSTableReader.fileNumber)) =
      some (some ([(3, 0), (2, 1)], [3, 2])) := by decide +kernel
  obtain ⟨s, hs, hend⟩ := Option.map_eq_some_iff.mp hcheck
  obtain ⟨c, hc, hinstalled⟩ := Option.map_eq_some_iff.mp hend
  obtain ⟨hinstalled, hlevel0⟩ := Prod.mk.inj hinstalled
  refine ⟨s, c, hs, by simp [twoFlushers, Flusher.Starting], hc, ?_, ?_⟩
  · rw [hinstalled, hlevel0]
    rfl
  · rw [hinstalled]
    decide

end AiDb
