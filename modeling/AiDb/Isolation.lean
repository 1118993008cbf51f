import AiDb.CachedIterator
import AiDb.CachedSnapshots

/-!
# An iterator on a database that goes on

An iterator holds the keys it was made with and reads each value when it comes to it, at
the sequence number it was made at and through the cache of the handle. Calls on the
database and moves of the iterator take turns; what the iterator shows is what it would
show if there were no calls.
-/

namespace AiDb.Cached

open Library

variable {get : GetAtSequence} {I : CSys → Prop} {s s' : CSys} {st st' : State} {it it' : AiDb.DBIterator} {start : World} {view : Bytes → Option Bytes}

-- ---------------------------------------------------------------------------
-- Taking turns
-- ---------------------------------------------------------------------------

inductive Turn
  | call (env : Env) (c : Call)
  | move (m : AiDb.DBIterator.Move)

def Turn.move? : Turn → Option AiDb.DBIterator.Move
  | .call _ _ => none
  | .move m => some m

def State.of (s : CSys) : State := ⟨some (s.sys.db, s.blockCache), s.sys.world⟩

/-- A move reads from the database as it is then; there is none once the process is lost. -/
def State.turn (st : State) (it : AiDb.DBIterator) : Turn → Option (State × AiDb.DBIterator)
  | .call env c => some ((st.exec env (.call c)).2, it)
  | .move m => (st.handle .calm).map fun s =>
    let jt := DBIterator.run ⟨it, s⟩ m
    (.of jt.db, jt.toDBIterator)

def State.iterate (st : State) (it : AiDb.DBIterator) : List Turn → Option (State × AiDb.DBIterator)
  | [] => some (st, it)
  | t :: rest => (st.turn it t).bind fun x => x.1.iterate x.2 rest

/-- What a turn has to meet where it is taken. Puts, deletes and batches leave every
snapshot. -/
def State.TurnMeets (seq : Nat) (st : State) : Turn → Prop
  | .call env c => st.HandsOutFresh env (.call c) ∧ st.LeavesSnapshot seq env (.call c)
  | .move _ => ∀ s, st.handle .calm = some s → s.sys.TablesRead

def State.TurnsMeet (seq : Nat) (st : State) (it : AiDb.DBIterator) : List Turn → Prop
  | [] => True
  | t :: rest => st.TurnMeets seq t ∧ ∀ st' it', st.turn it t = some (st', it') → st'.TurnsMeet seq it' rest

-- ---------------------------------------------------------------------------
-- Isolation
-- ---------------------------------------------------------------------------

theorem answers_of_showing (h : s.sys.Showing seq start view) (hno : s.sys.world.NoOverwrite)
    (hcalm : ∀ file off, s.sys.world.unreadable file off = false) (hread : s.sys.TablesRead) :
    Answers (fun k _ => .ok (view k)) seq fun t => t.sys = s.sys ∧ t.Good := by
  rintro key t ⟨hsys, hgood⟩
  obtain ⟨t', hrun, hsys', hgood'⟩ := showing_getAtSequence (s := t) (by rwa [hsys]) (by rwa [hsys]) (by rwa [hsys]) hgood
    (by rwa [hsys]) key
  exact ⟨view key, t', hrun, ⟨hsys'.trans hsys, hgood'⟩, rfl⟩

theorem State.Agrees.move (h : st.Agrees) (hs : st.handle .calm = some s) (it : AiDb.DBIterator) (m : AiDb.DBIterator.Move) :
    (DBIterator.run ⟨it, s⟩ m).db.sys = s.sys ∧ (State.of (DBIterator.run ⟨it, s⟩ m).db).Agrees := by
  have hgood := h.good hs
  obtain ⟨⟨db, cache⟩, hst, rfl⟩ := Option.map_eq_some_iff.mp hs
  unfold State.Agrees at h
  rw [hst] at h
  obtain ⟨-, hsane, htwo⟩ := h
  generalize hjt : DBIterator.run ⟨it, ⟨⟨db, st.world.enter .calm⟩, cache⟩⟩ m = jt
  have hsys : jt.db.sys = ⟨db, st.world.enter .calm⟩ := by
    rw [← hjt]
    exact (DBIterator.run_keeps (fun key n => getAtSequence_keeps key n _) rfl m).1
  have hsince : CSys.Since ⟨⟨db, st.world.enter .calm⟩, cache⟩ jt.db := by
    rw [← hjt]
    exact (DBIterator.run_keeps (fun key n => getAtSequence_since key n) (hgood.since hsane htwo) m).1
  refine ⟨hsys, (hsince.good fun n hle hlt => ?_).1, hsince.sane, hsince.two_le.trans hsince.le⟩
  rw [hsys] at hlt
  exact absurd hlt (Nat.not_lt.mpr hle)

theorem iterate_showing {turns : List Turn} (hs : st.Holds (Sys.Showing seq start view) fun _ => True)
    (hagrees : st.Agrees) (hmeet : st.TurnsMeet seq it turns) (hseq : it.sequence = seq)
    (hrun : st.iterate it turns = some (st', it')) (hs' : st'.handle .calm = some s') (hno : s'.sys.world.NoOverwrite) :
    start.NoOverwrite ∧ it' = it.moves (fun k _ => .ok (view k)) (turns.filterMap Turn.move?) := by
  induction turns generalizing st it start with
  | nil =>
    cases hrun
    obtain ⟨db, hshow, hsys⟩ := hs.handle hs'
    rw [hsys] at hno
    exact ⟨hshow.noOverwrite hno, rfl⟩
  | cons t rest ih =>
    obtain ⟨⟨st1, it1⟩, hturn, hrest⟩ := Option.bind_eq_some_iff.mp hrun
    have hmeets := hmeet.2 st1 it1 hturn
    cases t with
    | call env c =>
      cases hturn
      exact ih (showing_invariant.exec hs hmeet.1.2) (hagrees.exec env _ hmeet.1.1) hmeets hseq hrest
    | move m =>
      obtain ⟨s, hst, heq⟩ := Option.map_eq_some_iff.mp hturn
      cases heq
      obtain ⟨db, hshow, hsys⟩ := hs.handle hst
      have hshows : s.sys.Showing seq start view := by
        rw [hsys]
        exact hshow.enter .calm
      obtain ⟨hkept, hagrees1⟩ := hagrees.move hst it m
      have hsequence : (DBIterator.run ⟨it, s⟩ m).sequence = seq :=
        (DBIterator.run_keeps (fun key n => getAtSequence_keeps key n s.sys) rfl m).2.trans hseq
      -- from here on no table file is written over, so none was before
      have hhere : (State.of (DBIterator.run ⟨it, s⟩ m).db).Holds (Sys.Showing seq s.sys.world view) fun _ => True := by
        show Sys.Showing seq s.sys.world view (DBIterator.run ⟨it, s⟩ m).db.sys
        rw [hkept]
        exact ⟨hshows.reached, hshows.le, id, hshows.seen⟩
      obtain ⟨hnow, hmoves⟩ := ih hhere hagrees1 hmeets hsequence hrest
      have hfollows : DBIterator.Follows (fun k _ => .ok (view k)) (fun t => t.sys = s.sys ∧ t.Good) ⟨it, s⟩ := by
        refine ⟨?_, rfl, hagrees.good hst⟩
        rw [hseq]
        exact answers_of_showing hshows hnow (State.readable_handle hst) (hmeet.1 s hst)
      refine ⟨hshows.noOverwrite hnow, ?_⟩
      rw [hmoves, (hfollows.run m).1]
      rfl

/-- An iterator made in any state of any run, and any calls and moves after it in any
order, where the calls leave a snapshot of that state as it is and the file numbers handed
out are fresh, and those of no file of the directory: the moves come to the entries that
they would come to without the calls. -/
theorem scan_isolated (len : CompressedLen) (acts : List (Env × Action))
    (hfresh : (State.init len).Along State.HandsOutFresh acts) (hs : ((State.init len).runs acts).handle .calm = some s)
    (hread : s.sys.TablesRead) (first last : Option Bytes) {s₁ : CSys} (hscan : scan first last s = .ok it s₁)
    (turns : List Turn) (hmeet : (State.of s₁).TurnsMeet s.sys.db.sequence it turns)
    (hrun : (State.of s₁).iterate it turns = some (st', it')) (hs' : st'.handle .calm = some s')
    (hno : s'.sys.world.NoOverwrite) :
    it' = (DBIterator.moves ⟨it, s₁⟩ (turns.filterMap Turn.move?)).toDBIterator := by
  have hinit : (State.init len).Agrees := Disk.sane_empty
  have hagrees := hinit.runs hfresh
  have hgood := hagrees.good hs
  obtain ⟨it₀, hit, -⟩ := (hgood.readable hread).scan first last
  obtain ⟨s₀, hscan₀, hfollows⟩ := scan_follows hgood hread hit
  cases hscan.symm.trans hscan₀
  have hsys : s₁.sys = s.sys := hfollows.state.1
  have hgood₁ : s₁.Good := hfollows.state.2
  have hseq : it.sequence = s.sys.db.sequence := by
    obtain ⟨keys, -, hland⟩ := AiDb.DBIterator.newRange_lands hit
    exact hland.sequence_eq
  have hreached := State.reached_handle hs
  have hstart : s.sys.Showing s.sys.db.sequence s.sys.world (s.sys.seen s.sys.db.sequence) :=
    ⟨hreached, le_refl _, id, fun _ _ => rfl⟩
  have hholds : (State.of s₁).Holds (Sys.Showing s.sys.db.sequence s.sys.world (s.sys.seen s.sys.db.sequence))
      fun _ => True := by
    show Sys.Showing _ _ _ s₁.sys
    rw [hsys]
    exact hstart
  have hagrees₁ : (State.of s₁).Agrees := by
    rw [← hsys] at hreached
    exact ⟨hgood₁, hreached.sane, hreached.two_le⟩
  obtain ⟨hnow, hmoves⟩ := iterate_showing hholds hagrees₁ hmeet hseq hrun hs' hno
  have hshows : DBIterator.Follows (fun k _ => .ok (s.sys.seen s.sys.db.sequence k))
      (fun t => t.sys = s.sys ∧ t.Good) ⟨it, s₁⟩ := by
    refine ⟨?_, hsys, hgood₁⟩
    rw [hseq]
    exact answers_of_showing hstart hnow (State.readable_handle hs) hread
  rw [hmoves, (hshows.moves _).1]

def State.checkTurns (st : State) (it : AiDb.DBIterator) : List Turn → Bool
  | [] => true
  | t :: rest =>
    (match t with
      | .call env c => st.handsOutFresh env (.call c) && decide c.IsWrite
      | .move _ => (st.handle .calm).all fun s => s.sys.tablesRead) &&
    (st.turn it t).all fun x => x.1.checkTurns x.2 rest

theorem State.checkTurns_sound {turns : List Turn} (h : st.checkTurns it turns = true) : st.TurnsMeet seq it turns := by
  induction turns generalizing st it with
  | nil => trivial
  | cons t rest ih =>
    obtain ⟨hmeets, hrest⟩ := (Bool.and_eq_true _ _).mp h
    refine ⟨?_, fun st' it' hturn => ih ?_⟩
    · cases t with
      | call env c =>
        obtain ⟨hfresh, hwrite⟩ := (Bool.and_eq_true _ _).mp hmeets
        have hwrite : c.IsWrite := of_decide_eq_true hwrite
        refine ⟨State.handsOutFresh_sound hfresh, fun db cache hst => ?_⟩
        cases c with
        | put key value => trivial
        | delete key => trivial
        | write batch => trivial
        | _ => exact hwrite.elim
      | move m =>
        intro s hs
        rw [hs] at hmeets
        exact Sys.tablesRead_sound hmeets
    · rw [hturn] at hrest
      exact hrest

def putTwice : List (Env × Action) :=
  [.openDb .plain 1024, .call (.put [97] [1]), .call (.put [99] [3]), .call .flushTables].map (Env.calm, ·)

/-- A key between the two is put and the second one is deleted before the iterator moves on. -/
def putDeleteNext : List Turn := [.call .calm (.put [98] [2]), .call .calm (.delete [99]), .move .next]

def checkTurned (check : CSys → AiDb.DBIterator → CSys → CSys → AiDb.DBIterator → Bool) : Bool :=
  match ((State.init .unused).runs putTwice).handle .calm with
  | none => false
  | some s =>
    match scan none none s with
    | .error _ _ => false
    | .ok it s₁ =>
      match (State.of s₁).iterate it putDeleteNext with
      | none => false
      | some (st', it') => (st'.handle .calm).any fun s' => check s it s₁ s' it'

theorem checkTurned_sound (h : checkTurned check = true) : ∃ s it s₁ st' it' s',
    ((State.init .unused).runs putTwice).handle .calm = some s ∧ scan none none s = .ok it s₁ ∧
    (State.of s₁).iterate it putDeleteNext = some (st', it') ∧ st'.handle .calm = some s' ∧
    check s it s₁ s' it' = true := by
  unfold checkTurned at h
  split at h
  · cases h
  rename_i s hs
  split at h
  · cases h
  rename_i it s₁ hscan
  split at h
  · cases h
  rename_i st' it' hrun
  obtain ⟨s', hs', hcheck⟩ := (Option.any_eq_true _ _).mp h
  exact ⟨s, it, s₁, st', it', s', hs, hscan, hrun, hs', hcheck⟩

theorem scan_isolated_putDeleteNext : ∃ s it s₁ st' it', ((State.init .unused).runs putTwice).handle .calm = some s ∧
    scan none none s = .ok it s₁ ∧ s₁.find ⟨2, 0⟩ ≠ none ∧
    (State.of s₁).iterate it putDeleteNext = some (st', it') ∧ it'.current = some ([99], [3]) ∧
    it' = (DBIterator.moves ⟨it, s₁⟩ [.next]).toDBIterator := by
  have hcheck : checkTurned (fun s it s₁ s' it' => s.sys.tablesRead && (s₁.find ⟨2, 0⟩).isSome &&
      (State.of s₁).checkTurns it putDeleteNext && s'.sys.world.handed.all (·.2 = false) &&
      decide (it'.current = some ([99], [3]))) = true := by decide +kernel
  obtain ⟨s, it, s₁, st', it', s', hs, hscan, hrun, hs', hcheck⟩ := checkTurned_sound hcheck
  simp only [Bool.and_eq_true, List.all_eq_true, decide_eq_true_eq] at hcheck
  obtain ⟨⟨⟨⟨hread, hfind⟩, hturns⟩, hhanded⟩, hcurrent⟩ := hcheck
  have hfresh : (State.init .unused).Along State.HandsOutFresh putTwice :=
    State.along_of_check (fun _ _ _ => State.handsOutFresh_sound) (by decide +kernel)
  exact ⟨s, it, s₁, st', it', hs, hscan, Option.isSome_iff_ne_none.mp hfind, hrun, hcurrent,
    scan_isolated .unused putTwice hfresh hs (Sys.tablesRead_sound hread) none none hscan putDeleteNext
      (State.checkTurns_sound hturns) hrun hs' hhanded⟩

end AiDb.Cached
