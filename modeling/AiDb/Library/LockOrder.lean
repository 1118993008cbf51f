import Mathlib

/-!
# Locks taken in order

Threads run programs of which only the locks are kept: what is locked in a scope, what
is released before the end of the scope, and where data decides how it goes on. If the
locks have ranks, and each program takes a lock only while the locks that it holds
have smaller ones, the threads never wait for each other in a circle.
-/

namespace AiDb.Library

inductive LockMode
  | read
  | write
  deriving DecidableEq

/-- What a function does with locks. `guard` is a lock held to the end of a scope, or
until it is dropped; `leave` returns from the function, and the scopes it is in end. -/
inductive LockProg (L : Type)
  | skip
  | leave
  | guard (l : L) (mode : LockMode) (body : LockProg L)
  | drop (l : L)
  | seq (p q : LockProg L)
  | choose (p q : LockProg L)
  | loop (p : LockProg L)
  | call (p : LockProg L)

variable {L : Type}

namespace LockProg

def block (ps : List (LockProg L)) : LockProg L := ps.foldr .seq .skip

def oneOf (ps : List (LockProg L)) : LockProg L := ps.foldr .choose .skip

def opt (p : LockProg L) : LockProg L := .choose .skip p

def fallible : LockProg L := .opt .leave

def attempt (p : LockProg L) : LockProg L := .seq (.call p) fallible

end LockProg

inductive LockFrame (L : Type)
  | run (p : LockProg L)
  | release (l : L)
  | ret

structure LockThread (L : Type) where
  leaving : Bool
  held : List (L × LockMode)
  frames : List (LockFrame L)

namespace LockThread

def start (p : LockProg L) : LockThread L := ⟨false, [], [.run p]⟩

def Finished (t : LockThread L) : Prop := t.frames = []

def wants (t : LockThread L) : Option (L × LockMode) :=
  match t.leaving, t.frames with
  | false, .run (.guard l mode _) :: _ => some (l, mode)
  | _, _ => none

theorem not_finished_of_wants {t : LockThread L} (h : t.wants = some (l, mode)) : ¬t.Finished := by
  intro hf
  unfold wants at h
  unfold Finished at hf
  rw [hf] at h
  cases hl : t.leaving <;> rw [hl] at h <;> cases h

def holds (t : LockThread L) (l : L) : Prop := ∃ mode, (l, mode) ∈ t.held

variable [DecidableEq L]

def unlock (held : List (L × LockMode)) (l : L) : List (L × LockMode) := held.filter (·.1 ≠ l)

/-- The next step; `branch` is how the data decides. A thread that leaves a function
only ends the scopes on its way. -/
def advance (branch : Bool) (t : LockThread L) : Option (LockThread L) :=
  match t.leaving, t.frames with
  | _, [] => none
  | true, .run _ :: k => some { t with frames := k }
  | _, .release l :: k => some { t with held := unlock t.held l, frames := k }
  | _, .ret :: k => some { t with leaving := false, frames := k }
  | false, .run .skip :: k => some { t with frames := k }
  | false, .run .leave :: k => some { t with leaving := true, frames := k }
  | false, .run (.guard l mode p) :: k =>
    some { t with held := (l, mode) :: t.held, frames := .run p :: .release l :: k }
  | false, .run (.drop l) :: k => some { t with held := unlock t.held l, frames := k }
  | false, .run (.seq p q) :: k => some { t with frames := .run p :: .run q :: k }
  | false, .run (.choose p q) :: k => some { t with frames := .run (if branch then p else q) :: k }
  | false, .run (.loop p) :: k =>
    some { t with frames := if branch then .run p :: .run (.loop p) :: k else k }
  | false, .run (.call p) :: k => some { t with frames := .run p :: .ret :: k }

end LockThread

/-- No thread holds the lock in a way that excludes the mode. -/
def LockFree (threads : List (LockThread L)) (l : L) : LockMode → Prop
  | .read => ∀ t ∈ threads, (l, LockMode.write) ∉ t.held
  | .write => ∀ t ∈ threads, ¬t.holds l

/-- The lock is free, and a reader does not pass a writer that waits for it. -/
def LockFair (threads : List (LockThread L)) (l : L) (mode : LockMode) : Prop :=
  LockFree threads l mode ∧ (mode = .read → ∀ t ∈ threads, t.wants ≠ some (l, .write))

inductive LockStep [DecidableEq L] (Grants : List (LockThread L) → L → LockMode → Prop) :
    List (LockThread L) → List (LockThread L) → Prop
  | step (i : Nat) (branch : Bool) : threads[i]? = some t → t.advance branch = some t' →
      (∀ l mode, t.wants = some (l, mode) → Grants threads l mode) → LockStep Grants threads (threads.set i t')

/-- What the threads come to, in any interleaving. Readers may pass waiting writers. -/
def LockReachable [DecidableEq L] (ps : List (LockProg L)) : List (LockThread L) → Prop :=
  Relation.ReflTransGen (LockStep LockFree) (ps.map LockThread.start)

-- ---------------------------------------------------------------------------
-- Runs
-- ---------------------------------------------------------------------------

section Runs

variable [DecidableEq L]

instance decidableLockFree (threads : List (LockThread L)) (l : L) (mode : LockMode) : Decidable (LockFree threads l mode) :=
  match mode with
  | .read => inferInstanceAs (Decidable (∀ t ∈ threads, (l, LockMode.write) ∉ t.held))
  | .write => decidable_of_iff (∀ t ∈ threads, ∀ x ∈ t.held, x.1 ≠ l) (by
      simp only [LockFree, LockThread.holds, not_exists]
      exact forall₂_congr fun t _ => ⟨fun h mode hm => h _ hm rfl, fun h x hx hl => h x.2 (hl ▸ hx)⟩)

/-- The threads make the steps that the schedule says: which of them, and how its data decides. -/
def lockRun (threads : List (LockThread L)) : List (Nat × Bool) → Option (List (LockThread L))
  | [] => some threads
  | (i, branch) :: rest =>
    threads[i]?.bind fun t =>
      (t.advance branch).bind fun t' =>
        if t.wants.all fun x => decide (LockFree threads x.1 x.2) then lockRun (threads.set i t') rest else none

theorem reflTransGen_of_lockRun {threads threads' : List (LockThread L)} {schedule : List (Nat × Bool)}
    (h : lockRun threads schedule = some threads') : Relation.ReflTransGen (LockStep LockFree) threads threads' := by
  induction schedule generalizing threads with
  | nil =>
    cases h
    exact .refl
  | cons x rest ih =>
    obtain ⟨i, branch⟩ := x
    simp only [lockRun, Option.bind_eq_some_iff, Option.ite_none_right_eq_some] at h
    obtain ⟨t, ht, t', ht', hfree, hrest⟩ := h
    refine .head (.step i branch ht ht' fun l mode hw => ?_) (ih hrest)
    rw [hw] at hfree
    exact of_decide_eq_true hfree

end Runs

-- ---------------------------------------------------------------------------
-- The order
-- ---------------------------------------------------------------------------

section Order

variable [DecidableEq L] (rank : L → Nat)

/-- The locks that can be held after the program, if no more than `held` are before it.
There is no answer if it takes a lock out of order. -/
def LockProg.after (held : List L) : LockProg L → Option (List L)
  | .skip => some held
  | .leave => some held
  | .guard l _ p =>
    if held.all fun x => rank x < rank l then (p.after (l :: held)).map (·.filter (· ≠ l)) else none
  | .drop l => some (held.filter (· ≠ l))
  | .seq p q => (p.after held).bind fun held' => q.after held'
  | .choose p q => (p.after held).bind fun hp => (q.after held).map fun hq => hp ++ hq
  | .loop p => (p.after held).map fun _ => held
  | .call p => (p.after held).map fun _ => held

def LockProg.Ordered (p : LockProg L) : Prop := (p.after rank []).isSome

instance (p : LockProg L) : Decidable (p.Ordered rank) := inferInstanceAs (Decidable (_ = true))

variable {rank}

theorem LockProg.after_subset {p : LockProg L} (h : p.after rank held = some held') : held' ⊆ held := by
  induction p generalizing held held' with
  | skip => cases h; exact fun _ => id
  | leave => cases h; exact fun _ => id
  | guard l mode p ih =>
    simp only [after, Option.ite_none_right_eq_some, Option.map_eq_some_iff] at h
    obtain ⟨-, b, hb, rfl⟩ := h
    intro x hx
    simp only [ne_eq, decide_not, List.mem_filter, Bool.not_eq_eq_eq_not, Bool.not_true, decide_eq_false_iff_not] at hx
    exact (List.mem_cons.mp (ih hb hx.1)).resolve_left hx.2
  | drop l => cases h; exact List.filter_subset_self _
  | seq p q ihp ihq =>
    simp only [after, Option.bind_eq_some_iff] at h
    obtain ⟨b, hb, hq⟩ := h
    exact fun x hx => ihp hb (ihq hq hx)
  | choose p q ihp ihq =>
    simp only [after, Option.bind_eq_some_iff, Option.map_eq_some_iff] at h
    obtain ⟨b, hb, c, hc, rfl⟩ := h
    exact List.append_subset.mpr ⟨ihp hb, ihq hc⟩
  | loop p _ =>
    simp only [after, Option.map_eq_some_iff] at h
    obtain ⟨-, -, rfl⟩ := h
    exact fun _ => id
  | call p _ =>
    simp only [after, Option.map_eq_some_iff] at h
    obtain ⟨-, -, rfl⟩ := h
    exact fun _ => id

theorem LockProg.after_mono {p : LockProg L} (h : p.after rank held = some held') (hsub : few ⊆ held) :
    ∃ few', p.after rank few = some few' ∧ few' ⊆ held' := by
  induction p generalizing held held' few with
  | skip => cases h; exact ⟨few, rfl, hsub⟩
  | leave => cases h; exact ⟨few, rfl, hsub⟩
  | guard l mode p ih =>
    simp only [after, Option.ite_none_right_eq_some, Option.map_eq_some_iff] at h
    obtain ⟨hall, b, hb, rfl⟩ := h
    obtain ⟨c, hc, hcb⟩ := ih hb (List.cons_subset_cons l hsub)
    refine ⟨_, ?_, List.filter_subset _ hcb⟩
    rw [after, if_pos, hc, Option.map_some]
    exact List.all_eq_true.mpr fun x hx => List.all_eq_true.mp hall x (hsub hx)
  | drop l => cases h; exact ⟨_, rfl, List.filter_subset _ hsub⟩
  | seq p q ihp ihq =>
    simp only [after, Option.bind_eq_some_iff] at h
    obtain ⟨b, hb, hq⟩ := h
    obtain ⟨c, hc, hcb⟩ := ihp hb hsub
    obtain ⟨d, hd, hdb⟩ := ihq hq hcb
    exact ⟨d, by simp [after, hc, hd], hdb⟩
  | choose p q ihp ihq =>
    simp only [after, Option.bind_eq_some_iff, Option.map_eq_some_iff] at h
    obtain ⟨b, hb, c, hc, rfl⟩ := h
    obtain ⟨b', hb', hbb⟩ := ihp hb hsub
    obtain ⟨c', hc', hcc⟩ := ihq hc hsub
    exact ⟨b' ++ c', by simp [after, hb', hc'], List.append_subset.mpr
      ⟨fun x hx => List.mem_append_left _ (hbb hx), fun x hx => List.mem_append_right _ (hcc hx)⟩⟩
  | loop p ih =>
    simp only [after, Option.map_eq_some_iff] at h
    obtain ⟨b, hb, rfl⟩ := h
    obtain ⟨c, hc, -⟩ := ih hb hsub
    exact ⟨few, by simp [after, hc], hsub⟩
  | call p ih =>
    simp only [after, Option.map_eq_some_iff] at h
    obtain ⟨b, hb, rfl⟩ := h
    obtain ⟨c, hc, -⟩ := ih hb hsub
    exact ⟨few, by simp [after, hc], hsub⟩

variable (rank) in
/-- With no more than `bound` held, the frames take their locks in order, and nothing is
held at their end: going on normally, or leaving the function. -/
def FramesOrdered : (leaving : Bool) → (bound : List L) → List (LockFrame L) → Prop
  | _, bound, [] => bound = []
  | false, bound, .run p :: k => ∃ b, p.after rank bound = some b ∧ FramesOrdered false b k
  | true, bound, .run _ :: k => FramesOrdered true bound k
  | leaving, bound, .release l :: k => FramesOrdered leaving (bound.filter (· ≠ l)) k
  | _, bound, .ret :: k => FramesOrdered false bound k ∧ FramesOrdered true bound k

theorem FramesOrdered.mono {frames : List (LockFrame L)} (h : FramesOrdered rank leaving bound frames)
    (hsub : few ⊆ bound) : FramesOrdered rank leaving few frames := by
  induction frames generalizing leaving bound few with
  | nil => exact List.eq_nil_of_subset_nil ((show bound = [] by cases leaving <;> exact h) ▸ hsub)
  | cons f k ih =>
    cases f with
    | run p =>
      cases leaving with
      | false =>
        obtain ⟨b, hb, hk⟩ := h
        obtain ⟨c, hc, hcb⟩ := LockProg.after_mono hb hsub
        exact ⟨c, hc, ih hk hcb⟩
      | true =>
        have hk : FramesOrdered rank true bound k := h
        exact ih hk hsub
    | release l =>
      have hk : FramesOrdered rank leaving (bound.filter (· ≠ l)) k := by cases leaving <;> exact h
      have hfew := ih hk (List.filter_subset _ hsub)
      cases leaving <;> exact hfew
    | ret =>
      cases leaving with
      | false => exact ⟨ih h.1 hsub, ih h.2 hsub⟩
      | true => exact ⟨ih h.1 hsub, ih h.2 hsub⟩

variable (rank) in
def LockThread.Ordered (t : LockThread L) : Prop :=
  ∃ bound, (∀ x ∈ t.held, x.1 ∈ bound) ∧ FramesOrdered rank t.leaving bound t.frames ∧
    FramesOrdered rank true bound t.frames

theorem LockThread.ordered_start {p : LockProg L} (h : p.Ordered rank) : (LockThread.start p).Ordered rank := by
  obtain ⟨b, hb⟩ := Option.isSome_iff_exists.mp h
  exact ⟨[], by simp [start], ⟨b, hb, List.eq_nil_of_subset_nil (LockProg.after_subset hb)⟩, rfl⟩

theorem LockThread.mem_unlock {held : List (L × LockMode)} (h : x ∈ unlock held l) : x ∈ held ∧ x.1 ≠ l := by
  simpa [unlock] using h

theorem LockThread.unlock_bound {held : List (L × LockMode)} {bound : List L} (h : ∀ x ∈ held, x.1 ∈ bound) (l : L) :
    ∀ x ∈ unlock held l, x.1 ∈ bound.filter (· ≠ l) := by
  intro x hx
  have hx' := mem_unlock hx
  simpa using ⟨h x hx'.1, hx'.2⟩

theorem LockThread.Ordered.advance {t t' : LockThread L} (h : t.Ordered rank) (hstep : t.advance branch = some t') :
    t'.Ordered rank := by
  obtain ⟨leaving, held, frames⟩ := t
  obtain ⟨bound, hbound, hrun, hleave⟩ := h
  dsimp only at hbound hrun hleave
  cases frames with
  | nil => cases leaving <;> cases hstep
  | cons f k =>
    cases f with
    | release l =>
      have hheld := unlock_bound hbound l
      cases leaving with
      | false => cases hstep; exact ⟨_, hheld, hrun, hleave⟩
      | true => cases hstep; exact ⟨_, hheld, hrun, hleave⟩
    | ret =>
      cases leaving with
      | false => cases hstep; exact ⟨bound, hbound, hrun⟩
      | true => cases hstep; exact ⟨bound, hbound, hrun⟩
    | run p =>
      cases leaving with
      | true => cases hstep; exact ⟨bound, hbound, hrun, hrun⟩
      | false =>
        obtain ⟨b, hb, hk⟩ := hrun
        cases p with
        | skip => cases hstep; cases hb; exact ⟨bound, hbound, hk, hleave⟩
        | leave => cases hstep; cases hb; exact ⟨bound, hbound, hleave, hleave⟩
        | guard l mode p =>
          cases hstep
          simp only [LockProg.after, Option.ite_none_right_eq_some, Option.map_eq_some_iff] at hb
          obtain ⟨-, c, hc, rfl⟩ := hb
          refine ⟨l :: bound, ?_, ⟨c, hc, hk⟩, ?_⟩
          · intro x hx
            rcases List.mem_cons.mp hx with rfl | hx
            · exact List.mem_cons_self
            · exact List.mem_cons_of_mem _ (hbound x hx)
          · -- at the end of the scope no more is held than in front of it
            have hk' : FramesOrdered rank true bound k := hleave
            change FramesOrdered rank true ((l :: bound).filter (· ≠ l)) k
            refine hk'.mono fun x hx => ?_
            simp only [ne_eq, decide_not, List.mem_filter, Bool.not_eq_eq_eq_not, Bool.not_true, decide_eq_false_iff_not] at hx
            exact (List.mem_cons.mp hx.1).resolve_left hx.2
        | drop l =>
          cases hstep
          cases hb
          have hk' : FramesOrdered rank true bound k := hleave
          exact ⟨_, unlock_bound hbound l, hk, hk'.mono (List.filter_subset_self _)⟩
        | seq p q =>
          cases hstep
          simp only [LockProg.after, Option.bind_eq_some_iff] at hb
          obtain ⟨c, hc, hq⟩ := hb
          exact ⟨bound, hbound, ⟨c, hc, b, hq, hk⟩, hleave⟩
        | choose p q =>
          cases hstep
          simp only [LockProg.after, Option.bind_eq_some_iff, Option.map_eq_some_iff] at hb
          obtain ⟨c, hc, d, hd, rfl⟩ := hb
          refine ⟨bound, hbound, ?_, hleave⟩
          cases branch with
          | true => exact ⟨c, hc, hk.mono (List.subset_append_left c d)⟩
          | false => exact ⟨d, hd, hk.mono (List.subset_append_right c d)⟩
        | loop p =>
          cases hstep
          simp only [LockProg.after, Option.map_eq_some_iff] at hb
          obtain ⟨c, hc, rfl⟩ := hb
          refine ⟨bound, hbound, ?_⟩
          cases branch with
          | false => exact ⟨hk, hleave⟩
          | true =>
            obtain ⟨d, hd, -⟩ := LockProg.after_mono hc (LockProg.after_subset hc)
            exact ⟨⟨c, hc, c, by simp [LockProg.after, hd], hk.mono (LockProg.after_subset hc)⟩, hleave⟩
        | call p =>
          cases hstep
          simp only [LockProg.after, Option.map_eq_some_iff] at hb
          obtain ⟨c, hc, rfl⟩ := hb
          have hsub := LockProg.after_subset hc
          have hk' : FramesOrdered rank true bound k := hleave
          exact ⟨bound, hbound, ⟨c, hc, hk.mono hsub, hk'.mono hsub⟩, hk, hk'⟩

theorem LockThread.Ordered.rank_lt {t : LockThread L} (h : t.Ordered rank) (hw : t.wants = some (l, mode))
    (hh : t.holds l') : rank l' < rank l := by
  obtain ⟨bound, hbound, hrun, -⟩ := h
  obtain ⟨mode', hmem⟩ := hh
  unfold wants at hw
  split at hw
  · rename_i hleaving hframes
    cases hw
    rw [hleaving, hframes] at hrun
    obtain ⟨b, hb, -⟩ := hrun
    simp only [LockProg.after, Option.ite_none_right_eq_some] at hb
    simpa using List.all_eq_true.mp hb.1 l' (hbound _ hmem)
  · cases hw

theorem LockThread.Ordered.held_of_finished {t : LockThread L} (h : t.Ordered rank) (hf : t.Finished) : t.held = [] := by
  obtain ⟨bound, hbound, hrun, -⟩ := h
  unfold Finished at hf
  rw [hf] at hrun
  obtain rfl : bound = [] := by cases hl : t.leaving <;> rw [hl] at hrun <;> exact hrun
  exact List.eq_nil_iff_forall_not_mem.mpr fun x hx => List.not_mem_nil (hbound x hx)

theorem LockThread.advance_isSome {t : LockThread L} (h : ¬t.Finished) (branch : Bool) : ∃ t', t.advance branch = some t' := by
  obtain ⟨leaving, held, frames⟩ := t
  cases frames with
  | nil => exact absurd rfl h
  | cons f k =>
    cases f with
    | run p =>
      cases leaving with
      | true => exact ⟨_, rfl⟩
      | false => cases p <;> exact ⟨_, rfl⟩
    | release l => cases leaving <;> exact ⟨_, rfl⟩
    | ret => cases leaving <;> exact ⟨_, rfl⟩

-- ---------------------------------------------------------------------------
-- No circle
-- ---------------------------------------------------------------------------

theorem LockReachable.ordered {ps : List (LockProg L)} (hps : ∀ p ∈ ps, p.Ordered rank)
    (h : LockReachable ps threads) : ∀ t ∈ threads, t.Ordered rank := by
  induction h with
  | refl =>
    intro t ht
    obtain ⟨p, hp, rfl⟩ := List.mem_map.mp ht
    exact LockThread.ordered_start (hps p hp)
  | tail _ hstep ih =>
    cases hstep with
    | step i branch hi hadvance _ =>
      intro t ht
      rcases List.mem_or_eq_of_mem_set ht with ht | rfl
      · exact ih t ht
      · exact (ih _ (List.mem_of_getElem? hi)).advance hadvance

theorem exists_holder {threads : List (LockThread L)} (hord : ∀ t ∈ threads, t.Ordered rank)
    (h : ¬LockFree threads l mode) : ∃ t ∈ threads, t.holds l ∧ ¬t.Finished := by
  have key : ∃ t ∈ threads, t.holds l := by
    cases mode with
    | read =>
      simp only [LockFree, not_forall, not_not] at h
      obtain ⟨t, ht, hmem⟩ := h
      exact ⟨t, ht, _, hmem⟩
    | write =>
      simp only [LockFree, not_forall, not_not] at h
      obtain ⟨t, ht, hmem⟩ := h
      exact ⟨t, ht, hmem⟩
  obtain ⟨t, ht, mode', hmem⟩ := key
  refine ⟨t, ht, ⟨mode', hmem⟩, fun hf => ?_⟩
  rw [(hord t ht).held_of_finished hf] at hmem
  cases hmem

/-- Also where the lock is refused to a reader for the sake of a waiting writer, if that
one is refused it, too. -/
theorem exists_holder_of_unfair {threads : List (LockThread L)} (hord : ∀ t ∈ threads, t.Ordered rank)
    (hall : ∀ t ∈ threads, ∀ l mode, t.wants = some (l, mode) → ¬LockFair threads l mode)
    (h : ¬LockFair threads l mode) : ∃ t ∈ threads, t.holds l ∧ ¬t.Finished := by
  by_cases hfree : LockFree threads l mode
  · -- a writer waits
    have hwait : ∃ t ∈ threads, t.wants = some (l, .write) := by
      by_contra hno
      push Not at hno
      exact h ⟨hfree, fun _ => hno⟩
    obtain ⟨t, ht, hw⟩ := hwait
    exact exists_holder hord fun hf => hall t ht l .write hw ⟨hf, by simp⟩
  · exact exists_holder hord hfree

/-- A thread that has not finished is at a lock, or makes its step. Where all of them are
at a lock that they do not get, each lock has a holder that waits for a greater one. -/
theorem LockReachable.exists_step {ps : List (LockProg L)} (hps : ∀ p ∈ ps, p.Ordered rank) (h : LockReachable ps threads)
    (hrun : ∃ t ∈ threads, ¬t.Finished) : ∃ threads', LockStep LockFair threads threads' := by
  have hord := LockReachable.ordered hps h
  by_contra hstuck
  have hblocked : ∀ t ∈ threads, ¬t.Finished → ∃ l mode, t.wants = some (l, mode) ∧ ¬LockFair threads l mode := by
    intro t ht hf
    by_contra hno
    push Not at hno
    obtain ⟨i, hi⟩ := List.mem_iff_getElem?.mp ht
    obtain ⟨t', ht'⟩ := LockThread.advance_isSome hf true
    exact hstuck ⟨_, .step i true hi ht' hno⟩
  have hrefused : ∀ t ∈ threads, ∀ l mode, t.wants = some (l, mode) → ¬LockFair threads l mode := by
    intro t ht l mode hw
    obtain ⟨l', mode', hw', hunfair⟩ := hblocked t ht (LockThread.not_finished_of_wants hw)
    rw [hw] at hw'
    cases hw'
    exact hunfair
  have hclimb : ∀ n, ∃ t ∈ threads, ∃ l mode, t.wants = some (l, mode) ∧ n ≤ rank l := by
    intro n
    induction n with
    | zero =>
      obtain ⟨t, ht, hf⟩ := hrun
      obtain ⟨l, mode, hw, -⟩ := hblocked t ht hf
      exact ⟨t, ht, l, mode, hw, Nat.zero_le _⟩
    | succ n ih =>
      obtain ⟨t, ht, l, mode, hw, hn⟩ := ih
      obtain ⟨t', ht', hh, hf'⟩ := exists_holder_of_unfair hord hrefused (hrefused t ht l mode hw)
      obtain ⟨l', mode', hw', -⟩ := hblocked t' ht' hf'
      exact ⟨t', ht', l', mode', hw', lt_of_le_of_lt hn ((hord t' ht').rank_lt hw' hh)⟩
  -- but there are only so many ranks that threads wait for
  let ranks := (threads.filterMap LockThread.wants).map fun x => rank x.1
  obtain ⟨t, ht, l, mode, hw, hn⟩ := hclimb (ranks.sum + 1)
  have hle : rank l ≤ ranks.sum :=
    List.le_sum_of_mem (List.mem_map.mpr ⟨(l, mode), List.mem_filterMap.mpr ⟨t, ht, hw⟩, rfl⟩)
  exact absurd (hn.trans hle) (Nat.not_succ_le_self _)

end Order

end AiDb.Library
