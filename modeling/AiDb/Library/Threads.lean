import Mathlib

/-!
# Interleavings

Threads share a state. A step of a thread is atomic and moves the shared state and
the thread; a thread that has finished has no step. A schedule says whose turn it
is, so a run is an interleaving of the threads, cut off at any point.
-/

namespace AiDb.Library

variable {σ τ : Type}

structure Config (σ τ : Type) where
  shared : σ
  threads : List τ

namespace Config

variable (next : σ → τ → Option (σ × τ))

def step (c : Config σ τ) (i : Nat) : Option (Config σ τ) :=
  match c.threads[i]? with
  | none => none
  | some t =>
    match next c.shared t with
    | none => none
    | some (s, t') => some ⟨s, c.threads.set i t'⟩

def run (c : Config σ τ) : List Nat → Option (Config σ τ)
  | [] => some c
  | i :: is =>
    match c.step next i with
    | none => none
    | some c' => c'.run is

def Along (P : σ → List τ → τ → Prop) (c : Config σ τ) : List Nat → Prop
  | [] => True
  | i :: is => (∀ t, c.threads[i]? = some t → P c.shared c.threads t) ∧
      ∀ c', c.step next i = some c' → c'.Along P is

def checkAlong (P : σ → List τ → τ → Prop) [∀ s ts t, Decidable (P s ts t)] (c : Config σ τ) : List Nat → Bool
  | [] => true
  | i :: is =>
    (match c.threads[i]? with
      | none => true
      | some t => decide (P c.shared c.threads t)) &&
    match c.step next i with
    | none => true
    | some c' => c'.checkAlong P is

variable {next} {c c' : Config σ τ}

theorem along_of_check {P : σ → List τ → τ → Prop} [∀ s ts t, Decidable (P s ts t)]
    (h : c.checkAlong next P is = true) : c.Along next P is := by
  induction is generalizing c with
  | nil => trivial
  | cons i is ih =>
    rw [checkAlong, Bool.and_eq_true] at h
    refine ⟨fun t ht => ?_, fun c' hc' => ?_⟩
    · have hP := h.1
      rw [ht] at hP
      exact of_decide_eq_true hP
    · have hrest := h.2
      rw [hc'] at hrest
      exact ih hrest

theorem step_eq_some : c.step next i = some c' ↔
    ∃ t s t', c.threads[i]? = some t ∧ next c.shared t = some (s, t') ∧ c' = ⟨s, c.threads.set i t'⟩ := by
  unfold step
  constructor
  · intro h
    split at h
    · cases h
    · rename_i t ht
      split at h
      · cases h
      · rename_i s t' hn
        exact ⟨t, s, t', ht, hn, by simpa using h.symm⟩
  · rintro ⟨t, s, t', ht, hn, rfl⟩
    simp [ht, hn]

theorem run_cons (h : c.run next (i :: is) = some c') :
    ∃ c1, c.step next i = some c1 ∧ c1.run next is = some c' := by
  unfold run at h
  split at h
  · cases h
  · rename_i c1 hc1
    exact ⟨c1, hc1, h⟩

theorem run_invariant {I : Config σ τ → Prop} {P : σ → List τ → τ → Prop}
    (hstep : ∀ c i t s t', I c → P c.shared c.threads t → c.threads[i]? = some t → next c.shared t = some (s, t') →
      I ⟨s, c.threads.set i t'⟩)
    (h : I c) (hP : c.Along next P is) (hrun : c.run next is = some c') : I c' := by
  induction is generalizing c with
  | nil =>
    cases hrun
    exact h
  | cons i is ih =>
    obtain ⟨c1, hc1, hrun⟩ := run_cons hrun
    obtain ⟨t, s, t', ht, hn, rfl⟩ := step_eq_some.mp hc1
    exact ih (hstep c i t s t' h (hP.1 t ht) ht hn) (hP.2 _ hc1) hrun

theorem along_true (c : Config σ τ) (is : List Nat) : c.Along next (fun _ _ _ => True) is := by
  induction is generalizing c with
  | nil => trivial
  | cons i is ih => exact ⟨fun _ _ => trivial, fun c' _ => ih c'⟩

/-- An invariant of the shared state, and one of each thread: a step keeps its own
thread's, and does not disturb those of the others. -/
theorem forall_set {L : τ → Prop} {threads : List τ} (hold : ∀ t ∈ threads, L t) (hnew : L t') :
    ∀ t ∈ threads.set i t', L t := by
  intro t ht
  rcases List.mem_or_eq_of_mem_set ht with ht | rfl
  · exact hold t ht
  · exact hnew

theorem mem_set_self {threads : List τ} (ht : threads[i]? = some t) (t' : τ) : t' ∈ threads.set i t' :=
  List.mem_set (List.getElem?_eq_some_iff.mp ht).1 t'

/-- What some thread does, some thread still does after a step, if it is not the one
that moved. -/
theorem exists_set {L : τ → Prop} {threads : List τ} (ht : threads[i]? = some t) (t' : τ)
    (h : ∃ x ∈ threads, L x) : L t ∨ ∃ x ∈ threads.set i t', L x := by
  obtain ⟨x, hx, hL⟩ := h
  obtain ⟨j, hj⟩ := List.mem_iff_getElem?.mp hx
  by_cases hij : i = j
  · subst hij
    rw [ht] at hj
    cases hj
    exact .inl hL
  · refine .inr ⟨x, List.mem_iff_getElem?.mpr ⟨j, ?_⟩, hL⟩
    rw [List.getElem?_set_ne hij]
    exact hj

theorem filterMap_set {f : τ → Option α} {threads : List τ} (ht : threads[i]? = some t) (hf : f t' = f t) :
    (threads.set i t').filterMap f = threads.filterMap f := by
  induction threads generalizing i with
  | nil => cases ht
  | cons x xs ih =>
    cases i with
    | zero =>
      cases ht
      rw [List.set_cons_zero, List.filterMap_cons, List.filterMap_cons, hf]
    | succ i =>
      rw [List.set_cons_succ, List.filterMap_cons, List.filterMap_cons, ih ht]

theorem filterMap_set_perm {f : τ → Option α} {threads : List τ} (ht : threads[i]? = some t) (hf : f t = none)
    (hf' : f t' = some a) : ((threads.set i t').filterMap f).Perm (threads.filterMap f ++ [a]) := by
  induction threads generalizing i with
  | nil => cases ht
  | cons x xs ih =>
    cases i with
    | zero =>
      cases ht
      rw [List.set_cons_zero, List.filterMap_cons_some hf', List.filterMap_cons_none hf]
      exact (List.perm_append_singleton a _).symm
    | succ i =>
      rw [List.set_cons_succ]
      cases hx : f x with
      | none =>
        rw [List.filterMap_cons_none hx, List.filterMap_cons_none hx]
        exact ih ht
      | some b =>
        rw [List.filterMap_cons_some hx, List.filterMap_cons_some hx]
        exact (ih ht).cons b

theorem filterMap_set_none {f : τ → Option α} {threads : List τ} (ht : threads[i]? = some t) (hf : f t = some a)
    (hf' : f t' = none) : (threads.filterMap f).Perm ((threads.set i t').filterMap f ++ [a]) := by
  obtain ⟨hi, rfl⟩ := List.getElem?_eq_some_iff.mp ht
  have hset : (threads.set i t').set i threads[i] = threads := by rw [List.set_set, List.set_getElem_self]
  have hperm := filterMap_set_perm (List.getElem?_set_self (a := t') hi) hf' hf
  rwa [hset] at hperm

end Config

end AiDb.Library
