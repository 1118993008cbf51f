import Mathlib

/-!
# Folds by injective and by idempotent steps

A fold whose step forgets neither the state nor the element tells apart any two lists
that differ in one place. A fold whose steps commute, and are the same twice as once,
looks only at which elements there are.
-/

namespace AiDb.Library

variable {S B : Type} {step : S → B → S}

theorem foldl_injective (hstate : ∀ b, Function.Injective (step · b)) (xs : List B) :
    Function.Injective (xs.foldl step ·) := by
  induction xs with
  | nil => exact Function.injective_id
  | cons x xs ih => exact ih.comp (hstate x)

theorem foldl_set_ne {v : B} {i : Nat} (hstate : ∀ b, Function.Injective (step · b))
    (helem : ∀ s, Function.Injective (step s)) (s : S) {xs : List B} (hi : i < xs.length) (hne : xs[i]? ≠ some v) :
    (xs.set i v).foldl step s ≠ xs.foldl step s := by
  induction xs generalizing s i with
  | nil => simp at hi
  | cons x xs ih =>
    cases i with
    | zero =>
      intro heq
      have hstep : step s v = step s x := foldl_injective hstate xs heq
      exact hne (congrArg some (helem s hstep).symm)
    | succ i => exact ih (step s x) (by simpa using hi) (by simpa using hne)

-- ---------------------------------------------------------------------------
-- Steps in any order, any number of times
-- ---------------------------------------------------------------------------

section Idempotent

variable (hcomm : ∀ s a b, step (step s a) b = step (step s b) a) (hidem : ∀ s a, step (step s a) a = step s a)
include hcomm

theorem foldl_step_comm (s : S) (b : B) (xs : List B) : xs.foldl step (step s b) = step (xs.foldl step s) b := by
  induction xs generalizing s with
  | nil => rfl
  | cons x xs ih => rw [List.foldl_cons, List.foldl_cons, hcomm, ih]

include hidem

theorem foldl_step_of_mem (s : S) {b : B} {xs : List B} (h : b ∈ xs) : step (xs.foldl step s) b = xs.foldl step s := by
  induction xs generalizing s with
  | nil => cases h
  | cons x xs ih =>
    rcases List.mem_cons.mp h with rfl | h
    · rw [List.foldl_cons, ← foldl_step_comm hcomm, hidem]
    · exact ih (step s x) h

theorem foldl_foldl_of_subset (s : S) {xs ys : List B} (h : ys ⊆ xs) : ys.foldl step (xs.foldl step s) = xs.foldl step s := by
  induction ys with
  | nil => rfl
  | cons y ys ih =>
    obtain ⟨hy, hys⟩ := List.cons_subset.mp h
    rw [List.foldl_cons, foldl_step_of_mem hcomm hidem s hy, ih hys]

theorem foldl_congr_mem (s : S) {xs ys : List B} (h : ∀ b, b ∈ xs ↔ b ∈ ys) : xs.foldl step s = ys.foldl step s := by
  have : RightCommutative step := ⟨hcomm⟩
  calc xs.foldl step s = (xs ++ ys).foldl step s := by
        rw [List.foldl_append, foldl_foldl_of_subset hcomm hidem s fun b hb => (h b).mpr hb]
    _ = (ys ++ xs).foldl step s := List.perm_append_comm.foldl_eq s
    _ = ys.foldl step s := by
        rw [List.foldl_append, foldl_foldl_of_subset hcomm hidem s fun b hb => (h b).mp hb]

end Idempotent

end AiDb.Library
