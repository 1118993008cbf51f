import Mathlib

/-!
# Computations that can stop

A program built with overflow checks returns a value or an error, or it stops: at an
overflow, at an index outside a slice, at a buffer that cannot be allocated. Whether a
sequence of steps returns is decided step by step.
-/

namespace AiDb.Library

inductive Outcome (E A : Type)
  | ok (a : A)
  | err (e : E)
  | stopped
  deriving DecidableEq

namespace Outcome

variable {E A B : Type}

protected def bind : Outcome E A → (A → Outcome E B) → Outcome E B
  | ok a, f => f a
  | err e, _ => err e
  | stopped, _ => stopped

instance outcomeMonad : Monad (Outcome E) where
  pure := ok
  bind := Outcome.bind

def Returns (x : Outcome E A) : Prop := x ≠ stopped

def lift : Except E A → Outcome E A
  | .ok a => ok a
  | .error e => err e

def check (p : Prop) [Decidable p] (a : A) : Outcome E A := if p then ok a else stopped

@[simp] theorem pure_eq (a : A) : (pure a : Outcome E A) = ok a := rfl
@[simp] theorem ok_bind (a : A) (f : A → Outcome E B) : ok a >>= f = f a := rfl
@[simp] theorem err_bind (e : E) (f : A → Outcome E B) : err e >>= f = err e := rfl
@[simp] theorem stopped_bind (f : A → Outcome E B) : (stopped : Outcome E A) >>= f = stopped := rfl

@[simp] theorem lift_ok (a : A) : lift (.ok a : Except E A) = ok a := rfl
@[simp] theorem lift_error (e : E) : lift (.error e : Except E A) = err e := rfl

@[simp] theorem lift_pure (a : A) : lift (pure a : Except E A) = ok a := rfl
@[simp] theorem lift_throw (e : E) : lift (throw e : Except E A) = err e := rfl

@[simp] theorem lift_bind (x : Except E A) (f : A → Except E B) : lift (x >>= f) = lift x >>= fun a => lift (f a) := by
  cases x <;> rfl

@[simp] theorem lift_map (f : A → B) (x : Except E A) : lift (f <$> x) = lift x >>= fun a => ok (f a) := by
  cases x <;> rfl

@[simp] theorem returns_ok (a : A) : (ok a : Outcome E A).Returns := by simp [Returns]
@[simp] theorem returns_err (e : E) : (err e : Outcome E A).Returns := by simp [Returns]
@[simp] theorem not_returns_stopped : ¬(stopped : Outcome E A).Returns := by simp [Returns]

@[simp] theorem lift_eq_ok {x : Except E A} {a : A} : lift x = ok a ↔ x = .ok a := by cases x <;> simp [lift]
@[simp] theorem lift_eq_err {x : Except E A} {e : E} : lift x = err e ↔ x = .error e := by cases x <;> simp [lift]
@[simp] theorem lift_ne_stopped (x : Except E A) : lift x ≠ stopped := by cases x <;> simp [lift]

@[simp] theorem returns_lift (x : Except E A) : (lift x).Returns := by cases x <;> simp

theorem check_pos {p : Prop} [Decidable p] (h : p) (a : A) : (check p a : Outcome E A) = ok a := if_pos h

theorem check_neg {p : Prop} [Decidable p] (h : ¬p) (a : A) : (check p a : Outcome E A) = stopped := if_neg h

@[simp] theorem returns_check (p : Prop) [Decidable p] (a : A) : (check p a : Outcome E A).Returns ↔ p := by
  by_cases h : p <;> simp [check, h]

theorem check_eq_ok {p : Prop} [Decidable p] {a b : A} : (check p a : Outcome E A) = ok b ↔ p ∧ a = b := by
  by_cases h : p <;> simp [check, h]

theorem returns_iff_ok (x : Outcome Empty A) : x.Returns ↔ ∃ a, x = ok a := by
  cases x with
  | ok a => simp
  | err e => exact e.elim
  | stopped => simp

theorem returns_bind (x : Outcome E A) (f : A → Outcome E B) :
    (x >>= f).Returns ↔ x.Returns ∧ ∀ a, x = ok a → (f a).Returns := by
  cases x <;> simp

theorem bind_eq_ok {x : Outcome E A} {f : A → Outcome E B} {b : B} :
    x >>= f = ok b ↔ ∃ a, x = ok a ∧ f a = ok b := by
  cases x <;> simp

/-- It returns as `y` does: with the same value, or with some error for some error. -/
def Agrees : Outcome E A → Except E A → Prop
  | ok a, .ok b => a = b
  | err _, .error _ => True
  | _, _ => False

theorem Agrees.returns {x : Outcome E A} {y : Except E A} (h : x.Agrees y) : x.Returns := by
  cases x with
  | stopped => cases y <;> exact h.elim
  | ok a => simp
  | err e => simp

theorem Agrees.eq_ok {x : Outcome E A} {y : Except E A} {a : A} (h : x.Agrees y) (hy : y = .ok a) : x = ok a := by
  subst hy
  cases x with
  | stopped => exact h.elim
  | ok b => exact congrArg ok h
  | err e => exact h.elim

theorem Agrees.eq_err {x : Outcome E A} {y : Except E A} {e : E} (h : x.Agrees y) (hy : y = .error e) :
    ∃ e', x = err e' := by
  subst hy
  cases x with
  | stopped => exact h.elim
  | ok b => exact h.elim
  | err e' => exact ⟨e', rfl⟩

@[simp] theorem agrees_lift (x : Except E A) : (lift x).Agrees x := by cases x <;> simp [Agrees]

theorem Agrees.bind {x : Outcome E A} {y : Except E A} {f : A → Outcome E B} {g : A → Except E B} (h : x.Agrees y)
    (hf : ∀ a, x = ok a → y = .ok a → (f a).Agrees (g a)) : (x >>= f).Agrees (y >>= g) := by
  cases x with
  | stopped => cases y <;> exact h.elim
  | err e =>
    cases y with
    | ok b => exact h.elim
    | error e' => trivial
  | ok a =>
    cases y with
    | error e' => exact h.elim
    | ok b =>
      obtain rfl : a = b := h
      exact hf a rfl rfl

-- ---------------------------------------------------------------------------
-- Arithmetic and slices
-- ---------------------------------------------------------------------------

def add (bits a b : Nat) : Outcome E Nat := check (a + b < 2 ^ bits) (a + b)

def sub (a b : Nat) : Outcome E Nat := check (b ≤ a) (a - b)

def mul (bits a b : Nat) : Outcome E Nat := check (a * b < 2 ^ bits) (a * b)

def pow (bits a n : Nat) : Outcome E Nat := check (a ^ n < 2 ^ bits) (a ^ n)

def rem (a b : Nat) : Outcome E Nat := check (b ≠ 0) (a % b)

def slice (xs : List A) (i j : Nat) : Outcome E (List A) := check (i ≤ j ∧ j ≤ xs.length) ((xs.drop i).take (j - i))

def index (xs : List A) (i : Nat) : Outcome E A :=
  match xs[i]? with
  | some x => ok x
  | none => stopped

/-- The sum of an iterator, each partial sum checked. -/
def sum (bits : Nat) : List Nat → Nat → Outcome E Nat
  | [], total => ok total
  | n :: ns, total => do
    let total ← add bits total n
    sum bits ns total

theorem add_eq {bits a b : Nat} (h : a + b < 2 ^ bits) : (add bits a b : Outcome E Nat) = ok (a + b) := check_pos h _

theorem sub_eq {a b : Nat} (h : b ≤ a) : (sub a b : Outcome E Nat) = ok (a - b) := check_pos h _

theorem mul_eq {bits a b : Nat} (h : a * b < 2 ^ bits) : (mul bits a b : Outcome E Nat) = ok (a * b) := check_pos h _

theorem pow_eq {bits a n : Nat} (h : a ^ n < 2 ^ bits) : (pow bits a n : Outcome E Nat) = ok (a ^ n) := check_pos h _

theorem rem_eq {a b : Nat} (h : b ≠ 0) : (rem a b : Outcome E Nat) = ok (a % b) := check_pos h _

@[simp] theorem rem_zero (a : Nat) : (rem a 0 : Outcome E Nat) = stopped := check_neg (by simp) _

theorem add_eq_ok {bits a b c : Nat} : (add bits a b : Outcome E Nat) = ok c ↔ a + b < 2 ^ bits ∧ a + b = c := check_eq_ok

theorem slice_eq_ok {xs ys : List A} {i j : Nat} :
    (slice xs i j : Outcome E (List A)) = ok ys ↔ (i ≤ j ∧ j ≤ xs.length) ∧ (xs.drop i).take (j - i) = ys := check_eq_ok

theorem slice_eq {xs : List A} {i j : Nat} (hij : i ≤ j) (hj : j ≤ xs.length) :
    (slice xs i j : Outcome E (List A)) = ok ((xs.drop i).take (j - i)) := check_pos ⟨hij, hj⟩ _

theorem index_eq {xs : List A} {i : Nat} (h : i < xs.length) : (index xs i : Outcome E A) = ok xs[i] := by
  simp [index, h]

theorem index_eq_ok {xs : List A} {i : Nat} {a : A} : (index xs i : Outcome E A) = ok a ↔ xs[i]? = some a := by
  unfold index
  cases xs[i]? <;> simp

@[simp] theorem returns_index (xs : List A) (i : Nat) : (index xs i : Outcome E A).Returns ↔ i < xs.length := by
  by_cases h : i < xs.length <;> simp [index, h]

theorem sum_eq {bits : Nat} (ns : List Nat) (total : Nat) (htotal : total < 2 ^ bits) :
    (sum bits ns total : Outcome E Nat) = check (total + ns.sum < 2 ^ bits) (total + ns.sum) := by
  induction ns generalizing total with
  | nil => simp [sum, check, htotal]
  | cons n ns ih =>
    rw [sum, List.sum_cons, ← Nat.add_assoc]
    by_cases h : total + n < 2 ^ bits
    · rw [add, check_pos h, ok_bind, ih _ h]
    · rw [add, check_neg h, stopped_bind, check_neg (by omega)]

end Outcome

end AiDb.Library
