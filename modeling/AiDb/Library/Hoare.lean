import Mathlib

/-!
# Programs that may stop

A program over a state that may stop early is an `EStateM ε σ α`: what it did to
the state before it stopped is kept. `Triple m s Q E` says that from the state
`s` the program ends with `Q`, or stops with `E`. The rules follow the program
text.
-/

namespace AiDb.Library

variable {ε σ α β : Type}

def Triple (m : EStateM ε σ α) (s : σ) (Q : α → σ → Prop) (E : ε → σ → Prop) : Prop :=
  match m s with
  | .ok a s' => Q a s'
  | .error e s' => E e s'

def Keeps (I : σ → Prop) (m : EStateM ε σ α) : Prop :=
  ∀ s, I s → Triple m s (fun _ => I) (fun _ => I)

variable {m : EStateM ε σ α} {s : σ} {Q Q' : α → σ → Prop} {R : β → σ → Prop} {E E' : ε → σ → Prop}

theorem bind_eq_ok {f : α → EStateM ε σ β} (h : (m >>= f) s = .ok b s'') :
    ∃ a s', m s = .ok a s' ∧ f a s' = .ok b s'' := by
  simp only [Bind.bind, EStateM.bind] at h
  cases hr : m s with
  | ok a s' => exact ⟨a, s', rfl, by rwa [hr] at h⟩
  | error e s' => rw [hr] at h; cases h

namespace Triple

theorem ok (h : Triple m s Q E) (hm : m s = .ok a s') : Q a s' := by
  rwa [Triple, hm] at h

theorem error (h : Triple m s Q E) (hm : m s = .error e s') : E e s' := by
  rwa [Triple, hm] at h

theorem intro (hq : ∀ a s', m s = .ok a s' → Q a s') (he : ∀ e s', m s = .error e s' → E e s') : Triple m s Q E := by
  unfold Triple
  cases hr : m s with
  | ok a s' => exact hq a s' hr
  | error e s' => exact he e s' hr

theorem returns (h : ∀ a s', m s = .ok a s' → Q a s') : Triple m s Q fun _ _ => True := by
  unfold Triple
  cases hr : m s with
  | ok a s' => exact h a s' hr
  | error e s' => trivial

theorem pure (h : Q a s) : Triple (pure a) s Q E := h

theorem throw (h : E e s) : Triple (throw e) s Q E := h

theorem throw_bind {f : α → EStateM ε σ β} (h : E e s) :
    Triple (MonadExcept.throw e >>= f) s R E := h

theorem get_bind {f : σ → EStateM ε σ β} (h : Triple (f s) s R E) :
    Triple (MonadState.get >>= f) s R E := h

theorem modify_bind {g : σ → σ} {f : Unit → EStateM ε σ β} (h : Triple (f ()) (g s) R E) :
    Triple (modifyThe σ g >>= f) s R E := h

theorem modify {f : σ → σ} {Q : Unit → σ → Prop} (h : Q () (f s)) :
    Triple (modifyThe σ f : EStateM ε σ Unit) s Q E := h

theorem bind {f : α → EStateM ε σ β} (hm : Triple m s Q E)
    (hf : ∀ a s', Q a s' → Triple (f a) s' R E) : Triple (m >>= f) s R E := by
  unfold Triple at hm ⊢
  simp only [Bind.bind, EStateM.bind]
  cases hr : m s with
  | ok a s' => exact hf a s' (by rwa [hr] at hm)
  | error e s' => rwa [hr] at hm

theorem mono (h : Triple m s Q E) (hq : ∀ a s', Q a s' → Q' a s') (he : ∀ e s', E e s' → E' e s') :
    Triple m s Q' E' := by
  unfold Triple at h ⊢
  cases hr : m s with
  | ok a s' => rw [hr] at h; exact hq a s' h
  | error e s' => rw [hr] at h; exact he e s' h

theorem and (h : Triple m s Q E) (h' : Triple m s Q' E') :
    Triple m s (fun a s => Q a s ∧ Q' a s) (fun e s => E e s ∧ E' e s) := by
  unfold Triple at h h' ⊢
  cases hr : m s with
  | ok a s' => rw [hr] at h h'; exact ⟨h, h'⟩
  | error e s' => rw [hr] at h h'; exact ⟨h, h'⟩

end Triple

theorem Keeps.pure {I : σ → Prop} : Keeps I (Pure.pure a : EStateM ε σ α) := fun _ h => h

theorem Keeps.bind {I : σ → Prop} {f : α → EStateM ε σ β} (hm : Keeps I m) (hf : ∀ a, Keeps I (f a)) :
    Keeps I (m >>= f) := fun s hs => (hm s hs).bind fun a s' hs' => hf a s' hs'

theorem Keeps.get {I : σ → Prop} : Keeps I (MonadState.get : EStateM ε σ σ) := fun _ h => h

theorem Keeps.modify {I : σ → Prop} {f : σ → σ} (h : ∀ s, I s → I (f s)) :
    Keeps I (modifyThe σ f : EStateM ε σ Unit) := h

theorem Keeps.throw {I : σ → Prop} : Keeps I (MonadExcept.throw e : EStateM ε σ α) := fun _ h => h

theorem Keeps.ite {I : σ → Prop} {c : Prop} [Decidable c] {m n : EStateM ε σ α} (hm : Keeps I m)
    (hn : Keeps I n) : Keeps I (if c then m else n) := by
  split
  · exact hm
  · exact hn

/-- What the program keeps, and the ways in which it may stop. -/
def StopsBy (E : ε → Prop) (I : σ → Prop) (m : EStateM ε σ α) : Prop :=
  ∀ s, I s → Triple m s (fun _ => I) (fun e s' => E e ∧ I s')

namespace StopsBy

variable {E : ε → Prop} {I : σ → Prop}

theorem pure : StopsBy E I (Pure.pure a : EStateM ε σ α) := fun _ h => h

theorem bind {f : α → EStateM ε σ β} (hm : StopsBy E I m) (hf : ∀ a, StopsBy E I (f a)) : StopsBy E I (m >>= f) :=
  fun s hs => (hm s hs).bind fun a s' hs' => hf a s' hs'

theorem get : StopsBy E I (MonadState.get : EStateM ε σ σ) := fun _ h => h

theorem modify {f : σ → σ} (h : ∀ s, I s → I (f s)) : StopsBy E I (modifyThe σ f : EStateM ε σ Unit) := h

theorem throw {e : ε} (he : E e) : StopsBy E I (MonadExcept.throw e : EStateM ε σ α) := fun _ h => ⟨he, h⟩

theorem ite {c : Prop} [Decidable c] {m n : EStateM ε σ α} (hm : StopsBy E I m) (hn : StopsBy E I n) :
    StopsBy E I (if c then m else n) := by
  split
  · exact hm
  · exact hn

end StopsBy

end AiDb.Library
