import Mathlib

/-!
# Tickets

Items get a ticket as they arrive and wait in a queue. Workers take them from the
front, so in the order of their tickets, and put them on a stack when they are done.
If every item that is put down is the oldest in hand, the stack has the newest on
top.
-/

namespace AiDb.Library

/-- How many tickets were given out, and where the items that have one are. -/
structure Tickets where
  given : Nat
  waiting : List Nat
  hands : Multiset Nat
  stack : List Nat

namespace Tickets

/-- An item may also be dropped, from the queue or from a hand. -/
inductive Step (p : Tickets) : Tickets → Prop
  | idle : Step p p
  | arrive : Step p { p with given := p.given + 1, waiting := p.waiting ++ [p.given] }
  | take : p.waiting = t :: ts → Step p { p with waiting := ts, hands := t ::ₘ p.hands }
  | discard : p.waiting = t :: ts → Step p { p with waiting := ts }
  | drop : p.hands = t ::ₘ rest → Step p { p with hands := rest }
  | put : p.hands = t ::ₘ rest → (∀ other ∈ p.hands, t ≤ other) →
      Step p { p with hands := rest, stack := t :: p.stack }

/-- The stack is older than what is in hand, which is older than what waits. -/
structure Ordered (p : Tickets) : Prop where
  stack : p.stack.Pairwise (· > ·)
  hands : p.hands.Nodup
  waiting : p.waiting.Pairwise (· < ·)
  stack_hands : ∀ t ∈ p.stack, ∀ t' ∈ p.hands, t < t'
  stack_waiting : ∀ t ∈ p.stack, ∀ t' ∈ p.waiting, t < t'
  hands_waiting : ∀ t ∈ p.hands, ∀ t' ∈ p.waiting, t < t'
  stack_given : ∀ t ∈ p.stack, t < p.given
  hands_given : ∀ t ∈ p.hands, t < p.given
  waiting_given : ∀ t ∈ p.waiting, t < p.given

theorem ordered_nil : Ordered ⟨n, [], 0, []⟩ := by constructor <;> simp

variable {p q : Tickets}

theorem Step.ordered (h : Step p q) (hp : p.Ordered) : q.Ordered := by
  cases h with
  | idle => exact hp
  | arrive =>
    have hnew : ∀ t, (∀ t' ∈ p.waiting, t < t') → t < p.given → ∀ t' ∈ p.waiting ++ [p.given], t < t' := by
      intro t hold hlast t' ht'
      rcases List.mem_append.mp ht' with ht' | ht'
      · exact hold t' ht'
      · rwa [List.mem_singleton.mp ht']
    refine ⟨hp.stack, hp.hands, ?_, hp.stack_hands, fun t ht => hnew t (hp.stack_waiting t ht) (hp.stack_given t ht),
      fun t ht => hnew t (hp.hands_waiting t ht) (hp.hands_given t ht), fun t ht => Nat.lt_succ_of_lt (hp.stack_given t ht),
      fun t ht => Nat.lt_succ_of_lt (hp.hands_given t ht), fun t ht => ?_⟩
    · refine List.pairwise_append.mpr ⟨hp.waiting, List.pairwise_singleton _ _, fun t ht t' ht' => ?_⟩
      rw [List.mem_singleton.mp ht']
      exact hp.waiting_given t ht
    · rcases List.mem_append.mp ht with ht | ht
      · exact Nat.lt_succ_of_lt (hp.waiting_given t ht)
      · rw [List.mem_singleton.mp ht]
        exact Nat.lt_succ_self _
  | @take t ts hw =>
    have hp1 := hp.stack_waiting
    have hp2 := hp.hands_waiting
    have hp3 := hp.waiting_given
    have hp4 := hp.waiting
    rw [hw] at hp1 hp2 hp3 hp4
    rw [List.pairwise_cons] at hp4
    simp only [List.mem_cons, forall_eq_or_imp] at hp1 hp2 hp3
    refine ⟨hp.stack, Multiset.nodup_cons.mpr ⟨fun ht => absurd (hp2 t ht).1 (lt_irrefl t), hp.hands⟩, hp4.2, ?_,
      fun x hx => (hp1 x hx).2, ?_, hp.stack_given, ?_, hp3.2⟩
    all_goals simp only [Multiset.mem_cons, forall_eq_or_imp]
    · exact fun x hx => ⟨(hp1 x hx).1, hp.stack_hands x hx⟩
    · exact ⟨hp4.1, fun x hx => (hp2 x hx).2⟩
    · exact ⟨hp3.1, hp.hands_given⟩
  | discard hw =>
    have hsub : ∀ t, t ∈ _ → t ∈ p.waiting := fun t ht => by rw [hw]; exact List.mem_cons_of_mem _ ht
    exact ⟨hp.stack, hp.hands, (List.pairwise_cons.mp (hw ▸ hp.waiting)).2, hp.stack_hands,
      fun t ht t' ht' => hp.stack_waiting t ht t' (hsub t' ht'),
      fun t ht t' ht' => hp.hands_waiting t ht t' (hsub t' ht'), hp.stack_given, hp.hands_given,
      fun t ht => hp.waiting_given t (hsub t ht)⟩
  | drop hh =>
    have hsub : ∀ t, t ∈ _ → t ∈ p.hands := fun t ht => by rw [hh]; exact Multiset.mem_cons_of_mem ht
    exact ⟨hp.stack, (Multiset.nodup_cons.mp (hh ▸ hp.hands)).2, hp.waiting,
      fun t ht t' ht' => hp.stack_hands t ht t' (hsub t' ht'), hp.stack_waiting,
      fun t ht => hp.hands_waiting t (hsub t ht), hp.stack_given, fun t ht => hp.hands_given t (hsub t ht),
      hp.waiting_given⟩
  | @put t rest hh holdest =>
    have ht : t ∈ p.hands := by rw [hh]; exact Multiset.mem_cons_self t rest
    have hsub : ∀ t', t' ∈ rest → t' ∈ p.hands := fun t' ht' => by rw [hh]; exact Multiset.mem_cons_of_mem ht'
    have hnodup := Multiset.nodup_cons.mp (hh ▸ hp.hands)
    refine ⟨List.pairwise_cons.mpr ⟨fun x hx => hp.stack_hands x hx t ht, hp.stack⟩, hnodup.2, hp.waiting, ?_, ?_,
      fun x hx => hp.hands_waiting x (hsub x hx), ?_, fun x hx => hp.hands_given x (hsub x hx), hp.waiting_given⟩
    all_goals simp only [List.mem_cons, forall_eq_or_imp]
    · refine ⟨fun x hx => lt_of_le_of_ne (holdest x (hsub x hx)) ?_, fun x hx y hy => hp.stack_hands x hx y (hsub y hy)⟩
      rintro rfl
      exact hnodup.1 hx
    · exact ⟨hp.hands_waiting t ht, hp.stack_waiting⟩
    · exact ⟨hp.hands_given t ht, hp.stack_given⟩

end Tickets

end AiDb.Library
