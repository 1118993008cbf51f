import Mathlib

/-!
# Cursors over a sorted list

A cursor moves over keys in ascending order, some of which have an answer. What
it is to show are the answers from its position on; the place of a target in the
list splits them into those below the target and those from it on.
-/

namespace AiDb.Library

variable {K V : Type} {ask : K → Option V} {keys : List K}

def answers (ask : K → Option V) (keys : List K) : List (K × V) := keys.filterMap fun k => (ask k).map (k, ·)

@[simp] theorem answers_nil : answers ask [] = [] := rfl

theorem answers_cons_none (h : ask k = none) : answers ask (k :: ks) = answers ask ks := by
  simp [answers, h]

theorem answers_cons_some (h : ask k = some v) : answers ask (k :: ks) = (k, v) :: answers ask ks := by
  simp [answers, h]

theorem mem_answers : e ∈ answers ask keys ↔ e.1 ∈ keys ∧ ask e.1 = some e.2 := by
  obtain ⟨k, v⟩ := e
  simp only [answers, List.mem_filterMap, Option.map_eq_some_iff, Prod.mk.injEq]
  constructor
  · rintro ⟨k', hk, v', hv, rfl, rfl⟩
    exact ⟨hk, hv⟩
  · rintro ⟨hk, hv⟩
    exact ⟨k, hk, v, hv, rfl, rfl⟩

variable [LinearOrder K]

theorem answers_ascending (h : keys.Pairwise (· < ·)) : (answers ask keys).Pairwise fun a b => a.1 < b.1 := by
  refine List.Pairwise.filterMap _ (fun k k' hlt => ?_) h
  simp only [Option.map_eq_some_iff]
  rintro _ ⟨v, -, rfl⟩ _ ⟨v', -, rfl⟩
  exact hlt

theorem drop_countP_lt {t : K} {lt : DecidablePred (· < t)} {le : DecidablePred (t ≤ ·)} (h : keys.Pairwise (· < ·)) :
    keys.drop (keys.countP (· < t)) = keys.filter (t ≤ ·) := by
  induction keys with
  | nil => rfl
  | cons k ks ih =>
    obtain ⟨hk, hks⟩ := List.pairwise_cons.mp h
    by_cases hlt : k < t
    · rw [List.countP_cons_of_pos (by simpa using hlt), List.drop_succ_cons, ih hks,
        List.filter_cons_of_neg (by simpa using hlt)]
    · have hle : ∀ x ∈ k :: ks, t ≤ x := by
        intro x hx
        rcases List.mem_cons.mp hx with rfl | hx
        · exact not_lt.mp hlt
        · exact (not_lt.mp hlt).trans (le_of_lt (hk x hx))
      have hzero : (k :: ks).countP (· < t) = 0 := by simpa [List.countP_eq_zero] using hle
      rw [hzero, List.drop_zero, List.filter_eq_self.mpr (by simpa using hle)]

theorem countP_lt_of_getElem? {t : K} {lt : DecidablePred (· < t)} {i : Nat} (h : keys.Pairwise (· < ·))
    (ht : keys[i]? = some t) : keys.countP (· < t) = i := by
  induction keys generalizing i with
  | nil => simp at ht
  | cons k ks ih =>
    obtain ⟨hk, hks⟩ := List.pairwise_cons.mp h
    cases i with
    | zero =>
      obtain rfl : k = t := by simpa using ht
      rw [List.countP_eq_zero]
      intro x hx
      rcases List.mem_cons.mp hx with rfl | hx
      · simp
      · simpa using le_of_lt (hk x hx)
    | succ i =>
      have ht : ks[i]? = some t := by simpa using ht
      rw [List.countP_cons_of_pos (by simpa using hk t (List.mem_of_getElem? ht)), ih hks ht]

/-- No entry with `P` has a smaller key, or there is none at all. -/
def IsLeastEntry (P : K × V → Prop) : Option (K × V) → Prop
  | some e => P e ∧ ∀ x, P x → e.1 ≤ x.1
  | none => ∀ x, ¬P x

def IsGreatestEntry (P : K × V → Prop) : Option (K × V) → Prop
  | some e => P e ∧ ∀ x, P x → x.1 ≤ e.1
  | none => ∀ x, ¬P x

theorem isLeastEntry_head {es : List (K × V)} (h : es.Pairwise fun a b => a.1 < b.1) (hP : ∀ e, e ∈ es ↔ P e) :
    IsLeastEntry P es.head? := by
  cases es with
  | nil => exact fun x hx => by simpa using (hP x).mpr hx
  | cons e es =>
    refine ⟨(hP e).mp List.mem_cons_self, fun x hx => ?_⟩
    rcases List.mem_cons.mp ((hP x).mpr hx) with rfl | hmem
    · exact le_refl _
    · exact le_of_lt ((List.pairwise_cons.mp h).1 x hmem)

end AiDb.Library
