import Mathlib

/-!
# Sequences of groups

The groups are the words of a prefix code, each with what it stands for. A list that begins
with a sequence of groups has one longest such beginning, and it can be read one
group after another.
-/

namespace AiDb.Library

variable {A B : Type}

/-- A sequence of groups, and what they stand for. -/
inductive Groups (G : List A → B → Prop) : List A → List B → Prop
  | nil : Groups G [] []
  | cons : G g b → Groups G xs bs → Groups G (g ++ xs) (b :: bs)

structure LongestGroups (G : List A → B → Prop) (xs lead : List A) (bs : List B) : Prop where
  groups : Groups G lead bs
  isPrefix : lead <+: xs
  longest : ∀ lead' bs', Groups G lead' bs' → lead' <+: xs → lead'.length ≤ lead.length

/-- No group is empty, and none is the beginning of another one. -/
structure PrefixCode (G : List A → B → Prop) : Prop where
  nonempty : ∀ g b, G g b → g ≠ []
  unique : ∀ g g' b b' xs xs', G g b → G g' b' → g ++ xs = g' ++ xs' → g = g' ∧ b = b'

variable {G : List A → B → Prop}

theorem LongestGroups.nil (h : ∀ g b, G g b → ¬g <+: xs) : LongestGroups G xs [] [] where
  groups := .nil
  isPrefix := List.nil_prefix
  longest lead' bs' hg hp := by
    cases hg with
    | nil => exact le_refl _
    | cons hg _ => exact absurd ((List.prefix_append _ _).trans hp) (h _ _ hg)

theorem LongestGroups.cons (hG : PrefixCode G) (hg : G g b) (h : LongestGroups G xs lead bs) :
    LongestGroups G (g ++ xs) (g ++ lead) (b :: bs) where
  groups := .cons hg h.groups
  isPrefix := (List.prefix_append_right_inj g).mpr h.isPrefix
  longest lead' bs' hg' hp := by
    cases hg' with
    | nil => simp
    | cons hfirst hrest =>
      obtain ⟨ys, hys⟩ := hp
      rw [List.append_assoc] at hys
      obtain ⟨rfl, -⟩ := hG.unique _ _ _ _ _ _ hfirst hg hys
      have hle := h.longest _ _ hrest ⟨ys, List.append_cancel_left hys⟩
      simpa using hle

theorem Groups.eq_nil_iff (hG : PrefixCode G) (h : Groups G xs bs) : xs = [] ↔ bs = [] := by
  cases h with
  | nil => simp
  | cons hg _ => simp [hG.nonempty _ _ hg]

theorem Groups.unique (hG : PrefixCode G) (h : Groups G xs bs) (h' : Groups G xs bs') : bs = bs' := by
  induction h generalizing bs' with
  | nil => exact ((h'.eq_nil_iff hG).mp rfl).symm
  | @cons g b xs bs hg _ ih =>
    obtain ⟨ys, hys⟩ : ∃ ys, ys = g ++ xs := ⟨_, rfl⟩
    rw [← hys] at h'
    cases h' with
    | nil => exact absurd (List.append_eq_nil_iff.mp hys.symm).1 (hG.nonempty _ _ hg)
    | cons hg' hrest' =>
      obtain ⟨rfl, rfl⟩ := hG.unique _ _ _ _ _ _ hg hg' hys.symm
      rw [List.append_cancel_left hys] at hrest'
      rw [ih hrest']

theorem LongestGroups.unique (hG : PrefixCode G) (h : LongestGroups G xs lead bs) (h' : LongestGroups G xs lead' bs') :
    lead = lead' ∧ bs = bs' := by
  have hpart := List.prefix_of_prefix_length_le h.isPrefix h'.isPrefix (h'.longest _ _ h.groups h.isPrefix)
  obtain rfl := hpart.eq_of_length_le (h.longest _ _ h'.groups h'.isPrefix)
  exact ⟨rfl, h.groups.unique hG h'.groups⟩

/-- Reading one group after another, until no group comes next, gives what the longest
sequence of groups stands for. -/
theorem longestGroups_of_reads (hG : PrefixCode G) {R : List A → List B → Prop} (xs : List A)
    (hstop : ∀ ys, (∀ g b, G g b → ¬g <+: ys) → R ys [])
    (hnext : ∀ g b ys bs, G g b → R ys bs → R (g ++ ys) (b :: bs)) :
    ∃ lead bs, LongestGroups G xs lead bs ∧ R xs bs := by
  induction hn : xs.length using Nat.strong_induction_on generalizing xs with
  | _ n ih =>
    by_cases hgroup : ∃ g b, G g b ∧ g <+: xs
    · obtain ⟨g, b, hg, ys, rfl⟩ := hgroup
      have hpos : 0 < g.length := List.length_pos_iff.mpr (hG.nonempty g b hg)
      obtain ⟨lead, bs, hlongest, hreads⟩ := ih ys.length (by simp at hn; omega) ys rfl
      exact ⟨g ++ lead, b :: bs, .cons hG hg hlongest, hnext g b ys bs hg hreads⟩
    · have hno : ∀ g b, G g b → ¬g <+: xs := fun g b hg hp => hgroup ⟨g, b, hg, hp⟩
      exact ⟨[], [], .nil hno, hstop xs hno⟩

end AiDb.Library
