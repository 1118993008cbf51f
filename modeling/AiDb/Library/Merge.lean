import Mathlib

/-!
# Merging ordered sources

A source hands out its items in ascending rank. Reading past the last item ends
it, or fails. A merge repeatedly takes the least item among the heads; it has to
read on in the source it takes from, and when that fails it stops there without
the item. `Merged.mem_iff` says what such a merge hands out.
-/

namespace AiDb.Library

structure Source (α : Type) where
  items : List α
  fails : Bool

abbrev Sources (α : Type) := Nat → Source α

variable {α κ : Type} [LinearOrder κ] (rank : α → κ)

def Least (S : Sources α) (x : α) : Prop := ∀ j y, (S j).items.head? = some y → rank x ≤ rank y

def Sources.advance (S : Sources α) (i : Nat) (items : List α) : Sources α :=
  Function.update S i ⟨items, (S i).fails⟩

inductive Merged : Sources α → List α → Prop
  | done : (∀ i, (S i).items = []) → Merged S []
  | stop {S i x} : (S i).items = [x] → (S i).fails = true → Least rank S x → Merged S []
  | take {S i x xs out} : (S i).items = x :: xs → (xs = [] → (S i).fails = false) → Least rank S x →
      Merged (S.advance i xs) out → Merged S (x :: out)

/-- Ranks ascend in every source, no rank occurs in two, and a source that will
fail still has an item. -/
structure Sources.Ordered (S : Sources α) : Prop where
  ascending : ∀ i, (S i).items.Pairwise fun x y => rank x < rank y
  apart : x ∈ (S i).items → y ∈ (S j).items → rank x = rank y → i = j
  fails_nonempty : (S i).fails = true → (S i).items ≠ []

/-- `x` comes before the last item of every source that fails. -/
def Sources.InTime (S : Sources α) (x : α) : Prop :=
  ∀ j y, (S j).fails = true → (S j).items.getLast? = some y → rank x < rank y

variable {rank} {S : Sources α}

theorem Sources.advance_self : (S.advance i xs) i = ⟨xs, (S i).fails⟩ := Function.update_self ..

theorem Sources.advance_ne (h : j ≠ i) : (S.advance i xs) j = S j := Function.update_of_ne h ..

@[simp] theorem Sources.advance_fails : ((S.advance i xs) j).fails = (S j).fails := by
  by_cases h : j = i
  · rw [h, advance_self]
  · rw [advance_ne h]

theorem Sources.mem_advance (hi : (S i).items = x :: xs) (hy : y ∈ ((S.advance i xs) j).items) :
    y ∈ (S j).items := by
  by_cases h : j = i
  · subst h
    rw [advance_self] at hy
    rw [hi]
    exact List.mem_cons_of_mem x hy
  · rwa [advance_ne h] at hy

theorem Sources.mem_iff_advance (hi : (S i).items = x :: xs) :
    (∃ j, y ∈ (S j).items) ↔ y = x ∨ ∃ j, y ∈ ((S.advance i xs) j).items := by
  constructor
  · rintro ⟨j, hy⟩
    by_cases h : j = i
    · subst h
      rw [hi] at hy
      refine (List.mem_cons.mp hy).imp_right fun hy => ⟨j, ?_⟩
      rwa [advance_self]
    · exact .inr ⟨j, by rwa [advance_ne h]⟩
  · rintro (rfl | ⟨j, hy⟩)
    · exact ⟨i, by rw [hi]; exact List.mem_cons_self⟩
    · exact ⟨j, mem_advance hi hy⟩

theorem Sources.Ordered.advance (h : S.Ordered rank) (hi : (S i).items = x :: xs)
    (hok : xs = [] → (S i).fails = false) : (S.advance i xs).Ordered rank where
  ascending j := by
    by_cases hj : j = i
    · subst hj
      rw [Sources.advance_self]
      have := h.ascending j
      rw [hi] at this
      exact (List.pairwise_cons.mp this).2
    · rw [Sources.advance_ne hj]
      exact h.ascending j
  apart hx hy := h.apart (Sources.mem_advance hi hx) (Sources.mem_advance hi hy)
  fails_nonempty := by
    intro j hf
    rw [Sources.advance_fails] at hf
    by_cases hj : j = i
    · subst hj
      rw [Sources.advance_self]
      intro hxs
      rw [hok hxs] at hf
      cases hf
    · rw [Sources.advance_ne hj]
      exact h.fails_nonempty hf

theorem Sources.Ordered.least_le (h : S.Ordered rank) (hx : Least rank S x) (hy : y ∈ (S j).items) :
    rank x ≤ rank y := by
  cases hj : (S j).items with
  | nil => rw [hj] at hy; cases hy
  | cons z zs =>
    have hz : rank x ≤ rank z := hx j z (by rw [hj]; rfl)
    have hasc := h.ascending j
    rw [hj] at hy hasc
    rcases List.mem_cons.mp hy with rfl | hy
    · exact hz
    · exact hz.trans (le_of_lt ((List.pairwise_cons.mp hasc).1 y hy))

theorem Sources.Ordered.least_lt (h : S.Ordered rank) (hi : (S i).items = x :: xs)
    (hx : Least rank S x) (hy : y ∈ ((S.advance i xs) j).items) : rank x < rank y := by
  have hxmem : x ∈ (S i).items := by rw [hi]; exact List.mem_cons_self
  have hymem : y ∈ (S j).items := mem_advance hi hy
  refine lt_of_le_of_ne (h.least_le hx hymem) fun heq => ?_
  obtain rfl := h.apart hxmem hymem heq
  rw [advance_self] at hy
  have hasc := h.ascending i
  rw [hi] at hasc
  exact absurd heq (ne_of_lt ((List.pairwise_cons.mp hasc).1 y hy))

theorem Sources.inTime_advance (hi : (S i).items = x :: xs) (hok : xs = [] → (S i).fails = false) :
    (S.advance i xs).InTime rank y ↔ S.InTime rank y := by
  have hlast : ∀ j, (S j).fails = true →
      ((S.advance i xs) j).items.getLast? = (S j).items.getLast? := by
    intro j hf
    by_cases hj : j = i
    · subst hj
      rw [advance_self, hi]
      cases xs with
      | nil => rw [hok rfl] at hf; cases hf
      | cons z zs => rw [List.getLast?_cons_cons]
    · rw [advance_ne hj]
  simp only [InTime, advance_fails]
  constructor
  · intro h j z hf hz
    exact h j z hf (by rw [hlast j hf]; exact hz)
  · intro h j z hf hz
    exact h j z hf (by rw [← hlast j hf]; exact hz)

/-- What a merge hands out: in ascending order, every item that comes before the
last one of each source that fails. -/
theorem Merged.mem_iff (hm : Merged rank S out) (h : S.Ordered rank) :
    (out.Pairwise fun x y => rank x < rank y) ∧
      ∀ x, x ∈ out ↔ (∃ i, x ∈ (S i).items) ∧ S.InTime rank x := by
  induction hm with
  | done hnil =>
    refine ⟨.nil, fun x => ⟨fun hx => (nomatch hx), ?_⟩⟩
    rintro ⟨⟨i, hx⟩, -⟩
    rw [hnil i] at hx
    cases hx
  | @stop S i z hi hf hz =>
    refine ⟨.nil, fun x => ⟨fun hx => (nomatch hx), ?_⟩⟩
    -- everything left is at or after the item that is lost
    rintro ⟨⟨j, hx⟩, htime⟩
    have hlt : rank x < rank z := htime i z hf (by rw [hi]; rfl)
    exact absurd (h.least_le hz hx) (not_le.mpr hlt)
  | @take S i z zs out hi hok hz hm ih =>
    obtain ⟨hsorted, hmem⟩ := ih (h.advance hi hok)
    have hzout : ∀ y ∈ out, rank z < rank y := by
      intro y hy
      obtain ⟨⟨j, hyj⟩, -⟩ := (hmem y).mp hy
      exact h.least_lt hi hz hyj
    refine ⟨List.pairwise_cons.mpr ⟨hzout, hsorted⟩, fun x => ?_⟩
    rw [List.mem_cons, hmem x, Sources.mem_iff_advance hi, Sources.inTime_advance hi hok]
    have hztime : S.InTime rank z := by
      rw [← Sources.inTime_advance hi hok]
      intro j y _ hy
      exact h.least_lt hi hz (List.mem_of_getLast? hy)
    constructor
    · rintro (rfl | ⟨hx, htime⟩)
      · exact ⟨.inl rfl, hztime⟩
      · exact ⟨.inr hx, htime⟩
    · rintro ⟨rfl | hx, htime⟩
      · exact .inl rfl
      · exact .inr ⟨hx, htime⟩

end AiDb.Library
