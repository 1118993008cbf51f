import Mathlib

/-!
# Ordered maps

A map as the list of its entries in key order. Inserting under a key that is
present replaces the entry. The order of the entries is a field, so every map
that can be built is ordered.
-/

namespace AiDb.Library

structure SkipMap (K V : Type) [LinearOrder K] where
  entries : List (K × V)
  ordered : entries.Pairwise fun a b => a.1 < b.1

namespace SkipMap

variable {K V : Type} [LinearOrder K]

def empty : SkipMap K V := ⟨[], .nil⟩

def insertEntry (k : K) (v : V) : List (K × V) → List (K × V)
  | [] => [(k, v)]
  | e :: es =>
    if k < e.1 then (k, v) :: e :: es
    else if k = e.1 then (k, v) :: es
    else e :: insertEntry k v es

theorem mem_insertEntry_key {es : List (K × V)} (h : e ∈ insertEntry k v es) :
    e = (k, v) ∨ e ∈ es := by
  induction es with
  | nil => simpa [insertEntry] using h
  | cons x xs ih =>
    simp only [insertEntry] at h
    split_ifs at h
    · exact (List.mem_cons.mp h).imp_right id
    · exact (List.mem_cons.mp h).imp_right (List.mem_cons_of_mem x)
    · rcases List.mem_cons.mp h with rfl | h
      · exact .inr List.mem_cons_self
      · exact (ih h).imp_right (List.mem_cons_of_mem x)

theorem insertEntry_ordered {es : List (K × V)} (h : es.Pairwise fun a b => a.1 < b.1) :
    (insertEntry k v es).Pairwise fun a b => a.1 < b.1 := by
  induction es with
  | nil => simp [insertEntry]
  | cons x xs ih =>
    obtain ⟨hx, hxs⟩ := List.pairwise_cons.mp h
    simp only [insertEntry]
    split_ifs with hlt heq
    · refine List.pairwise_cons.mpr ⟨?_, h⟩
      rintro y (_ | ⟨_, hy⟩)
      · exact hlt
      · exact hlt.trans (hx y hy)
    · exact List.pairwise_cons.mpr ⟨fun y hy => heq ▸ hx y hy, hxs⟩
    · refine List.pairwise_cons.mpr ⟨?_, ih hxs⟩
      intro y hy
      rcases mem_insertEntry_key hy with rfl | hy
      · exact lt_of_le_of_ne (not_lt.mp hlt) (Ne.symm heq)
      · exact hx y hy

def insert (m : SkipMap K V) (k : K) (v : V) : SkipMap K V :=
  ⟨insertEntry k v m.entries, insertEntry_ordered m.ordered⟩

/-- The entries from `lo` up to, not including, `hi`. -/
def range (m : SkipMap K V) (lo hi : K) : List (K × V) :=
  m.entries.filter fun e => lo ≤ e.1 ∧ e.1 < hi

theorem mem_insertEntry {es : List (K × V)} (h : es.Pairwise fun a b => a.1 < b.1) :
    e ∈ insertEntry k v es ↔ e = (k, v) ∨ (e ∈ es ∧ e.1 ≠ k) := by
  induction es with
  | nil => simp [insertEntry]
  | cons x xs ih =>
    obtain ⟨hx, hxs⟩ := List.pairwise_cons.mp h
    simp only [insertEntry]
    split_ifs with hlt heq
    · have : ∀ y ∈ x :: xs, y.1 ≠ k := by
        rintro y (_ | ⟨_, hy⟩)
        · exact ne_of_gt hlt
        · exact ne_of_gt (hlt.trans (hx y hy))
      rw [List.mem_cons]
      exact or_congr_right ⟨fun hm => ⟨hm, this e hm⟩, And.left⟩
    · have : ∀ y ∈ xs, y.1 ≠ k := fun y hy => heq ▸ ne_of_gt (hx y hy)
      rw [List.mem_cons]
      refine or_congr_right ⟨fun hm => ⟨List.mem_cons_of_mem x hm, this e hm⟩, ?_⟩
      rintro ⟨hm, hne⟩
      rcases List.mem_cons.mp hm with rfl | hm
      · exact absurd heq.symm hne
      · exact hm
    · rw [List.mem_cons, List.mem_cons, ih hxs]
      constructor
      · rintro (rfl | rfl | ⟨hm, hne⟩)
        · exact .inr ⟨.inl rfl, Ne.symm heq⟩
        · exact .inl rfl
        · exact .inr ⟨.inr hm, hne⟩
      · rintro (rfl | ⟨rfl | hm, hne⟩)
        · exact .inr (.inl rfl)
        · exact .inl rfl
        · exact .inr (.inr ⟨hm, hne⟩)

@[simp] theorem entries_empty : (empty : SkipMap K V).entries = [] := rfl

theorem mem_insert (m : SkipMap K V) : e ∈ (m.insert k v).entries ↔
    e = (k, v) ∨ (e ∈ m.entries ∧ e.1 ≠ k) :=
  mem_insertEntry m.ordered

theorem insertEntry_perm {es : List (K × V)} (h : ∀ e ∈ es, e.1 ≠ k) : (insertEntry k v es).Perm ((k, v) :: es) := by
  induction es with
  | nil => exact .refl _
  | cons x xs ih =>
    simp only [List.mem_cons, forall_eq_or_imp] at h
    simp only [insertEntry]
    split_ifs with hlt heq
    · exact .refl _
    · exact absurd heq.symm h.1
    · exact ((ih h.2).cons x).trans (.swap _ _ _)

theorem insert_perm (m : SkipMap K V) (h : ∀ e ∈ m.entries, e.1 ≠ k) :
    (m.insert k v).entries.Perm ((k, v) :: m.entries) :=
  insertEntry_perm h

end SkipMap

end AiDb.Library
