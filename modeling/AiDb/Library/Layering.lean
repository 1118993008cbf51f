import Mathlib

/-!
# Layers

A store kept in layers, each a list of items, with every item of a layer related to
every item of the layers below it. Such an order survives when a layer shrinks, when
two neighbours are joined, and when an empty layer comes in.
-/

namespace AiDb.Library

variable {α : Type} {r : α → α → Prop}

def Above (r : α → α → Prop) (as bs : List α) : Prop := ∀ a ∈ as, ∀ b ∈ bs, r a b

def Layered (r : α → α → Prop) (layers : List (List α)) : Prop := layers.Pairwise (Above r)

theorem Above.mono (h : Above r as bs) (ha : as' ⊆ as) (hb : bs' ⊆ bs) : Above r as' bs' :=
  fun a hm b hm' => h a (ha hm) b (hb hm')

theorem layered_append : Layered r (upper ++ lower) ↔
    Layered r upper ∧ Layered r lower ∧ ∀ as ∈ upper, ∀ bs ∈ lower, Above r as bs := List.pairwise_append

theorem layered_cons : Layered r (as :: lower) ↔ (∀ bs ∈ lower, Above r as bs) ∧ Layered r lower :=
  List.pairwise_cons

namespace Layered

theorem shrink {as as' : List α} (h : Layered r (upper ++ as :: lower)) (hsub : as' ⊆ as) : Layered r (upper ++ as' :: lower) := by
  simp only [layered_append, layered_cons, List.mem_cons, forall_eq_or_imp] at h ⊢
  obtain ⟨hupper, ⟨has, hlower⟩, hbetween⟩ := h
  refine ⟨hupper, ⟨fun bs hbs => (has bs hbs).mono hsub (List.Subset.refl bs), hlower⟩, fun us hus => ?_⟩
  exact ⟨(hbetween us hus).1.mono (List.Subset.refl us) hsub, (hbetween us hus).2⟩

theorem insert_nil (h : Layered r (upper ++ lower)) : Layered r (upper ++ [] :: lower) := by
  simp only [layered_append, layered_cons, List.mem_cons, forall_eq_or_imp] at h ⊢
  obtain ⟨hupper, hlower, hbetween⟩ := h
  exact ⟨hupper, ⟨by simp [Above], hlower⟩, fun us hus => ⟨by simp [Above], hbetween us hus⟩⟩

theorem join (h : Layered r (upper ++ as :: bs :: lower)) : Layered r (upper ++ (as ++ bs) :: lower) := by
  simp only [layered_append, layered_cons, List.mem_cons, forall_eq_or_imp] at h ⊢
  obtain ⟨hupper, ⟨⟨-, has⟩, hbs, hlower⟩, hbetween⟩ := h
  have hunion : ∀ cs, Above r as cs → Above r bs cs → Above r (as ++ bs) cs := by
    intro cs ha hb x hx
    rcases List.mem_append.mp hx with hx | hx
    · exact ha x hx
    · exact hb x hx
  refine ⟨hupper, ⟨fun cs hcs => hunion cs (has cs hcs) (hbs cs hcs), hlower⟩, fun us hus => ?_⟩
  obtain ⟨hus_as, hus_bs, hrest⟩ := hbetween us hus
  refine ⟨fun u hu x hx => ?_, hrest⟩
  rcases List.mem_append.mp hx with hx | hx
  · exact hus_as u hu x hx
  · exact hus_bs u hu x hx

theorem sublist (h : Layered r layers) (hsub : layers'.Sublist layers) : Layered r layers' :=
  List.Pairwise.sublist hsub h

end Layered

end AiDb.Library
