import Mathlib

/-!
# Ranked containers

Containers with ranks, each with versions of some keys, such that of every key a
container of a higher rank has no older version. Asked from the highest rank on, the
first that has the key has its latest version. A container on top, made of what is
latest, keeps the order, and so does taking containers away.
-/

namespace AiDb.Library

variable {ι κ ν : Type} [LinearOrder ν] {holds holds' : ι → κ → ν → Prop}

def Reaches (holds : ι → κ → ν → Prop) (k : κ) (v : ν) : Prop := ∃ n w, holds n k w ∧ v ≤ w

theorem Reaches.mono (h : Reaches holds k v) (hstep : ∀ n w, holds n k w → Reaches holds' k w) : Reaches holds' k v := by
  obtain ⟨n, w, hw, hle⟩ := h
  obtain ⟨m, x, hx, hle'⟩ := hstep n w hw
  exact ⟨m, x, hx, hle.trans hle'⟩

variable [LinearOrder ι]

/-- `holds n k v` when the container `n` has the version `v` of the key `k`. -/
def Ranked (holds : ι → κ → ν → Prop) : Prop := ∀ ⦃n m k v w⦄, holds n k v → holds m k w → n < m → v ≤ w

namespace Ranked

theorem subset (h : Ranked holds) (hsub : ∀ n k v, holds' n k v → holds n k v) : Ranked holds' :=
  fun _ _ _ _ _ hv hw hlt => h (hsub _ _ _ hv) (hsub _ _ _ hw) hlt

theorem add {new : κ → ν → Prop} (h : Ranked holds) (hsub : ∀ n k v, holds' n k v → holds n k v ∨ n = top ∧ new k v)
    (htop : ∀ n k v, holds n k v → n < top) (hlatest : ∀ n k v w, holds n k v → new k w → v ≤ w) : Ranked holds' := by
  intro n m k v w hv hw hlt
  rcases hsub n k v hv with hv | ⟨rfl, -⟩
  · rcases hsub m k w hw with hw | ⟨rfl, hw⟩
    · exact h hv hw hlt
    · exact hlatest n k v w hv hw
  · rcases hsub m k w hw with hw | ⟨rfl, -⟩
    · exact absurd hlt (htop m k w hw).not_gt
    · exact absurd hlt (lt_irrefl _)

/-- Containers asked from the highest rank on: what the first of them has is the latest. -/
theorem first_latest {α β : Type} {rank : α → ι} (time : β → ν) {ask : α → Option β} {as : List α} {b : β} (h : Ranked holds)
    (hdesc : as.Pairwise fun x y => rank y < rank x)
    (hask : ∀ a ∈ as, ∀ b, ask a = some b → holds (rank a) k (time b)) (hfirst : as.findSome? ask = some b) :
    ∀ a ∈ as, ∀ b', ask a = some b' → time b' ≤ time b := by
  obtain ⟨before, a, after, rfl, hb, hnone⟩ := List.findSome?_eq_some_iff.mp hfirst
  intro a' ha' b' hb'
  rcases List.mem_append.mp ha' with hbefore | hrest
  · rw [hnone a' hbefore] at hb'
    cases hb'
  · rcases List.mem_cons.mp hrest with rfl | hafter
    · rw [hb] at hb'
      cases hb'
      exact le_refl _
    · have hlt := (List.pairwise_cons.mp (List.pairwise_append.mp hdesc).2.1).1 a' hafter
      exact h (hask a' ha' b' hb') (hask a (by simp) b hb) hlt

end Ranked

end AiDb.Library
