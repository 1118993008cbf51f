import Mathlib

/-!
# Numerals of a fixed width

Numerals of one width compare, symbol by symbol, as their numbers do. A shorter one is
compared with the leading part of a longer one.
-/

namespace AiDb.Library

variable {A : Type}

/-- The last `width` digits of the number, the most significant first. -/
def numeral (digit : Nat → A) (base : Nat) : (width : Nat) → Nat → List A
  | 0, _ => []
  | width + 1, n => numeral digit base width (n / base) ++ [digit (n % base)]

variable {digit : Nat → A} {base width : Nat}

@[simp] theorem length_numeral : (numeral digit base width n).length = width := by
  induction width generalizing n with
  | zero => rfl
  | succ width ih => simp [numeral, ih]

theorem numeral_add (lead width n : Nat) :
    numeral digit base (lead + width) n =
      numeral digit base lead (n / base ^ width) ++ numeral digit base width n := by
  induction width generalizing n with
  | zero => simp [numeral]
  | succ width ih =>
    show numeral digit base (lead + width) (n / base) ++ _ = _
    rw [ih, Nat.div_div_eq_div_mul, ← Nat.pow_succ', List.append_assoc]
    rfl

theorem numeral_zero (digit : Nat → A) (base width : Nat) :
    numeral digit base width 0 = List.replicate width (digit 0) := by
  induction width with
  | zero => rfl
  | succ width ih => simp [numeral, ih, List.replicate_succ']

variable [LinearOrder A]

theorem append_lt_append {xs ys : List A} (h : xs < ys) (hlen : xs.length = ys.length) (us vs : List A) :
    xs ++ us < ys ++ vs := by
  induction xs generalizing ys with
  | nil =>
    obtain rfl := List.eq_nil_of_length_eq_zero hlen.symm
    exact absurd h (lt_irrefl _)
  | cons x xs ih =>
    cases ys with
    | nil => cases hlen
    | cons y ys =>
      simp only [List.cons_append, List.cons_lt_cons_iff] at h ⊢
      rcases h with h | ⟨rfl, h⟩
      · exact .inl h
      · exact .inr ⟨rfl, ih h (Nat.succ.inj hlen)⟩

def OrderedDigits (digit : Nat → A) (base : Nat) : Prop := ∀ x y, x < y → y < base → digit x < digit y

theorem numeral_lt (hdigit : OrderedDigits digit base) (hn : n < base ^ width) (h : m < n) :
    numeral digit base width m < numeral digit base width n := by
  induction width generalizing m n with
  | zero =>
    simp at hn
    omega
  | succ width ih =>
    have hbase : 0 < base := by
      rcases Nat.eq_zero_or_pos base with rfl | hpos
      · simp at hn
      · exact hpos
    have hlead : n / base < base ^ width := Nat.div_lt_of_lt_mul (by rwa [← Nat.pow_succ'])
    rcases (Nat.div_le_div_right (c := base) h.le).lt_or_eq with hlt | heq
    · exact append_lt_append (ih hlead hlt) (by simp) _ _
    · have hlast : m % base < n % base := by
        have hm := Nat.div_add_mod m base
        have hn := Nat.div_add_mod n base
        rw [heq] at hm
        omega
      simp only [numeral, heq]
      exact List.append_left_lt (List.cons_lt_cons_iff.mpr (.inl (hdigit _ _ hlast (Nat.mod_lt _ hbase))))

/-- With a mark after it that is below every digit, a numeral comes before a longer one
just if its number is at most what the longer one begins with. -/
theorem numeral_lt_iff {mark : A} {tail : List A} (hdigit : OrderedDigits digit base)
    (hmark : ∀ x < base, mark < digit x) (hm : m < base ^ width) (hn : n < base ^ (width + extra)) (hlt : m < n) :
    numeral digit base width m ++ mark :: tail < numeral digit base (width + extra) n ++ mark :: tail ↔
      m ≤ n / base ^ extra := by
  have hbase : 0 < base ^ extra := by
    refine Nat.pos_of_ne_zero fun hzero => ?_
    rw [pow_add, hzero] at hn
    omega
  have hlead : n / base ^ extra < base ^ width :=
    Nat.div_lt_of_lt_mul (by rwa [← pow_add, Nat.add_comm extra])
  rw [numeral_add, List.append_assoc]
  rcases lt_trichotomy m (n / base ^ extra) with h | h | h
  · exact iff_of_true (append_lt_append (numeral_lt hdigit hlead h) (by simp) _ _) h.le
  · refine iff_of_true ?_ h.le
    cases extra with
    | zero =>
      simp at h
      omega
    | succ extra =>
      have hpos : 0 < base := Nat.pos_of_ne_zero fun hzero => by simp [hzero] at hbase
      rw [h, Nat.add_comm extra, numeral_add]
      refine List.append_left_lt ?_
      exact List.cons_lt_cons_iff.mpr (.inl (hmark _ (Nat.mod_lt _ hpos)))
  · exact iff_of_false (append_lt_append (numeral_lt hdigit hm h) (by simp) _ _).not_gt (by omega)

end AiDb.Library
