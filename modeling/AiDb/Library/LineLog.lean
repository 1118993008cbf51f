import Mathlib

/-!
# Logs of lines

A log has one line for each record: its text and a separator. Of a log that was cut
somewhere, a reader of lines sees the records whose text is whole, and then what is left
of the text that was cut.
-/

namespace AiDb.Library

variable {A R : Type}

def encodeLines (sep : A) (text : R → List A) (rs : List R) : List A := rs.flatMap fun r => text r ++ [sep]

/-- The records whose text lies in the first `n` symbols of the log. -/
def wholeIn (text : R → List A) : List R → Nat → List R
  | [], _ => []
  | r :: rs, n => if (text r).length ≤ n then r :: wholeIn text rs (n - ((text r).length + 1)) else []

/-- What there is, in the first `n` symbols, of the first text that is not whole. -/
def tornIn (text : R → List A) : List R → Nat → List A
  | [], _ => []
  | r :: rs, n => if (text r).length ≤ n then tornIn text rs (n - ((text r).length + 1)) else (text r).take n

variable {sep : A} {strip : List A → List A} {text : R → List A}

theorem encodeLines_cons (r : R) (rs : List R) :
    encodeLines sep text (r :: rs) = text r ++ sep :: encodeLines sep text rs := by simp [encodeLines]

theorem wholeIn_zero (h : ∀ r ∈ rs, text r ≠ []) : wholeIn text rs 0 = [] := by
  cases rs with
  | nil => rfl
  | cons r rs => simp [wholeIn, h]

theorem tornIn_zero (h : ∀ r ∈ rs, text r ≠ []) : tornIn text rs 0 = [] := by
  cases rs with
  | nil => rfl
  | cons r rs => simp [tornIn, h]

theorem tornIn_prefix {rs : List R} {n : Nat} (h : tornIn text rs n ≠ []) :
    ∃ r ∈ rs, tornIn text rs n <+: text r ∧ tornIn text rs n ≠ text r := by
  induction rs generalizing n with
  | nil => exact absurd rfl h
  | cons r rs ih =>
    unfold tornIn at h ⊢
    split_ifs at h ⊢ with hwhole
    · obtain ⟨r', hr', hpart⟩ := ih h
      exact ⟨r', List.mem_cons_of_mem _ hr', hpart⟩
    · refine ⟨r, by simp, List.take_prefix _ _, fun heq => hwhole ?_⟩
      have hlen := congrArg List.length heq
      rw [List.length_take] at hlen
      omega

theorem wholeIn_subset (text : R → List A) (rs : List R) (n : Nat) : wholeIn text rs n ⊆ rs := by
  induction rs generalizing n with
  | nil => simp [wholeIn]
  | cons r rs ih =>
    unfold wholeIn
    split
    · exact List.cons_subset_cons r (ih _)
    · simp

-- ---------------------------------------------------------------------------
-- Reading
-- ---------------------------------------------------------------------------

variable [DecidableEq A]

/-- The lines of a file; `strip` is what happens to a line that a separator ends. The
last line need not have one. -/
def linesFrom (sep : A) (strip : List A → List A) : (line : List A) → List A → List (List A)
  | line, [] => if line = [] then [] else [line]
  | line, a :: rest =>
    if a = sep then strip line :: linesFrom sep strip [] rest else linesFrom sep strip (line ++ [a]) rest

def lines (sep : A) (strip : List A → List A) (file : List A) : List (List A) := linesFrom sep strip [] file

theorem linesFrom_append {part : List A} (h : sep ∉ part) (line rest : List A) :
    linesFrom sep strip line (part ++ rest) = linesFrom sep strip (line ++ part) rest := by
  induction part generalizing line with
  | nil => simp
  | cons a part ih =>
    have ha : a ≠ sep := fun heq => h (by simp [heq])
    simp only [List.mem_cons, not_or] at h
    rw [List.cons_append, linesFrom, if_neg ha, ih h.2, List.append_assoc, List.singleton_append]

theorem lines_cons {part : List A} (h : sep ∉ part) (rest : List A) :
    lines sep strip (part ++ sep :: rest) = strip part :: lines sep strip rest := by
  rw [lines, linesFrom_append h, linesFrom, if_pos rfl]
  rfl

theorem lines_part {part : List A} (h : sep ∉ part) : lines sep strip part = if part = [] then [] else [part] := by
  have happend : linesFrom sep strip [] (part ++ []) = linesFrom sep strip ([] ++ part) [] := linesFrom_append h [] []
  rw [List.append_nil] at happend
  rw [lines, happend]
  rfl

theorem lines_encodeLines {rs : List R} (hsep : ∀ r ∈ rs, sep ∉ text r) (hstrip : ∀ r ∈ rs, strip (text r) = text r) :
    lines sep strip (encodeLines sep text rs) = rs.map text := by
  induction rs with
  | nil => rfl
  | cons r rs ih =>
    simp only [List.mem_cons, forall_eq_or_imp] at hsep hstrip
    rw [encodeLines_cons, lines_cons hsep.1, hstrip.1, ih hsep.2 hstrip.2, List.map_cons]

theorem lines_take {rs : List R} (hsep : ∀ r ∈ rs, sep ∉ text r) (hstrip : ∀ r ∈ rs, strip (text r) = text r)
    (hne : ∀ r ∈ rs, text r ≠ []) (n : Nat) :
    lines sep strip ((encodeLines sep text rs).take n) =
      (wholeIn text rs n).map text ++ if tornIn text rs n = [] then [] else [tornIn text rs n] := by
  induction rs generalizing n with
  | nil => simp [encodeLines, wholeIn, tornIn, lines, linesFrom]
  | cons r rs ih =>
    simp only [List.mem_cons, forall_eq_or_imp] at hsep hstrip hne
    rw [encodeLines_cons, wholeIn, tornIn]
    by_cases hwhole : (text r).length ≤ n
    · rw [if_pos hwhole, if_pos hwhole]
      rcases Nat.eq_or_lt_of_le hwhole with rfl | hlt
      · have hzero : (text r).length - ((text r).length + 1) = 0 := by omega
        rw [List.take_left, lines_part hsep.1, if_neg hne.1, hzero, wholeIn_zero hne.2, tornIn_zero hne.2]
        rfl
      · have htake : (text r ++ sep :: encodeLines sep text rs).take n =
            text r ++ sep :: (encodeLines sep text rs).take (n - ((text r).length + 1)) := by
          rw [List.take_append, List.take_of_length_le hwhole,
            show n - (text r).length = n - ((text r).length + 1) + 1 by omega, List.take_succ_cons]
        rw [htake, lines_cons hsep.1, hstrip.1, ih hsep.2 hstrip.2 hne.2]
        rfl
    · have htake : (text r ++ sep :: encodeLines sep text rs).take n = (text r).take n :=
        List.take_append_of_le_length (not_le.mp hwhole).le
      rw [if_neg hwhole, if_neg hwhole, htake, lines_part fun hmem => hsep.1 (List.mem_of_mem_take hmem)]
      rfl

end AiDb.Library
