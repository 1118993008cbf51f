import AiDb.Iterator
import AiDb.Library.Cursor

/-!
# Where a move leaves the iterator

`load_current` goes on to the first key from its position that is not without a
value: it stands on that key, or stops there with an error and keeps what it
showed before, or comes to the end of the list.
-/

namespace AiDb

open Library

namespace DBIterator

variable {get : GetAtSequence} {it it' : DBIterator}

/-- No key at these positions has a value, and each can be read. -/
def Empty (get : GetAtSequence) (it : DBIterator) (first last : Nat) : Prop :=
  ∀ i k, first ≤ i → i < last → it.keys[i]? = some k → get k it.sequence = .ok none

inductive Lands (get : GetAtSequence) (it : DBIterator) : DBIterator → Prop
  | stands (hle : it.position ≤ p) (hempty : it.Empty get it.position p) (hk : it.keys[p]? = some k)
      (hget : get k it.sequence = .ok (some v)) : Lands get it { it with position := p, current := some (k, v) }
  | fails (hle : it.position ≤ p) (hempty : it.Empty get it.position p) (hk : it.keys[p]? = some k)
      (hget : get k it.sequence = .error e) : Lands get it { it with position := p }
  | ends (hle : it.position ≤ p) (hempty : it.Empty get it.position it.keys.length) (hp : it.keys.length ≤ p) :
      Lands get it { it with position := p, current := none }

theorem Empty.cons (h : it.Empty get (first + 1) last) (hk : it.keys[first]? = some k)
    (hget : get k it.sequence = .ok none) : it.Empty get first last := by
  intro i k' hle hlt hk'
  rcases Nat.eq_or_lt_of_le hle with rfl | hlt'
  · rw [hk] at hk'
    cases hk'
    exact hget
  · exact h i k' hlt' hlt hk'

theorem empty_self (n : Nat) : it.Empty get n n := fun _ _ hle hlt => absurd hlt (not_lt.mpr hle)

theorem loadCurrent_lands (get : GetAtSequence) (it : DBIterator) : it.Lands get (it.loadCurrent get).2 := by
  induction it using DBIterator.loadCurrent.induct get with
  | case1 it h e hget =>
    unfold loadCurrent
    simp only [h, ↓reduceDIte, hget]
    exact .fails (le_refl _) (empty_self _) (List.getElem?_eq_getElem h) hget
  | case2 it h v hget =>
    unfold loadCurrent
    simp only [h, ↓reduceDIte, hget]
    exact .stands (le_refl _) (empty_self _) (List.getElem?_eq_getElem h) hget
  | case3 it h hget ih =>
    unfold loadCurrent
    simp only [h, ↓reduceDIte, hget]
    have hk := List.getElem?_eq_getElem h
    have hle : ∀ {p}, it.position + 1 ≤ p → it.position ≤ p := Nat.le_of_succ_le
    generalize hland : (loadCurrent get { it with position := it.position + 1 }).2 = it' at ih ⊢
    cases ih with
    | stands hp hempty hk' hget' => exact .stands (hle hp) (Empty.cons hempty hk hget) hk' hget'
    | fails hp hempty hk' hget' => exact .fails (hle hp) (Empty.cons hempty hk hget) hk' hget'
    | ends hp hempty hlen => exact .ends (hle hp) (Empty.cons hempty hk hget) hlen
  | case4 it h =>
    unfold loadCurrent
    simp only [h, ↓reduceDIte]
    refine .ends (le_refl _) (fun i k hi hlt => ?_) (not_lt.mp h)
    omega

theorem Lands.keys_eq (h : it.Lands get it') : it'.keys = it.keys := by cases h <;> rfl

theorem Lands.sequence_eq (h : it.Lands get it') : it'.sequence = it.sequence := by cases h <;> rfl

theorem Lands.position_lt (h : it.Lands get it') (hv : it'.current.isSome) :
    it.position ≤ it'.position ∧ it'.position < it'.keys.length := by
  cases h with
  | stands hle _ hk _ => exact ⟨hle, (List.getElem?_eq_some_iff.mp hk).1⟩
  | fails hle _ hk _ => exact ⟨hle, (List.getElem?_eq_some_iff.mp hk).1⟩
  | ends => cases hv

-- ---------------------------------------------------------------------------
-- Moves
-- ---------------------------------------------------------------------------

inductive Move
  | next
  | prev
  | seek (target : Bytes)
  | seekToFirst
  | seekToLast

def Move.run (get : GetAtSequence) (it : DBIterator) : Move → DBIterator
  | .next => it.next get
  | .prev => it.prev get
  | .seek target => it.seek get target
  | .seekToFirst => it.seekToFirst get
  | .seekToLast => it.seekToLast get

def moves (get : GetAtSequence) (it : DBIterator) (ms : List Move) : DBIterator := ms.foldl (Move.run get) it

theorem Move.run_cases (get : GetAtSequence) (it : DBIterator) (m : Move) :
    (∃ p, Lands get { it with position := p } (m.run get it)) ∨ m.run get it = { it with current := none } := by
  cases m with
  | next => exact .inl ⟨_, loadCurrent_lands get _⟩
  | prev =>
    unfold Move.run DBIterator.prev
    dsimp only
    split
    · exact .inl ⟨_, loadCurrent_lands get _⟩
    · exact .inr rfl
  | seek target =>
    unfold Move.run DBIterator.seek
    dsimp only
    split <;> exact .inl ⟨_, loadCurrent_lands get _⟩
  | seekToFirst => exact .inl ⟨_, loadCurrent_lands get _⟩
  | seekToLast =>
    unfold Move.run DBIterator.seekToLast
    dsimp only
    split
    · exact .inl ⟨_, loadCurrent_lands get _⟩
    · exact .inr rfl

theorem moves_snoc (ms : List Move) (m : Move) : it.moves get (ms ++ [m]) = m.run get (it.moves get ms) := by
  simp [moves]

theorem moves_frame (ms : List Move) : (it.moves get ms).keys = it.keys ∧ (it.moves get ms).sequence = it.sequence := by
  induction ms using List.reverseRecOn with
  | nil => exact ⟨rfl, rfl⟩
  | append_singleton ms m ih =>
    rw [moves_snoc]
    rcases m.run_cases get (it.moves get ms) with ⟨p, hland⟩ | heq
    · exact ⟨hland.keys_eq.trans ih.1, hland.sequence_eq.trans ih.2⟩
    · rw [heq]
      exact ih

-- ---------------------------------------------------------------------------
-- The loop over the entries
-- ---------------------------------------------------------------------------

def rounds (it : DBIterator) : Nat := if it.current.isSome then it.keys.length - it.position + 1 else 0

theorem next_lands (get : GetAtSequence) (it : DBIterator) :
    Lands get { it with position := it.position + 1 } (it.next get) := loadCurrent_lands get _

theorem rounds_next (get : GetAtSequence) (h : it.current = some e) : (it.next get).rounds < it.rounds := by
  unfold rounds
  rw [h, Option.isSome_some, if_pos rfl]
  split_ifs with hv
  · have hlt := (next_lands get it).position_lt hv
    rw [(next_lands get it).keys_eq] at hlt ⊢
    dsimp only at hlt ⊢
    omega
  · exact Nat.succ_pos _

/-- The entries that a loop `while iter.valid() { ..; iter.next() }` comes by. -/
def visited (get : GetAtSequence) (it : DBIterator) : List (Bytes × Bytes) :=
  match _h : it.current with
  | some e => e :: (it.next get).visited get
  | none => []
termination_by it.rounds
decreasing_by exact rounds_next get _h

theorem visited_some (h : it.current = some e) : it.visited get = e :: (it.next get).visited get := by
  rw [visited]
  split
  · rename_i e' h'
    rw [h] at h'
    cases h'
    rfl
  · rename_i h'
    rw [h] at h'
    cases h'

theorem visited_none (h : it.current = none) : it.visited get = [] := by
  rw [visited]
  split
  · rename_i e' h'
    rw [h] at h'
    cases h'
  · rfl

theorem head_visited : (it.visited get).head? = it.current := by
  cases h : it.current with
  | none => rw [visited_none h]; rfl
  | some e => rw [visited_some h]; rfl

-- ---------------------------------------------------------------------------
-- Where every key can be read
-- ---------------------------------------------------------------------------

def valueOf (get : GetAtSequence) (sequence : Nat) (key : Bytes) : Option Bytes :=
  match get key sequence with
  | .ok v => v
  | .error _ => none

def Succeeds (get : GetAtSequence) (it : DBIterator) : Prop := ∀ k ∈ it.keys, ∃ v, get k it.sequence = .ok v

def view (get : GetAtSequence) (it : DBIterator) : List (Bytes × Bytes) := answers (valueOf get it.sequence) it.keys

theorem visited_loadCurrent (hok : it.Succeeds get) :
    ((it.loadCurrent get).2).visited get = answers (valueOf get it.sequence) (it.keys.drop it.position) := by
  generalize hn : it.keys.length - it.position = n
  induction n using Nat.strong_induction_on generalizing it with
  | _ n ih =>
    unfold loadCurrent
    by_cases h : it.position < it.keys.length
    · have hrest := @ih (it.keys.length - (it.position + 1)) (by omega) { it with position := it.position + 1 } hok rfl
      rw [List.drop_eq_getElem_cons h]
      obtain ⟨v, hv⟩ := hok _ (List.getElem_mem h)
      simp only [h, ↓reduceDIte, hv]
      cases v with
      | none =>
        rw [answers_cons_none (by rw [valueOf, hv])]
        exact hrest
      | some v =>
        rw [answers_cons_some (by rw [valueOf, hv]), visited_some rfl]
        refine congrArg _ ?_
        exact @ih (it.keys.length - (it.position + 1)) (by omega)
          { it with position := it.position + 1, current := some (it.keys[it.position], v) } hok rfl
    · simp only [h, ↓reduceDIte]
      rw [visited_none rfl, List.drop_eq_nil_of_le (not_lt.mp h)]
      rfl

theorem seek_eq (get : GetAtSequence) (it : DBIterator) (target : Bytes) :
    it.seek get target = ({ it with position := it.keys.countP (· < target) }.loadCurrent get).2 := by
  unfold DBIterator.seek binarySearch
  dsimp only
  split_ifs <;> rfl

theorem visited_seekToFirst (hok : it.Succeeds get) : (it.seekToFirst get).visited get = it.view get :=
  @visited_loadCurrent get { it with position := 0 } hok

theorem visited_seek (hok : it.Succeeds get) (hasc : it.keys.Pairwise (· < ·)) (target : Bytes) :
    (it.seek get target).visited get = answers (valueOf get it.sequence) (it.keys.filter (target ≤ ·)) := by
  rw [seek_eq, ← drop_countP_lt hasc]
  exact @visited_loadCurrent get { it with position := it.keys.countP (· < target) } hok

theorem newRange_eq {ks : List Bytes} {seq : Nat} (hkeys : s.collectKeys start stop = .ok ks)
    (hfirst : ∀ k, ks.head? = some k → ∃ v, get k seq = .ok v) :
    newRange get s seq start stop = .ok ((DBIterator.mk none seq ks 0).loadCurrent get).2 := by
  unfold newRange
  cases ks with
  | nil =>
    rw [hkeys]
    unfold loadCurrent
    rfl
  | cons k ks =>
    obtain ⟨v, hv⟩ := hfirst k rfl
    have hload : ((DBIterator.mk none seq (k :: ks) 0).loadCurrent get).1 = .ok () := by
      unfold loadCurrent
      cases v <;> simp [hv]
    rw [hkeys]
    cases hres : (DBIterator.mk none seq (k :: ks) 0).loadCurrent get with
    | mk result it =>
      rw [hres] at hload
      dsimp only at hload
      subst hload
      simp [bind, Except.bind, hres, pure, Except.pure]

theorem newRange_lands (h : newRange get s seq start stop = .ok it) :
    ∃ keys, s.collectKeys start stop = .ok keys ∧ Lands get ⟨none, seq, keys, 0⟩ it := by
  unfold newRange at h
  cases hkeys : s.collectKeys start stop with
  | error e => rw [hkeys] at h; cases h
  | ok keys =>
    refine ⟨keys, rfl, ?_⟩
    rw [hkeys] at h
    have hland := loadCurrent_lands get ⟨none, seq, keys, 0⟩
    by_cases hne : keys = []
    · subst hne
      cases h
      exact .ends (le_refl 0) (empty_self 0) (le_refl 0)
    · cases hload : loadCurrent get ⟨none, seq, keys, 0⟩ with
      | mk result it' =>
        rw [hload] at hland
        simp only [bind, Except.bind, hne, ne_eq, not_false_eq_true, ↓reduceIte, hload] at h
        cases result with
        | error e => cases h
        | ok u => cases h; exact hland

end DBIterator

end AiDb
