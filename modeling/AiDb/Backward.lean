import AiDb.Scanning

/-!
# Backward iteration

`prev` and `seek_to_last` step back to a position and leave the rest to
`load_current`, which passes over a key without a value forwards. From such a
key the iterator comes back to where it was, or to the end of the list.
-/

namespace AiDb

open Library Compaction

namespace DBIterator

variable {get : GetAtSequence} {it : DBIterator} {P : Bytes × Bytes → Prop}

/-- The entries that a loop `while iter.valid() { ..; iter.prev() }` comes by, if it
ends within so many rounds. -/
def visitedBack (get : GetAtSequence) : (rounds : Nat) → DBIterator → Option (List (Bytes × Bytes))
  | 0, it => if it.valid then none else some []
  | rounds + 1, it =>
    match it.current with
    | some e => (visitedBack get rounds (it.prev get)).map (e :: ·)
    | none => some []

/-- The iterator goes through the entries with `P` in descending order, whatever
moves were made before, and a loop over them ends. -/
structure BackwardExact (get : GetAtSequence) (P : Bytes × Bytes → Prop) (it : DBIterator) : Prop where
  seekToLast : ∀ ms, IsGreatestEntry P ((it.moves get ms).seekToLast get).current
  prev : ∀ ms e, (it.moves get ms).current = some e →
    IsGreatestEntry (fun x => P x ∧ x.1 < e.1) ((it.moves get ms).prev get).current
  loop : ∀ ms, ∃ rounds out, visitedBack get rounds ((it.moves get ms).seekToLast get) = some out ∧
    (out.Pairwise fun a b => b.1 < a.1) ∧ ∀ e, e ∈ out ↔ P e

-- ---------------------------------------------------------------------------
-- Standing on a key
-- ---------------------------------------------------------------------------

/-- What the iterator shows is the key at its position, with its value. -/
def AtKey (get : GetAtSequence) (it : DBIterator) : Prop :=
  ∀ e, it.current = some e → it.keys[it.position]? = some e.1 ∧ get e.1 it.sequence = .ok (some e.2)

theorem Succeeds.cases {i : Nat} (hok : it.Succeeds get) (hk : it.keys[i]? = some k) :
    get k it.sequence = .ok none ∨ ∃ v, get k it.sequence = .ok (some v) := by
  obtain ⟨v, hv⟩ := hok k (List.mem_of_getElem? hk)
  cases v with
  | none => exact .inl hv
  | some v => exact .inr ⟨v, hv⟩

theorem Lands.atKey (h : it.Lands get it') (hok : it.Succeeds get) : it'.AtKey get := by
  cases h with
  | stands _ _ hk hget =>
    rintro e ⟨⟩
    exact ⟨hk, hget⟩
  | fails _ _ hk hget =>
    obtain ⟨v, hv⟩ := hok _ (List.mem_of_getElem? hk)
    rw [hget] at hv
    cases hv
  | ends => exact fun e he => by cases he

theorem moves_atKey (hok : it.Succeeds get) (hat : it.AtKey get) (ms : List Move) : (it.moves get ms).AtKey get := by
  induction ms using List.reverseRecOn with
  | nil => exact hat
  | append_singleton ms m ih =>
    rw [moves_snoc]
    obtain ⟨hkeys, hseq⟩ := @moves_frame get it ms
    have hok' : (it.moves get ms).Succeeds get := by
      unfold Succeeds
      rw [hkeys, hseq]
      exact hok
    rcases m.run_cases get (it.moves get ms) with ⟨p, hland⟩ | heq
    · exact hland.atKey hok'
    · rw [heq]
      exact fun e he => by cases he

theorem load_value {p : Nat} (hk : it.keys[p]? = some k) (hget : get k it.sequence = .ok (some v)) :
    ({ it with position := p }.loadCurrent get).2 = { it with position := p, current := some (k, v) } := by
  obtain ⟨hlt, rfl⟩ := List.getElem?_eq_some_iff.mp hk
  unfold loadCurrent
  simp only [hlt, ↓reduceDIte, hget]

theorem load_skip {p : Nat} (hk : it.keys[p]? = some k) (hget : get k it.sequence = .ok none) :
    ({ it with position := p }.loadCurrent get).2 = ({ it with position := p + 1 }.loadCurrent get).2 := by
  obtain ⟨hlt, rfl⟩ := List.getElem?_eq_some_iff.mp hk
  rw [loadCurrent]
  simp only [hlt, ↓reduceDIte, hget]

theorem load_end {p : Nat} (h : it.keys.length ≤ p) :
    ({ it with position := p }.loadCurrent get).2 = { it with position := p, current := none } := by
  unfold loadCurrent
  simp only [not_lt.mpr h, ↓reduceDIte]

theorem seek_key (hasc : it.keys.Pairwise (· < ·)) (hk : it.keys[i]? = some k) (hget : get k it.sequence = .ok (some v)) :
    it.seek get k = { it with position := i, current := some (k, v) } := by
  rw [seek_eq, countP_lt_of_getElem? hasc hk]
  exact load_value hk hget

theorem seekToLast_eq (get : GetAtSequence) (hne : it.keys ≠ []) :
    it.seekToLast get = ({ it with position := it.keys.length - 1 }.loadCurrent get).2 := if_pos hne

theorem prev_succ {i : Nat} (get : GetAtSequence) (hpos : it.position = i + 1) :
    it.prev get = ({ it with position := i }.loadCurrent get).2 := by
  unfold DBIterator.prev
  rw [hpos, if_pos (Nat.succ_pos i), Nat.add_sub_cancel]

theorem prev_zero (get : GetAtSequence) (hpos : it.position = 0) : it.prev get = { it with current := none } := by
  unfold DBIterator.prev
  rw [hpos, if_neg (lt_irrefl 0)]

-- ---------------------------------------------------------------------------
-- When it goes back exactly
-- ---------------------------------------------------------------------------

def AllLive (get : GetAtSequence) (it : DBIterator) : Prop := ∀ k ∈ it.keys, ∃ v, get k it.sequence = .ok (some v)

def NoneLive (get : GetAtSequence) (it : DBIterator) : Prop := ∀ k ∈ it.keys, get k it.sequence = .ok none

theorem mem_view (hok : it.Succeeds get) : e ∈ it.view get ↔ e.1 ∈ it.keys ∧ get e.1 it.sequence = .ok (some e.2) := by
  rw [view, mem_answers]
  refine and_congr_right fun hk => ?_
  obtain ⟨v, hv⟩ := hok e.1 hk
  simp [valueOf, hv]

theorem BackwardExact.last_live (h : it.BackwardExact get P) (hlive : ∃ e, P e) (hok : it.Succeeds get)
    (hk : it.keys[it.keys.length - 1]? = some k) : ∃ v, get k it.sequence = .ok (some v) := by
  refine (hok.cases hk).resolve_left fun hnone => ?_
  obtain ⟨e, he⟩ := hlive
  have hne : it.keys ≠ [] := List.ne_nil_of_mem (List.mem_of_getElem? hk)
  have hlen := List.length_pos_iff.mpr hne
  have hlast : IsGreatestEntry P (it.seekToLast get).current := h.seekToLast []
  rw [seekToLast_eq get hne, load_skip hk hnone, load_end (by omega)] at hlast
  exact hlast e he

/-- From a key with a value, `prev` finds the one in front of it only if that has a
value as well: else it comes back. -/
theorem BackwardExact.pred_live {i : Nat} (h : it.BackwardExact get P) (hok : it.Succeeds get)
    (hasc : it.keys.Pairwise (· < ·)) (hk : it.keys[i + 1]? = some k) (hget : get k it.sequence = .ok (some v))
    (hk' : it.keys[i]? = some k') : ∃ v', get k' it.sequence = .ok (some v') := by
  refine (hok.cases hk').resolve_left fun hnone => ?_
  have hseek : it.moves get [.seek k] = { it with position := i + 1, current := some (k, v) } :=
    seek_key hasc hk hget
  have hprev := h.prev [.seek k] (k, v) (by rw [hseek])
  generalize it.moves get [.seek k] = jt at hseek hprev
  have hframe : jt.position = i + 1 ∧ jt.keys = it.keys ∧ jt.sequence = it.sequence := by rw [hseek]; exact ⟨rfl, rfl, rfl⟩
  rw [← hframe.2.1] at hk hk'
  rw [← hframe.2.2] at hget hnone
  rw [prev_succ get hframe.1, load_skip hk' hnone, load_value hk hget] at hprev
  exact lt_irrefl k hprev.1.2

theorem BackwardExact.allLive_or_noneLive (h : it.BackwardExact get P) (hok : it.Succeeds get)
    (hasc : it.keys.Pairwise (· < ·)) (hP : ∀ e, e ∈ it.view get ↔ P e) : it.AllLive get ∨ it.NoneLive get := by
  by_cases hlive : ∃ e, P e
  · left
    -- from the last key down, each key has a value if the one behind it has
    have hdown : ∀ n i k, it.keys.length = i + 1 + n → it.keys[i]? = some k →
        ∃ v, get k it.sequence = .ok (some v) := by
      intro n
      induction n with
      | zero =>
        intro i k hlen hk
        refine h.last_live hlive hok ?_
        rwa [hlen]
      | succ n ih =>
        intro i k hlen hk
        have hlt : i + 1 < it.keys.length := by omega
        obtain ⟨v, hv⟩ := ih (i + 1) it.keys[i + 1] (by omega) (List.getElem?_eq_getElem hlt)
        exact h.pred_live hok hasc (List.getElem?_eq_getElem hlt) hv hk
    intro k hk
    obtain ⟨i, hi⟩ := List.mem_iff_getElem?.mp hk
    have hlt := (List.getElem?_eq_some_iff.mp hi).1
    exact hdown (it.keys.length - (i + 1)) i k (by omega) hi
  · right
    intro k hk
    obtain ⟨v, hv⟩ := hok k hk
    cases v with
    | none => exact hv
    | some v => exact absurd ⟨(k, v), (hP _).mp ((mem_view hok).mpr ⟨hk, hv⟩)⟩ hlive

theorem lt_iff_of_ascending {keys : List Bytes} {i j : Nat} (hasc : keys.Pairwise (· < ·)) (hi : keys[i]? = some k)
    (hj : keys[j]? = some k') : k < k' ↔ i < j := by
  obtain ⟨hi', rfl⟩ := List.getElem?_eq_some_iff.mp hi
  obtain ⟨hj', rfl⟩ := List.getElem?_eq_some_iff.mp hj
  have hlt := List.pairwise_iff_getElem.mp hasc
  refine ⟨fun h => ?_, hlt i j hi' hj'⟩
  by_contra hle
  rcases Nat.eq_or_lt_of_le (not_lt.mp hle) with heq | hgt
  · subst heq
    exact lt_irrefl _ h
  · exact lt_asymm h (hlt j i hj' hi' hgt)

theorem answers_take_succ {ask : Bytes → Option Bytes} {keys : List Bytes} {p : Nat} (hk : keys[p]? = some k)
    (hv : ask k = some v) : answers ask (keys.take (p + 1)) = answers ask (keys.take p) ++ [(k, v)] := by
  rw [List.take_add_one, hk]
  simp [answers, hv]

theorem visitedBack_eq {p : Nat} (hall : it.AllLive get) (hp : it.position = p) (hcur : it.current = some e)
    (hk : it.keys[p]? = some e.1) (hget : get e.1 it.sequence = .ok (some e.2)) :
    visitedBack get (p + 1) it = some (answers (valueOf get it.sequence) (it.keys.take (p + 1))).reverse := by
  have hv : valueOf get it.sequence e.1 = some e.2 := by rw [valueOf, hget]
  induction p generalizing it e with
  | zero =>
    simp only [visitedBack, hcur, prev_zero get hp, valid, answers_take_succ hk hv]
    rfl
  | succ p ih =>
    have hlt := (List.getElem?_eq_some_iff.mp hk).1
    have hk' := List.getElem?_eq_getElem (Nat.lt_of_succ_lt hlt)
    obtain ⟨v, hget'⟩ := hall _ (List.mem_of_getElem? hk')
    have hprev := (prev_succ get hp).trans (load_value hk' hget')
    have hrest := @ih (it.prev get) (it.keys[p], v)
    rw [hprev] at hrest
    rw [visitedBack, hcur, hprev, hrest hall rfl rfl hk' hget' (by rw [valueOf, hget']), answers_take_succ hk hv]
    simp

theorem greatest_at {Q : Bytes × Bytes → Prop} {i : Nat} (hasc : it.keys.Pairwise (· < ·)) (hk : it.keys[i]? = some k)
    (hQ : ∀ e, Q e ↔ P e ∧ ∃ j ≤ i, it.keys[j]? = some e.1) (hP : P (k, v)) : IsGreatestEntry Q (some (k, v)) := by
  refine ⟨(hQ _).mpr ⟨hP, i, le_refl i, hk⟩, fun e he => ?_⟩
  obtain ⟨-, j, hj, hkj⟩ := (hQ e).mp he
  exact not_lt.mp fun hlt => not_lt.mpr hj ((lt_iff_of_ascending hasc hk hkj).mp hlt)

variable (hall : it.AllLive get) (hasc : it.keys.Pairwise (· < ·)) (hP : ∀ e, e ∈ it.view get ↔ P e)
include hall hasc hP

theorem AllLive.seekToLast_greatest : IsGreatestEntry P (it.seekToLast get).current := by
  have hmem : ∀ e, P e → e.1 ∈ it.keys := fun e he => (mem_answers.mp ((hP e).mpr he)).1
  by_cases hne : it.keys = []
  · unfold DBIterator.seekToLast
    rw [if_neg (not_not.mpr hne)]
    intro e he
    rw [hne] at hmem
    cases hmem e he
  · have hlt : it.keys.length - 1 < it.keys.length := Nat.sub_lt (List.length_pos_iff.mpr hne) one_pos
    have hk := List.getElem?_eq_getElem hlt
    obtain ⟨v, hget⟩ := hall _ (List.mem_of_getElem? hk)
    rw [seekToLast_eq get hne, load_value hk hget]
    refine greatest_at hasc hk (fun e => ⟨fun he => ⟨he, ?_⟩, And.left⟩) ?_
    · obtain ⟨j, hj⟩ := List.mem_iff_getElem?.mp (hmem e he)
      exact ⟨j, Nat.le_sub_one_of_lt (List.getElem?_eq_some_iff.mp hj).1, hj⟩
    · exact (hP _).mp (mem_answers.mpr ⟨List.mem_of_getElem? hk, by rw [valueOf, hget]⟩)

theorem AllLive.prev_greatest (hat : it.AtKey get) (he : it.current = some e) :
    IsGreatestEntry (fun x => P x ∧ x.1 < e.1) (it.prev get).current := by
  have hmem : ∀ x, P x → ∃ j : Nat, it.keys[j]? = some x.1 := fun x hx =>
    List.mem_iff_getElem?.mp (mem_answers.mp ((hP x).mpr hx)).1
  have hke := (hat e he).1
  cases hpos : it.position with
  | zero =>
    rw [prev_zero get hpos]
    rintro x ⟨hx, hlt⟩
    obtain ⟨j, hj⟩ := hmem x hx
    exact absurd ((lt_iff_of_ascending hasc hj hke).mp hlt) (by omega)
  | succ i =>
    rw [hpos] at hke
    have hk := List.getElem?_eq_getElem (Nat.lt_of_succ_lt (List.getElem?_eq_some_iff.mp hke).1)
    obtain ⟨v, hget⟩ := hall _ (List.mem_of_getElem? hk)
    rw [prev_succ get hpos, load_value hk hget]
    refine greatest_at hasc hk (fun x => and_congr_right fun hx => ?_) ?_
    · obtain ⟨j, hj⟩ := hmem x hx
      rw [lt_iff_of_ascending hasc hj hke, Nat.lt_succ_iff]
      refine ⟨fun hle => ⟨j, hle, hj⟩, fun ⟨j', hle, hj'⟩ => ?_⟩
      -- a key stands at one position only
      refine le_trans (not_lt.mp fun hlt => ?_) hle
      exact lt_irrefl x.1 ((lt_iff_of_ascending hasc hj' hj).mpr hlt)
    · exact (hP _).mp (mem_answers.mpr ⟨List.mem_of_getElem? hk, by rw [valueOf, hget]⟩)

theorem AllLive.loop_back : ∃ rounds out, visitedBack get rounds (it.seekToLast get) = some out ∧
    (out.Pairwise fun a b => b.1 < a.1) ∧ ∀ e, e ∈ out ↔ P e := by
  refine ⟨it.keys.length, (it.view get).reverse, ?_, ?_, fun e => by rw [List.mem_reverse, hP]⟩
  · by_cases hne : it.keys = []
    · unfold DBIterator.seekToLast view
      rw [if_neg (not_not.mpr hne), hne]
      rfl
    · obtain ⟨n, hlen⟩ := Nat.exists_eq_add_one_of_ne_zero (mt List.length_eq_zero_iff.mp hne)
      have hk := List.getElem?_eq_getElem (Nat.lt_of_lt_of_eq n.lt_succ_self hlen.symm)
      generalize it.keys[n] = k at hk
      obtain ⟨v, hget⟩ := hall k (List.mem_of_getElem? hk)
      have hlast := seekToLast_eq get hne
      rw [hlen, Nat.add_sub_cancel, load_value hk hget] at hlast
      rw [hlast, hlen, @visitedBack_eq get { it with position := n, current := some (k, v) } (k, v) n hall rfl rfl hk hget]
      rw [view, ← hlen, List.take_length]
  · rw [List.pairwise_reverse]
    exact answers_ascending hasc

theorem AllLive.backwardExact (hat : it.AtKey get) : it.BackwardExact get P := by
  have hok : it.Succeeds get := fun k hk => by
    obtain ⟨v, hv⟩ := hall k hk
    exact ⟨some v, hv⟩
  have hmoved : ∀ ms, (it.moves get ms).AllLive get ∧ (it.moves get ms).keys.Pairwise (· < ·) ∧
      ∀ e, e ∈ (it.moves get ms).view get ↔ P e := by
    intro ms
    obtain ⟨hkeys, hseq⟩ := @moves_frame get it ms
    unfold AllLive view
    rw [hkeys, hseq]
    exact ⟨hall, hasc, hP⟩
  constructor
  · intro ms
    obtain ⟨hall, hasc, hP⟩ := hmoved ms
    exact hall.seekToLast_greatest hasc hP
  · intro ms e he
    obtain ⟨hall, hasc, hP⟩ := hmoved ms
    exact hall.prev_greatest hasc hP (moves_atKey hok hat ms) he
  · intro ms
    obtain ⟨hall, hasc, hP⟩ := hmoved ms
    exact hall.loop_back hasc hP

omit hall hasc

theorem NoneLive.backwardExact (hnone : it.NoneLive get) (hat : it.AtKey get) : it.BackwardExact get P := by
  have hok : it.Succeeds get := fun k hk => ⟨none, hnone k hk⟩
  have hinvalid : ∀ ms, (it.moves get ms).current = none := by
    intro ms
    rw [Option.eq_none_iff_forall_ne_some]
    intro e he
    obtain ⟨hk, hget⟩ := moves_atKey hok hat ms e he
    obtain ⟨hkeys, hseq⟩ := @moves_frame get it ms
    rw [hkeys] at hk
    rw [hseq, hnone _ (List.mem_of_getElem? hk)] at hget
    cases hget
  have hlast : ∀ ms, ((it.moves get ms).seekToLast get).current = none := fun ms => by
    have h := hinvalid (ms ++ [.seekToLast])
    rwa [moves_snoc] at h
  have hempty : ∀ e, ¬P e := fun e he => by
    obtain ⟨hk, hv⟩ := mem_answers.mp ((hP e).mpr he)
    rw [valueOf, hnone _ hk] at hv
    cases hv
  constructor
  · intro ms
    rw [hlast]
    exact hempty
  · intro ms e he
    rw [hinvalid ms] at he
    cases he
  · intro ms
    refine ⟨0, [], ?_, .nil, fun e => by simp [hempty]⟩
    rw [visitedBack, valid, hlast]
    rfl

end DBIterator

-- ---------------------------------------------------------------------------
-- The iterators of a database
-- ---------------------------------------------------------------------------

variable {s : Sys}

/-- An iterator over the range has the key in its list: a memtable holds it, or a
table lists it. -/
def Sys.Collects (s : Sys) (start stop : Option Bytes) (key : Bytes) : Prop :=
  inRange start stop key = true ∧
    ((∃ m ∈ s.db.memtable :: s.db.immutableMemtables, ∃ e ∈ m.iter, e.1.userKey = key) ∨
      ∃ r ∈ s.db.sstables.flatten, r.Lists s.world key)

def Sys.Uniform (s : Sys) (start stop : Option Bytes) : Prop :=
  (∀ k, s.Collects start stop k → ∃ v, s.getAtSequence k s.db.sequence = .ok (some v)) ∨
    ∀ k, s.Collects start stop k → s.getAtSequence k s.db.sequence = .ok none

theorem Sys.Readable.backward (h : s.Readable) (start stop : Option Bytes) : ∃ it, s.scan start stop = .ok it ∧
    (it.BackwardExact s.getAtSequence (s.Shows start stop) ↔ s.Uniform start stop) := by
  obtain ⟨it, hit, hkeys, hok, hasc, hview, -, hseq⟩ := h.scan start stop
  refine ⟨it, hit, ?_⟩
  have hmem : ∀ k, k ∈ it.keys ↔ s.Collects start stop k := by
    obtain ⟨keys, hkeys', -, hmem⟩ := Sys.collectKeys_spec h start stop
    rw [hkeys] at hkeys'
    cases hkeys'
    exact hmem
  have huniform : s.Uniform start stop ↔ it.AllLive s.getAtSequence ∨ it.NoneLive s.getAtSequence := by
    unfold Sys.Uniform DBIterator.AllLive DBIterator.NoneLive
    simp only [hmem, hseq]
  have hat : it.AtKey s.getAtSequence := by
    obtain ⟨keys, hkeys', hland⟩ := DBIterator.newRange_lands hit
    refine hland.atKey ?_
    unfold DBIterator.Succeeds at hok ⊢
    rwa [hland.keys_eq, hland.sequence_eq] at hok
  rw [huniform]
  constructor
  · exact fun hexact => hexact.allLive_or_noneLive hok hasc hview
  · rintro (hall | hnone)
    · exact hall.backwardExact hasc hview hat
    · exact hnone.backwardExact hview hat

end AiDb
