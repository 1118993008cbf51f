import AiDb.Backward

/-!
# Reads that fail under an iterator

Where the read of a key fails, `load_current` returns with the position moved and
the entry it had before, and the moves drop its error.
-/

namespace AiDb

open Library Compaction

namespace DBIterator

variable {get : GetAtSequence} {it : DBIterator}

/-- After any moves, the key shown is the one at the position, and the loop
forwards shows ascending keys. -/
structure Faithful (get : GetAtSequence) (it : DBIterator) : Prop where
  atPosition : ∀ ms e, (it.moves get ms).current = some e → it.keys[(it.moves get ms).position]? = some e.1
  ascending : ∀ ms, ((it.moves get ms).visited get).Pairwise fun a b => a.1 < b.1

def Lifeless (get : GetAtSequence) (it : DBIterator) : Prop := ∀ k ∈ it.keys, ∀ v, get k it.sequence ≠ .ok (some v)

theorem Lands.lifeless (h : it.Lands get it') (hdead : it.Lifeless get) (hnone : it.current = none) : it'.current = none := by
  cases h with
  | stands _ _ hk hget => exact absurd hget (hdead _ (List.mem_of_getElem? hk) _)
  | fails => exact hnone
  | ends => rfl

theorem moves_lifeless (hdead : it.Lifeless get) (hnone : it.current = none) (ms : List Move) :
    (it.moves get ms).current = none := by
  induction ms using List.reverseRecOn with
  | nil => exact hnone
  | append_singleton ms m ih =>
    obtain ⟨hkeys, hseq⟩ := @moves_frame get it ms
    have hdead' : (it.moves get ms).Lifeless get := by
      unfold Lifeless
      rw [hkeys, hseq]
      exact hdead
    rw [moves_snoc]
    rcases m.run_cases get (it.moves get ms) with ⟨p, hland⟩ | heq
    · exact hland.lifeless hdead' ih
    · rw [heq]

theorem AtKey.visited_eq (hat : it.AtKey get) (hok : it.Succeeds get) (he : it.current = some e) :
    it.visited get = answers (valueOf get it.sequence) (it.keys.drop it.position) := by
  obtain ⟨hk, hget⟩ := hat e he
  obtain ⟨hlt, hkey⟩ := List.getElem?_eq_some_iff.mp hk
  have hnext : (it.next get).visited get = answers (valueOf get it.sequence) (it.keys.drop (it.position + 1)) :=
    @visited_loadCurrent get { it with position := it.position + 1 } hok
  rw [visited_some he, hnext, List.drop_eq_getElem_cons hlt, hkey, answers_cons_some (by rw [valueOf, hget])]

theorem Succeeds.faithful (hok : it.Succeeds get) (hat : it.AtKey get) (hasc : it.keys.Pairwise (· < ·)) :
    it.Faithful get where
  atPosition ms e he := by
    obtain ⟨hk, -⟩ := moves_atKey hok hat ms e he
    rwa [(moves_frame ms).1] at hk
  ascending ms := by
    obtain ⟨hkeys, hseq⟩ := @moves_frame get it ms
    cases he : (it.moves get ms).current with
    | none =>
      rw [visited_none he]
      exact .nil
    | some e =>
      have hok' : (it.moves get ms).Succeeds get := by
        unfold Succeeds
        rw [hkeys, hseq]
        exact hok
      rw [(moves_atKey hok hat ms).visited_eq hok' he, hkeys]
      exact answers_ascending (hasc.sublist (List.drop_sublist _ _))

theorem Lifeless.faithful (hdead : it.Lifeless get) (hnone : it.current = none) : it.Faithful get where
  atPosition ms e he := by
    rw [moves_lifeless hdead hnone] at he
    cases he
  ascending ms := by
    rw [visited_none (moves_lifeless hdead hnone ms)]
    exact .nil

theorem load_error {p : Nat} (hk : it.keys[p]? = some k) (hget : get k it.sequence = .error err) :
    ({ it with position := p }.loadCurrent get).2 = { it with position := p } := by
  obtain ⟨hlt, rfl⟩ := List.getElem?_eq_some_iff.mp hk
  unfold loadCurrent
  simp only [hlt, ↓reduceDIte, hget]

/-- From a key with a value, a seek to one that cannot be read shows the former
at the position of the latter. -/
theorem Faithful.not_live_and_failing (h : it.Faithful get) (hasc : it.keys.Pairwise (· < ·)) (hk : k ∈ it.keys)
    (hget : get k it.sequence = .ok (some v)) (hk' : k' ∈ it.keys) : get k' it.sequence ≠ .error err := by
  intro hfail
  obtain ⟨i, hi⟩ := List.mem_iff_getElem?.mp hk
  obtain ⟨j, hj⟩ := List.mem_iff_getElem?.mp hk'
  have hrun : it.moves get [.seek k, .seek k'] = { it with position := j, current := some (k, v) } := by
    show (it.seek get k).seek get k' = _
    rw [seek_key hasc hi hget, seek_eq]
    dsimp only
    rw [countP_lt_of_getElem? hasc hj]
    exact @load_error get { it with current := some (k, v) } k' err j hj hfail
  have hat := h.atPosition [.seek k, .seek k'] (k, v)
  rw [hrun, hj] at hat
  obtain rfl := Option.some.inj (hat rfl)
  rw [hfail] at hget
  cases hget

end DBIterator

theorem Sys.collectKeys_ascending {s : Sys} (h : s.collectKeys start stop = .ok keys) : keys.Pairwise (· < ·) := by
  unfold Sys.collectKeys at h
  dsimp only at h
  cases hall : collectTables s.world ((s.db.memtable :: s.db.immutableMemtables).foldl
      (fun set m => KeySet.extend set m.keys) .empty) s.db.sstables.flatten with
  | error e => rw [hall] at h; cases h
  | ok all =>
    rw [hall] at h
    cases h
    exact all.toVec_ascending.filter _

/-- An iterator over any database, whatever answers its reads get, shows the key at
its position, and ascending keys, exactly where no key of its list fails to be read
or none has a value. -/
theorem iterator_faithful_iff {s : Sys} {get : GetAtSequence} {it : DBIterator} {seq : Nat} {start stop : Option Bytes}
    (h : DBIterator.newRange get s seq start stop = .ok it) :
    it.Faithful get ↔
      (∀ k ∈ it.keys, ∀ e, get k seq ≠ .error e) ∨ ∀ k ∈ it.keys, ∀ v, get k seq ≠ .ok (some v) := by
  obtain ⟨keys, hkeys, hland⟩ := DBIterator.newRange_lands h
  have hasc := Sys.collectKeys_ascending hkeys
  obtain rfl : it.keys = keys := hland.keys_eq
  obtain rfl : it.sequence = seq := hland.sequence_eq
  constructor
  · intro hfaithful
    by_cases hlive : ∃ k ∈ it.keys, ∃ v, get k it.sequence = .ok (some v)
    · obtain ⟨k, hk, v, hget⟩ := hlive
      exact .inl fun k' hk' e => hfaithful.not_live_and_failing hasc hk hget hk'
    · exact .inr fun k hk v hget => hlive ⟨k, hk, v, hget⟩
  · rintro (hok | hdead)
    · have hok' : it.Succeeds get := fun k hk => by
        cases hget : get k it.sequence with
        | error e => exact absurd hget (hok k hk e)
        | ok v => exact ⟨v, rfl⟩
      exact hok'.faithful (hland.atKey hok') hasc
    · exact DBIterator.Lifeless.faithful hdead (hland.lifeless hdead rfl)

def Sys.damaged (s : Sys) (offset : Nat) : Sys := ⟨s.db, s.world.enter ⟨[], fun _ off => off = offset⟩⟩

/-- `a` is deleted, and the block of `b` cannot be read after the keys were collected. -/
theorem iterator_faithful_iff_deletedAndDamaged : ∃ (s : Sys) (it : DBIterator),
    DBIterator.newRange (s.damaged 26).getAtSequence s s.db.sequence none none = .ok it ∧ it.keys = [[], [97], [98]] ∧
      (s.damaged 26).getAtSequence [98] s.db.sequence = .error (.checksumMismatch 0 0) ∧
      it.Faithful (s.damaged 26).getAtSequence := by
  have hrun : (Sys.session .unused { Options.plain with blockSize := 1 } [.put [97] [1], .delete [97], .put [98] [2],
      .flushTables]).map (fun s =>
        ((DBIterator.newRange (s.damaged 26).getAtSequence s s.db.sequence none none).toOption.map DBIterator.keys,
          [[], [97], [98]].map fun key => (s.damaged 26).getAtSequence key s.db.sequence)) =
      some (some [[], [97], [98]], [.ok none, .ok none, .error (.checksumMismatch 0 0)]) := by
    decide +kernel
  obtain ⟨s, -, heq⟩ := Option.map_eq_some_iff.mp hrun
  rw [Prod.mk.injEq] at heq
  obtain ⟨hiter, hget⟩ := heq
  simp only [List.map_cons, List.map_nil, List.cons.injEq, and_true] at hget
  obtain ⟨it, hit, hkeys⟩ := Option.map_eq_some_iff.mp hiter
  have hnew : DBIterator.newRange (s.damaged 26).getAtSequence s s.db.sequence none none = .ok it := by
    cases h : DBIterator.newRange (s.damaged 26).getAtSequence s s.db.sequence none none with
    | error e => rw [h] at hit; cases hit
    | ok it' => rw [h] at hit; cases hit; rfl
  refine ⟨s, it, hnew, hkeys, hget.2.2, (iterator_faithful_iff hnew).mpr (.inr fun k hk v => ?_)⟩
  rw [hkeys] at hk
  have hdead : ∀ k ∈ ([[], [97], [98]] : List Bytes), (s.damaged 26).getAtSequence k s.db.sequence ≠ .ok (some v) := by
    simp [hget]
  exact hdead k hk

/-- With the block of the second key unreadable after the keys were collected, `next`
shows the first one again. -/
theorem not_iterator_faithful_damagedBlock : ∃ (s : Sys) (env : Env) (it : DBIterator),
    State.Reachable .unused ⟨some s.db, s.world⟩ ∧
    DBIterator.newRange (Sys.getAtSequence ⟨s.db, s.world.enter env⟩) s s.db.sequence none none = .ok it ∧
    it.current = some ([97], [1]) ∧ (it.next (Sys.getAtSequence ⟨s.db, s.world.enter env⟩)).current = some ([97], [1]) ∧
    ¬it.Faithful (Sys.getAtSequence ⟨s.db, s.world.enter env⟩) := by
  have hrun : (Sys.session .unused { Options.plain with blockSize := 1 } [.put [97] [1], .put [98] [2], .put [99] [3],
      .flushTables]).map (fun s =>
        (DBIterator.newRange (Sys.getAtSequence ⟨s.db, s.world.enter ⟨[], fun _ off => off = 27⟩⟩) s s.db.sequence none
          none).toOption.map fun it => decide (it.current = some ([97], [1]) ∧
            (it.next (Sys.getAtSequence ⟨s.db, s.world.enter ⟨[], fun _ off => off = 27⟩⟩)).current = some ([97], [1]))) =
      some (some true) := by
    decide +kernel
  obtain ⟨s, hs, hiter⟩ := Option.map_eq_some_iff.mp hrun
  obtain ⟨it, hit, hcheck⟩ := Option.map_eq_some_iff.mp hiter
  obtain ⟨hfirst, hnext⟩ := of_decide_eq_true hcheck
  generalize hget : Sys.getAtSequence ⟨s.db, s.world.enter ⟨[], fun _ off => off = 27⟩⟩ = get at hit hnext
  refine ⟨s, ⟨[], fun _ off => off = 27⟩, it, (Sys.session_reachable hs).1, ?_, hfirst, ?_, fun hfaithful => ?_⟩
  · rw [hget]
    cases h : DBIterator.newRange get s s.db.sequence none none with
    | error e => rw [h] at hit; cases hit
    | ok it' => rw [h] at hit; cases hit; rfl
  · rw [hget]
    exact hnext
  · rw [hget] at hfaithful
    have hasc := hfaithful.ascending []
    rw [DBIterator.moves, List.foldl_nil, DBIterator.visited_some hfirst, DBIterator.visited_some hnext] at hasc
    exact lt_irrefl ([97] : Bytes) ((List.pairwise_cons.mp hasc).1 _ List.mem_cons_self)

end AiDb
