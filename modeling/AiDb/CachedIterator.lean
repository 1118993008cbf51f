import AiDb.Backward
import AiDb.CachedReads

/-!
# Iterators that read through the cache

An iterator reads each value through the handle it holds, and so through the block cache,
which the read changes. Where the cache agrees with the tables the iterator moves as one
that reads without a cache.
-/

namespace AiDb

open Library Compaction

namespace Cached

-- ---------------------------------------------------------------------------
-- The iterator
-- ---------------------------------------------------------------------------

/-- `DBIterator` with the handle it holds. -/
structure DBIterator extends AiDb.DBIterator where
  db : CSys

namespace DBIterator

/-- `load_current`. The call of `next` on a key without a value is written out. -/
def loadCurrent (it : DBIterator) : Except Exit Unit × DBIterator :=
  if h : it.position < it.keys.length then
    match getAtSequence it.keys[it.position] it.sequence it.db with
    | .error e db => (.error e, { it with db := db })
    | .ok (some value) db => (.ok (), { it with current := some (it.keys[it.position], value), db := db })
    | .ok none db => (.ok (), ({ it with position := it.position + 1, db := db }.loadCurrent).2)
  else (.ok (), { it with current := none })
termination_by it.keys.length - it.position

def next (it : DBIterator) : DBIterator := ({ it with position := it.position + 1 }.loadCurrent).2

def prev (it : DBIterator) : DBIterator :=
  if it.position > 0 then ({ it with position := it.position - 1 }.loadCurrent).2
  else { it with current := none }

def seek (it : DBIterator) (target : Bytes) : DBIterator :=
  match binarySearch it.keys target with
  | .ok pos => ({ it with position := pos }.loadCurrent).2
  | .error pos => ({ it with position := pos }.loadCurrent).2

def seekToFirst (it : DBIterator) : DBIterator := ({ it with position := 0 }.loadCurrent).2

def seekToLast (it : DBIterator) : DBIterator :=
  if it.keys ≠ [] then ({ it with position := it.keys.length - 1 }.loadCurrent).2
  else { it with current := none }

def run (it : DBIterator) : AiDb.DBIterator.Move → DBIterator
  | .next => it.next
  | .prev => it.prev
  | .seek target => it.seek target
  | .seekToFirst => it.seekToFirst
  | .seekToLast => it.seekToLast

def moves (it : DBIterator) (ms : List AiDb.DBIterator.Move) : DBIterator := ms.foldl run it

/-- The entries that a loop `while iter.valid() { ..; step }` comes by, if it ends within
so many rounds. -/
def visitedBy (step : DBIterator → DBIterator) : (rounds : Nat) → DBIterator → Option (List (Bytes × Bytes))
  | 0, it => if it.valid then none else some []
  | rounds + 1, it =>
    match it.current with
    | some e => (visitedBy step rounds (step it)).map (e :: ·)
    | none => some []

/-- `DBIterator::new_range`. The keys are read from the tables without the cache. -/
def newRange (sequence : Nat) (start stop : Option Bytes) : C AiDb.DBIterator := fun s =>
  match s.sys.collectKeys start stop with
  | .error e => .error (.error e) s
  | .ok keys =>
    let it : DBIterator := ⟨⟨none, sequence, keys, 0⟩, s⟩
    if keys ≠ [] then
      match it.loadCurrent with
      | (.ok (), it) => .ok it.toDBIterator it.db
      | (.error e, it) => .error e it.db
    else .ok it.toDBIterator it.db

def new (sequence : Nat) : C AiDb.DBIterator := newRange sequence none none

end DBIterator

def scan (start stop : Option Bytes) : C AiDb.DBIterator := do
  DBIterator.newRange (← get).sys.db.sequence start stop

/-- `DB::iter`, which unwraps. -/
def iter : C AiDb.DBIterator := fun s =>
  match DBIterator.new s.sys.db.sequence s with
  | .error (.error _) s => .error .panic s
  | result => result

-- ---------------------------------------------------------------------------
-- Without the cache
-- ---------------------------------------------------------------------------

variable {get : GetAtSequence} {I : CSys → Prop} {s s' : CSys} {P : Bytes × Bytes → Prop}

/-- In the states `I` reads answer as `get` does at the sequence number, and keep `I`. -/
def Answers (get : GetAtSequence) (sequence : Nat) (I : CSys → Prop) : Prop :=
  ∀ key s, I s → ∃ v s', getAtSequence key sequence s = .ok v s' ∧ I s' ∧ get key sequence = .ok v

theorem answers_of_read (hread : s.sys.TablesRead) (sequence : Nat) :
    Answers s.sys.getAtSequence sequence fun s' => s'.sys = s.sys ∧ s'.Good := by
  rintro key s₁ ⟨hsys, hgood⟩
  obtain ⟨v, s₂, hrun, hsys₂, hgood₂, hget⟩ := getAtSequence_ok hgood (by rwa [hsys]) key sequence
  rw [hsys] at hsys₂ hget
  exact ⟨v, s₂, hrun, ⟨hsys₂, hgood₂⟩, hget⟩

namespace DBIterator

variable {it : DBIterator}

structure Follows (get : GetAtSequence) (I : CSys → Prop) (it : DBIterator) : Prop where
  answers : Answers get it.sequence I
  state : I it.db

theorem Follows.loadCurrent (h : it.Follows get I) : it.loadCurrent.1 = .ok () ∧
    it.loadCurrent.2.toDBIterator = (it.toDBIterator.loadCurrent get).2 ∧ I it.loadCurrent.2.db := by
  obtain ⟨h, hI⟩ := h
  induction it using DBIterator.loadCurrent.induct with
  | case1 it hlt e db hrun =>
    obtain ⟨v, s', hok, -⟩ := h _ _ hI
    rw [hrun] at hok
    cases hok
  | case2 it hlt v db hrun =>
    obtain ⟨v', s', hok, hI', hget⟩ := h _ _ hI
    cases hrun.symm.trans hok
    unfold DBIterator.loadCurrent AiDb.DBIterator.loadCurrent
    simp only [hlt, ↓reduceDIte, hrun, hget]
    exact ⟨trivial, trivial, hI'⟩
  | case3 it hlt db hrun ih =>
    obtain ⟨v', s', hok, hI', hget⟩ := h _ _ hI
    cases hrun.symm.trans hok
    rw [DBIterator.loadCurrent, AiDb.DBIterator.loadCurrent]
    simp only [hlt, ↓reduceDIte, hrun, hget]
    exact ⟨trivial, (ih h hI').2⟩
  | case4 it hge =>
    unfold DBIterator.loadCurrent AiDb.DBIterator.loadCurrent
    simp only [hge, ↓reduceDIte]
    exact ⟨trivial, trivial, hI⟩

/-- With the cache and without, a move loads at the same position, or both make the
iterator invalid. -/
theorem run_cases (it : DBIterator) (m : AiDb.DBIterator.Move) :
    (∃ p, it.run m = ({ it with position := p }.loadCurrent).2 ∧
      ∀ get, m.run get it.toDBIterator = ({ it.toDBIterator with position := p }.loadCurrent get).2) ∨
    it.run m = { it with current := none } ∧ ∀ get, m.run get it.toDBIterator = { it.toDBIterator with current := none } := by
  cases m with
  | next => exact .inl ⟨_, rfl, fun _ => rfl⟩
  | prev =>
    unfold DBIterator.run AiDb.DBIterator.Move.run prev AiDb.DBIterator.prev
    dsimp only
    split
    · exact .inl ⟨_, rfl, fun _ => rfl⟩
    · exact .inr ⟨rfl, fun _ => rfl⟩
  | seek target =>
    unfold DBIterator.run AiDb.DBIterator.Move.run seek AiDb.DBIterator.seek
    dsimp only
    cases binarySearch it.keys target <;> exact .inl ⟨_, rfl, fun _ => rfl⟩
  | seekToFirst => exact .inl ⟨_, rfl, fun _ => rfl⟩
  | seekToLast =>
    unfold DBIterator.run AiDb.DBIterator.Move.run seekToLast AiDb.DBIterator.seekToLast
    dsimp only
    split
    · exact .inl ⟨_, rfl, fun _ => rfl⟩
    · exact .inr ⟨rfl, fun _ => rfl⟩

theorem loadCurrent_keeps (h : ∀ key maxSeq, Keeps I (getAtSequence key maxSeq)) (hI : I it.db) :
    I it.loadCurrent.2.db ∧ it.loadCurrent.2.sequence = it.sequence := by
  induction it using DBIterator.loadCurrent.induct with
  | case1 it hlt e db hrun =>
    unfold loadCurrent
    simp only [hlt, ↓reduceDIte, hrun]
    exact ⟨(h _ _ _ hI).error hrun, trivial⟩
  | case2 it hlt v db hrun =>
    unfold loadCurrent
    simp only [hlt, ↓reduceDIte, hrun]
    exact ⟨(h _ _ _ hI).ok hrun, trivial⟩
  | case3 it hlt db hrun ih =>
    rw [loadCurrent]
    simp only [hlt, ↓reduceDIte, hrun]
    exact ih ((h _ _ _ hI).ok hrun)
  | case4 it hge =>
    unfold loadCurrent
    simp only [hge, ↓reduceDIte]
    exact ⟨hI, trivial⟩

theorem run_keeps (h : ∀ key maxSeq, Keeps I (getAtSequence key maxSeq)) (hI : I it.db) (m : AiDb.DBIterator.Move) :
    I (it.run m).db ∧ (it.run m).sequence = it.sequence := by
  rcases it.run_cases m with ⟨p, hrun, -⟩ | ⟨hrun, -⟩
  · rw [hrun]
    exact @loadCurrent_keeps I { it with position := p } h hI
  · rw [hrun]
    exact ⟨hI, rfl⟩

theorem Follows.run (h : it.Follows get I) (m : AiDb.DBIterator.Move) :
    (it.run m).toDBIterator = m.run get it.toDBIterator ∧ (it.run m).Follows get I := by
  have hrun : (it.run m).toDBIterator = m.run get it.toDBIterator ∧ I (it.run m).db := by
    rcases it.run_cases m with ⟨p, hrun, hpure⟩ | ⟨hrun, hpure⟩
    · rw [hrun, hpure]
      exact (@Follows.loadCurrent get I { it with position := p } ⟨h.answers, h.state⟩).2
    · rw [hrun, hpure]
      exact ⟨rfl, h.state⟩
  refine ⟨hrun.1, ?_, hrun.2⟩
  have hseq : (it.run m).sequence = it.sequence := by
    rw [hrun.1]
    exact (AiDb.DBIterator.moves_frame [m]).2
  rw [hseq]
  exact h.answers

theorem Follows.moves (h : it.Follows get I) (ms : List AiDb.DBIterator.Move) :
    (it.moves ms).toDBIterator = it.toDBIterator.moves get ms ∧ (it.moves ms).Follows get I := by
  induction ms generalizing it with
  | nil => exact ⟨rfl, h⟩
  | cons m ms ih =>
    obtain ⟨hm, hfollows⟩ := h.run m
    have hrest := ih hfollows
    rw [hm] at hrest
    exact hrest

theorem Follows.moves_run (h : it.Follows get I) (ms : List AiDb.DBIterator.Move) (m : AiDb.DBIterator.Move) :
    ((it.moves ms).run m).toDBIterator = m.run get (it.toDBIterator.moves get ms) ∧ ((it.moves ms).run m).Follows get I := by
  obtain ⟨hmoves, hfollows⟩ := h.moves ms
  obtain ⟨hrun, hfollows⟩ := hfollows.run m
  rw [hmoves] at hrun
  exact ⟨hrun, hfollows⟩

theorem Follows.visitedBy_next (h : it.Follows get I) {rounds : Nat} (hrounds : it.rounds ≤ rounds) :
    visitedBy next rounds it = some (it.toDBIterator.visited get) := by
  induction rounds generalizing it with
  | zero =>
    have hcur : it.current = none := by
      by_contra hne
      rw [AiDb.DBIterator.rounds, if_pos (Option.isSome_iff_ne_none.mpr hne)] at hrounds
      omega
    rw [AiDb.DBIterator.visited_none hcur, visitedBy, AiDb.DBIterator.valid, hcur]
    rfl
  | succ rounds ih =>
    cases hcur : it.current with
    | none => rw [AiDb.DBIterator.visited_none hcur, visitedBy, hcur]
    | some e =>
      obtain ⟨hnext, hfollows⟩ := h.run .next
      have hlt := AiDb.DBIterator.rounds_next get hcur
      have hrest := ih hfollows (by rw [hnext]; exact Nat.le_of_lt_succ (hlt.trans_le hrounds))
      rw [hnext] at hrest
      rw [AiDb.DBIterator.visited_some hcur, visitedBy, hcur]
      exact congrArg (Option.map (e :: ·)) hrest

theorem Follows.visitedBy_prev (h : it.Follows get I) (rounds : Nat) :
    visitedBy prev rounds it = AiDb.DBIterator.visitedBack get rounds it.toDBIterator := by
  induction rounds generalizing it with
  | zero => rfl
  | succ rounds ih =>
    rw [visitedBy, AiDb.DBIterator.visitedBack]
    cases it.current with
    | none => rfl
    | some e =>
      obtain ⟨hprev, hfollows⟩ := h.run .prev
      have hrest := ih hfollows
      rw [hprev] at hrest
      exact congrArg (Option.map (e :: ·)) hrest

-- ---------------------------------------------------------------------------
-- Exact iteration
-- ---------------------------------------------------------------------------

/-- The loop ends, and comes by the entries with `P` in this order of the keys. -/
def LoopShows (step : DBIterator → DBIterator) (order : Bytes → Bytes → Prop) (P : Bytes × Bytes → Prop)
    (it : DBIterator) : Prop :=
  ∃ rounds out, visitedBy step rounds it = some out ∧ (out.Pairwise fun a b => order a.1 b.1) ∧ ∀ e, e ∈ out ↔ P e

/-- The iterator goes through the entries with `P` in ascending order, from the first one
or from a target on, whatever moves were made before. -/
structure ForwardExact (P : Bytes × Bytes → Prop) (it : DBIterator) : Prop where
  loop : it.LoopShows next (· < ·) P
  seek : ∀ ms target, IsLeastEntry (fun e => P e ∧ target ≤ e.1) ((it.moves ms).seek target).current
  seekLoop : ∀ ms target, ((it.moves ms).seek target).LoopShows next (· < ·) fun e => P e ∧ target ≤ e.1
  seekToFirst : ∀ ms, IsLeastEntry P (it.moves ms).seekToFirst.current

/-- The iterator goes through the entries with `P` in descending order, whatever moves were
made before, and a loop over them ends. -/
structure BackwardExact (P : Bytes × Bytes → Prop) (it : DBIterator) : Prop where
  loop : ∀ ms, (it.moves ms).seekToLast.LoopShows prev (fun a b => b < a) P
  seekToLast : ∀ ms, IsGreatestEntry P (it.moves ms).seekToLast.current
  prev : ∀ ms e, (it.moves ms).current = some e →
    IsGreatestEntry (fun x => P x ∧ x.1 < e.1) (it.moves ms).prev.current

theorem Follows.forwardExact (h : it.Follows get I) (hexact : it.toDBIterator.ForwardExact get P) : it.ForwardExact P := by
  have hseek : ∀ ms target, ((it.moves ms).seek target).toDBIterator = (it.toDBIterator.moves get ms).seek get target ∧
      ((it.moves ms).seek target).Follows get I := fun ms target => h.moves_run ms (.seek target)
  have hfirst : ∀ ms, (it.moves ms).seekToFirst.toDBIterator = (it.toDBIterator.moves get ms).seekToFirst get :=
    fun ms => (h.moves_run ms .seekToFirst).1
  refine ⟨⟨_, _, h.visitedBy_next (le_refl _), hexact.ascending, hexact.visits⟩, fun ms target => ?_, fun ms target => ?_,
    fun ms => ?_⟩
  · rw [(hseek ms target).1]
    exact hexact.seek ms target
  · obtain ⟨hrun, hfollows⟩ := hseek ms target
    refine ⟨_, _, hfollows.visitedBy_next (le_refl _), ?_, fun e => ?_⟩
    · rw [hrun]
      exact hexact.seekAscending ms target
    · rw [hrun]
      exact hexact.seekVisits ms target e
  · rw [hfirst]
    exact hexact.seekToFirst ms

theorem Follows.backwardExact_iff (h : it.Follows get I) :
    it.BackwardExact P ↔ it.toDBIterator.BackwardExact get P := by
  have hlast : ∀ ms, (it.moves ms).seekToLast.toDBIterator = (it.toDBIterator.moves get ms).seekToLast get :=
    fun ms => (h.moves_run ms .seekToLast).1
  have hprev : ∀ ms, (it.moves ms).prev.toDBIterator = (it.toDBIterator.moves get ms).prev get :=
    fun ms => (h.moves_run ms .prev).1
  have hloop : ∀ ms rounds, visitedBy prev rounds (it.moves ms).seekToLast =
      AiDb.DBIterator.visitedBack get rounds ((it.toDBIterator.moves get ms).seekToLast get) := by
    intro ms rounds
    rw [← hlast]
    exact (h.moves_run ms .seekToLast).2.visitedBy_prev rounds
  constructor
  · intro hexact
    refine ⟨fun ms => ?_, fun ms e he => ?_, fun ms => ?_⟩
    · rw [← hlast]
      exact hexact.seekToLast ms
    · rw [← hprev]
      refine hexact.prev ms e ?_
      rwa [(h.moves ms).1]
    · simp only [← hloop]
      exact hexact.loop ms
  · intro hexact
    refine ⟨fun ms => ?_, fun ms => ?_, fun ms e he => ?_⟩
    · unfold LoopShows
      simp only [hloop]
      exact hexact.loop ms
    · rw [hlast]
      exact hexact.seekToLast ms
    · rw [hprev]
      refine hexact.prev ms e ?_
      rwa [← (h.moves ms).1]

end DBIterator

-- ---------------------------------------------------------------------------
-- The iterators of a database
-- ---------------------------------------------------------------------------

theorem newRange_eq {it : AiDb.DBIterator} {sequence : Nat} (h : Answers get sequence I) (hI : I s)
    (hit : AiDb.DBIterator.newRange get s.sys sequence start stop = .ok it) :
    ∃ s', DBIterator.newRange sequence start stop s = .ok it s' ∧ I s' := by
  unfold AiDb.DBIterator.newRange at hit
  unfold DBIterator.newRange
  cases hkeys : s.sys.collectKeys start stop with
  | error e => rw [hkeys] at hit; cases hit
  | ok keys =>
    rw [hkeys] at hit
    dsimp only
    by_cases hne : keys = []
    · subst hne
      cases hit
      exact ⟨s, rfl, hI⟩
    · simp only [bind, Except.bind, hne, ne_eq, not_false_eq_true, ↓reduceIte] at hit ⊢
      obtain ⟨hok, heq, hI'⟩ := @DBIterator.Follows.loadCurrent get I ⟨⟨none, sequence, keys, 0⟩, s⟩ ⟨h, hI⟩
      cases hload : DBIterator.loadCurrent ⟨⟨none, sequence, keys, 0⟩, s⟩ with
      | mk result jt =>
        rw [hload] at hok heq hI'
        dsimp only at hok heq hI' ⊢
        subst hok
        refine ⟨jt.db, ?_, hI'⟩
        cases hpure : AiDb.DBIterator.loadCurrent get ⟨none, sequence, keys, 0⟩ with
        | mk result' jt' =>
          rw [hpure] at hit heq
          cases result' with
          | error e => cases hit
          | ok u =>
            cases hit
            exact congrArg (EStateM.Result.ok · jt.db) heq

/-- The entries of a scan: the keys of the range with a value, and the values. -/
def Shows (s : CSys) (start stop : Option Bytes) (e : Bytes × Bytes) : Prop :=
  inRange start stop e.1 = true ∧ ∃ s', getAtSequence e.1 s.sys.db.sequence s = .ok (some e.2) s'

def Uniform (s : CSys) (start stop : Option Bytes) : Prop :=
  (∀ k, s.sys.Collects start stop k → ∃ v s', getAtSequence k s.sys.db.sequence s = .ok (some v) s') ∨
    ∀ k, s.sys.Collects start stop k → ∃ s', getAtSequence k s.sys.db.sequence s = .ok none s'

section

variable (h : s.Good) (hread : s.sys.TablesRead)
include h hread

theorem getAtSequence_eq_iff {v : Option Bytes} {sequence : Nat} :
    (∃ s', getAtSequence k sequence s = .ok v s') ↔ s.sys.getAtSequence k sequence = .ok v := by
  obtain ⟨v', s', hrun, -, -, hget⟩ := getAtSequence_ok h hread k sequence
  rw [hrun, hget]
  constructor
  · rintro ⟨_, ⟨⟩⟩
    rfl
  · rintro ⟨⟩
    exact ⟨s', rfl⟩

theorem shows_eq (start stop : Option Bytes) : Shows s start stop = s.sys.Shows start stop := by
  funext e
  unfold Shows Sys.Shows
  rw [getAtSequence_eq_iff h hread]

theorem uniform_iff (start stop : Option Bytes) : Uniform s start stop ↔ s.sys.Uniform start stop := by
  unfold Uniform Sys.Uniform
  simp only [getAtSequence_eq_iff h hread]

/-- A scan through the cache gives the iterator of a scan without, and moves as it does. -/
theorem scan_follows {it : AiDb.DBIterator} (hit : s.sys.scan start stop = .ok it) :
    ∃ s', scan start stop s = .ok it s' ∧
      DBIterator.Follows s.sys.getAtSequence (fun t => t.sys = s.sys ∧ t.Good) ⟨it, s'⟩ := by
  obtain ⟨s', hrun, hs'⟩ := newRange_eq (I := fun t => t.sys = s.sys ∧ t.Good)
    (answers_of_read hread s.sys.db.sequence) ⟨rfl, h⟩ hit
  refine ⟨s', hrun, ?_, hs'⟩
  obtain ⟨keys, -, hland⟩ := AiDb.DBIterator.newRange_lands hit
  rw [hland.sequence_eq]
  exact answers_of_read hread s.sys.db.sequence

end

theorem iter_of_scan {it : AiDb.DBIterator} (hit : scan none none s = .ok it s') : iter s = .ok it s' := by
  have hnew : DBIterator.new s.sys.db.sequence s = .ok it s' := hit
  rw [iter, hnew]

def checkIter (acts : List (Env × Action)) (check : CSys → DBIterator → Bool) : Bool :=
  match ((State.init .unused).runs acts).handle .calm with
  | none => false
  | some s =>
    match iter s with
    | .ok it s' => check s ⟨it, s'⟩
    | .error _ _ => false

theorem checkIter_sound (h : checkIter acts check = true) : ∃ s it s',
    ((State.init .unused).runs acts).handle .calm = some s ∧ iter s = .ok it s' ∧ check s ⟨it, s'⟩ = true := by
  unfold checkIter at h
  split at h
  · cases h
  · rename_i s hs
    split at h
    · rename_i it s' hit
      exact ⟨s, it, s', hs, hit, h⟩
    · cases h

/-- In every state of a run that hands out fresh numbers, where the blocks can be read, the
iterators of `scan` and `iter` show exactly the keys of their range with a value, in
ascending order. -/
theorem scan_forward_exact (len : CompressedLen) (acts : List (Env × Action))
    (h : (State.init len).Along State.HandsOutFresh acts) (env : Env)
    (hs : ((State.init len).runs acts).handle env = some s) (hread : s.sys.TablesRead) :
    (∀ start stop, ∃ it s', scan start stop s = .ok it s' ∧ DBIterator.ForwardExact (Shows s start stop) ⟨it, s'⟩) ∧
    ∃ it s', iter s = .ok it s' ∧ DBIterator.ForwardExact (Shows s none none) ⟨it, s'⟩ := by
  have hgood := State.good_of_fresh h hs
  have hscan : ∀ start stop, ∃ it s', scan start stop s = .ok it s' ∧
      DBIterator.ForwardExact (Shows s start stop) ⟨it, s'⟩ := by
    intro start stop
    obtain ⟨it, hit, hexact⟩ := (hgood.readable hread).forward start stop
    obtain ⟨s', hrun, hfollows⟩ := scan_follows hgood hread hit
    rw [← shows_eq hgood hread] at hexact
    exact ⟨it, s', hrun, hfollows.forwardExact hexact⟩
  refine ⟨hscan, ?_⟩
  obtain ⟨it, s', hrun, hexact⟩ := hscan none none
  exact ⟨it, s', iter_of_scan hrun, hexact⟩

def deletedBetween : List (Env × Action) :=
  [.openDb .plain 1024, .call (.put [97] [1]), .call (.put [98] [2]), .call (.delete [97]), .call .flushTables,
    .getAtSequence [98] 3, .call (.put [99] [3])].map (Env.calm, ·)

theorem scan_forward_exact_deletedBetween : ∃ s it s',
    ((State.init .unused).runs deletedBetween).handle .calm = some s ∧ s.find ⟨2, 0⟩ ≠ none ∧
    s.sys.collectKeys none none = .ok [[], [97], [98], [99]] ∧ iter s = .ok it s' ∧
    DBIterator.ForwardExact (Shows s none none) ⟨it, s'⟩ := by
  have hrun : checkIter deletedBetween (fun s _ => s.sys.tablesRead && (s.find ⟨2, 0⟩).isSome &&
      decide (s.sys.collectKeys none none = .ok [[], [97], [98], [99]])) = true := by decide +kernel
  obtain ⟨s, it, s', hs, hit, hcheck⟩ := checkIter_sound hrun
  simp only [Bool.and_eq_true, decide_eq_true_eq] at hcheck
  obtain ⟨⟨hread, hfind⟩, hkeys⟩ := hcheck
  have halong : (State.init .unused).Along State.HandsOutFresh deletedBetween :=
    State.along_of_check (fun _ _ _ => State.handsOutFresh_sound) (by decide +kernel)
  obtain ⟨-, it', t, hit', hexact⟩ :=
    scan_forward_exact .unused deletedBetween halong .calm hs (Sys.tablesRead_sound hread)
  cases hit.symm.trans hit'
  exact ⟨s, it, s', hs, Option.isSome_iff_ne_none.mp hfind, hkeys, hit, hexact⟩

/-- A key that only the cached block of an overwritten table has is found, but not visited. -/
theorem not_scan_forward_exact_overwritten : ∃ s it s',
    ((State.init .unused).runs readThenOverwritten).handle .calm = some s ∧ s.sys.TablesRead ∧ iter s = .ok it s' ∧
    Shows s none none ([97], [1]) ∧ ¬DBIterator.ForwardExact (Shows s none none) ⟨it, s'⟩ := by
  have hrun : checkIter readThenOverwritten (fun s it => s.sys.tablesRead && decide (value s [97] s.sys.db.sequence = some (some [1])) &&
      decide ((it.seek [97]).current = none)) = true := by decide +kernel
  obtain ⟨s, it, s', hs, hit, hcheck⟩ := checkIter_sound hrun
  simp only [Bool.and_eq_true, decide_eq_true_eq] at hcheck
  obtain ⟨⟨hread, hvalue⟩, hseek⟩ := hcheck
  have hshows : Shows s none none ([97], [1]) := ⟨rfl, value_eq_some.mp hvalue⟩
  refine ⟨s, it, s', hs, Sys.tablesRead_sound hread, hit, hshows, fun hexact => ?_⟩
  have hleast := hexact.seek [] [97]
  rw [show (DBIterator.moves ⟨it, s'⟩ []).seek [97] = DBIterator.seek ⟨it, s'⟩ [97] from rfl, hseek] at hleast
  exact hleast ([97], [1]) ⟨hshows, le_refl _⟩

/-- In every state of a run that hands out fresh numbers, where the blocks can be read, the
iterators of `scan` and `iter` go back exactly where every key in their list has a value,
or none has. -/
theorem backward_exact_iff (len : CompressedLen) (acts : List (Env × Action))
    (h : (State.init len).Along State.HandsOutFresh acts) (env : Env)
    (hs : ((State.init len).runs acts).handle env = some s) (hread : s.sys.TablesRead) :
    (∀ start stop, ∃ it s', scan start stop s = .ok it s' ∧
      (DBIterator.BackwardExact (Shows s start stop) ⟨it, s'⟩ ↔ Uniform s start stop)) ∧
    ∃ it s', iter s = .ok it s' ∧ (DBIterator.BackwardExact (Shows s none none) ⟨it, s'⟩ ↔ Uniform s none none) := by
  have hgood := State.good_of_fresh h hs
  have hscan : ∀ start stop, ∃ it s', scan start stop s = .ok it s' ∧
      (DBIterator.BackwardExact (Shows s start stop) ⟨it, s'⟩ ↔ Uniform s start stop) := by
    intro start stop
    obtain ⟨it, hit, hexact⟩ := (hgood.readable hread).backward start stop
    obtain ⟨s', hrun, hfollows⟩ := scan_follows hgood hread hit
    rw [← shows_eq hgood hread, ← uniform_iff hgood hread] at hexact
    exact ⟨it, s', hrun, hfollows.backwardExact_iff.trans hexact⟩
  refine ⟨hscan, ?_⟩
  obtain ⟨it, s', hrun, hexact⟩ := hscan none none
  exact ⟨it, s', iter_of_scan hrun, hexact⟩

def emptyKeyPut : List (Env × Action) :=
  [.openDb .plain 1024, .call (.put [97] [1]), .call .flushTables, .getAtSequence [97] 1, .call (.put [] [2]),
    .call (.put [98] [3])].map (Env.calm, ·)

theorem backward_exact_iff_emptyKeyPut : ∃ s it s', ((State.init .unused).runs emptyKeyPut).handle .calm = some s ∧
    s.find ⟨2, 0⟩ ≠ none ∧ s.sys.collectKeys none none = .ok [[], [97], [98]] ∧ iter s = .ok it s' ∧
    DBIterator.BackwardExact (Shows s none none) ⟨it, s'⟩ := by
  have hrun : checkIter emptyKeyPut (fun s _ => s.sys.tablesRead && (s.find ⟨2, 0⟩).isSome &&
      decide (s.sys.collectKeys none none = .ok [[], [97], [98]]) &&
      [[], [97], [98]].all fun k => (value s k s.sys.db.sequence).join.isSome) = true := by decide +kernel
  obtain ⟨s, it, s', hs, hit, hcheck⟩ := checkIter_sound hrun
  simp only [Bool.and_eq_true, decide_eq_true_eq, List.all_eq_true] at hcheck
  obtain ⟨⟨⟨hread, hfind⟩, hkeys⟩, hlive⟩ := hcheck
  have halong : (State.init .unused).Along State.HandsOutFresh emptyKeyPut :=
    State.along_of_check (fun _ _ _ => State.handsOutFresh_sound) (by decide +kernel)
  have hread := Sys.tablesRead_sound hread
  obtain ⟨-, it', t, hit', hexact⟩ := backward_exact_iff .unused emptyKeyPut halong .calm hs hread
  cases hit.symm.trans hit'
  refine ⟨s, it, s', hs, Option.isSome_iff_ne_none.mp hfind, hkeys, hit, hexact.mpr (.inl fun k hk => ?_)⟩
  obtain ⟨keys, hkeys', -, hmem⟩ := Sys.collectKeys_spec ((State.good_of_fresh halong hs).readable hread) none none
  rw [hkeys] at hkeys'
  cases hkeys'
  obtain ⟨v, hv⟩ := Option.isSome_iff_exists.mp (hlive k ((hmem k).mpr hk))
  exact ⟨v, value_eq_some.mp (Option.join_eq_some_iff.mp hv)⟩

/-- A deleted last key: `seek_to_last` finds nothing, though there is a live key. -/
theorem not_backward_exact_deletedLast : ∃ s it s',
    ((State.init .unused).runs ([.openDb .plain 1024, .call (.put [97] [1]), .call (.put [98] [2]),
      .call (.delete [98])].map (Env.calm, ·))).handle .calm = some s ∧ s.sys.TablesRead ∧ iter s = .ok it s' ∧
    Shows s none none ([97], [1]) ∧ (DBIterator.seekToLast ⟨it, s'⟩).current = none ∧
    ¬DBIterator.BackwardExact (Shows s none none) ⟨it, s'⟩ := by
  have hrun : checkIter ([.openDb .plain 1024, .call (.put [97] [1]), .call (.put [98] [2]),
      .call (.delete [98])].map (Env.calm, ·)) (fun s it => s.sys.tablesRead &&
      decide (value s [97] s.sys.db.sequence = some (some [1])) && decide (it.seekToLast.current = none)) = true := by decide +kernel
  obtain ⟨s, it, s', hs, hit, hcheck⟩ := checkIter_sound hrun
  simp only [Bool.and_eq_true, decide_eq_true_eq] at hcheck
  obtain ⟨⟨hread, hvalue⟩, hlast⟩ := hcheck
  have hshows : Shows s none none ([97], [1]) := ⟨rfl, value_eq_some.mp hvalue⟩
  refine ⟨s, it, s', hs, Sys.tablesRead_sound hread, hit, hshows, hlast, fun hexact => ?_⟩
  have hnone := hexact.seekToLast []
  rw [show (DBIterator.moves ⟨it, s'⟩ []).seekToLast = DBIterator.seekToLast ⟨it, s'⟩ from rfl, hlast] at hnone
  exact hnone ([97], [1]) hshows

end Cached

end AiDb
