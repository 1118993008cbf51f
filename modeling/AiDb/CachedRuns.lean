import AiDb.CachedReads

/-!
# What every run through the cache keeps

Reads through the cache leave the handle and the directory as they are, and the other
calls keep of them what they keep without a cache.
-/

namespace AiDb

open Library Compaction

namespace Cached

-- ---------------------------------------------------------------------------
-- Runs
-- ---------------------------------------------------------------------------

/-- `J` holds of the handle while the database is open, `K` while it is not. -/
def State.Holds (J : Sys → Prop) (K : World → Prop) (st : State) : Prop :=
  match st.session with
  | some (db, _) => J ⟨db, st.world⟩
  | none => K st.world

/-- What every step of a session keeps of the handle, as long as it meets `P`. -/
structure Invariant (J : Sys → Prop) (K : World → Prop) (P : State → Env → Action → Prop) : Prop where
  leave : J s → K s.world
  enterOpen : J ⟨db, w⟩ → J ⟨db, w.enter env⟩
  enterClosed : K w → K (w.enter env)
  opened : K w → P ⟨none, w⟩ env (.openDb o size) →
    Triple (AiDb.openDb o) (w.enter env) (fun db w' => J ⟨db, w'⟩) (fun _ => K)
  called : J ⟨db, w⟩ → P ⟨some (db, cache), w⟩ env (.call c) →
    Triple c.runCached ⟨⟨db, w.enter env⟩, cache⟩ (fun _ s => J s.sys) (fun _ s => J s.sys)
  dropped : J ⟨db, w⟩ → P ⟨some (db, cache), w⟩ env .drop →
    Triple Cached.dropDb ⟨⟨db, w.enter env⟩, cache⟩ (fun _ s => K s.sys.world) (fun _ s => K s.sys.world)

theorem State.holds_after {J : Sys → Prop} {K : World → Prop} (hleave : ∀ s, J s → K s.world) {m : C α} {s : CSys}
    (h : Triple m s (fun _ s => J s.sys) (fun _ s => J s.sys)) : (State.after (m s)).2.Holds J K := by
  unfold Triple at h
  cases hr : m s with
  | ok a s' => rw [hr] at h; exact h
  | error e s' =>
    rw [hr] at h
    cases e with
    | error err => exact h
    | panic => exact hleave s'.sys h
    | crash => exact hleave s'.sys h

theorem askTables_keeps (key : Bytes) (rs : List SSTableReader) (t : Sys) :
    Keeps (fun s : CSys => s.sys = t) (Cached.askTables key rs) := by
  induction rs with
  | nil => exact Keeps.pure
  | cons r rs ih =>
    have hthrough : Keeps (fun s : CSys => s.sys = t) (throughCache fun w cache => r.getCached w key cache) := by
      intro s hs
      refine (throughCache_spec (P := fun _ => True) trivial).mono ?_ ?_
      all_goals
        rintro _ s' ⟨hsys, -⟩
        exact hsys.trans hs
    unfold Cached.askTables
    refine hthrough.bind fun answer => ?_
    cases answer with
    | some value => exact Keeps.pure
    | none => exact ih

theorem getAtSequence_keeps (key : Bytes) (maxSeq : Nat) (t : Sys) :
    Keeps (fun s : CSys => s.sys = t) (Cached.getAtSequence key maxSeq) := by
  refine Keeps.get.bind fun s => ?_
  dsimp only
  split
  · exact Keeps.pure
  · exact askTables_keeps key _ t

variable {J : Sys → Prop} {K : World → Prop} {P : State → Env → Action → Prop}

theorem Invariant.exec {st : State} (h : Invariant J K P) (hs : st.Holds J K) (hP : P st env a) :
    (st.exec env a).2.Holds J K := by
  obtain ⟨_ | ⟨db, cache⟩, w⟩ := st
  · cases a with
    | openDb o size =>
      have hopen := h.opened hs hP
      unfold Triple at hopen
      unfold State.exec
      dsimp only
      cases hr : AiDb.openDb o (w.enter env) with
      | ok db w' => rw [hr] at hopen; exact hopen
      | error e w' => rw [hr] at hopen; exact hopen
    | _ => exact hs
  · have hkept : ∀ s : CSys, s.sys = ⟨db, w.enter env⟩ → J s.sys := fun s hsys => by
      rw [hsys]
      exact h.enterOpen hs
    cases a with
    | openDb o size => exact hs
    | call c => exact State.holds_after (fun _ => h.leave) (h.called hs hP)
    | getAtSequence key maxSeq =>
      refine State.holds_after (fun _ => h.leave) ?_
      exact (getAtSequence_keeps key maxSeq _ _ rfl).mono (fun _ => hkept) (fun _ => hkept)
    | clearCache => exact h.enterOpen hs
    | drop =>
      have hdrop := h.dropped hs hP
      unfold Triple at hdrop
      unfold State.exec
      dsimp only
      cases hr : Cached.dropDb ⟨⟨db, w.enter env⟩, cache⟩ with
      | ok x s' => rw [hr] at hdrop; exact hdrop
      | error e s' => rw [hr] at hdrop; exact hdrop
    | crash => exact h.enterClosed (h.leave hs)

theorem Invariant.runs {st : State} (h : Invariant J K P) (hs : st.Holds J K) (hP : st.Along P acts) :
    (st.runs acts).Holds J K := by
  induction acts generalizing st with
  | nil => exact hs
  | cons step rest ih => exact ih (h.exec hs hP.1) hP.2

theorem State.Along.mono {P' : State → Env → Action → Prop} {st : State} (h : st.Along P acts)
    (hP : ∀ st env a, P st env a → P' st env a) : st.Along P' acts := by
  induction acts generalizing st with
  | nil => trivial
  | cons step rest ih => exact ⟨hP _ _ _ h.1, ih h.2⟩

theorem State.Along.and {P' : State → Env → Action → Prop} {st : State} (h : st.Along P acts) (h' : st.Along P' acts) :
    st.Along (fun st env a => P st env a ∧ P' st env a) acts := by
  induction acts generalizing st with
  | nil => trivial
  | cons step rest ih => exact ⟨⟨h.1, h'.1⟩, ih h.2 h'.2⟩

theorem State.along_true {st : State} (acts : List (Env × Action)) : st.Along (fun _ _ _ => True) acts := by
  induction acts generalizing st with
  | nil => trivial
  | cons step rest ih => exact ⟨trivial, ih⟩

-- ---------------------------------------------------------------------------
-- Reached states
-- ---------------------------------------------------------------------------

theorem keeps_onSys {m : M α} (h : Keeps J m) : Keeps (fun s : CSys => J s.sys) (onSys m) := by
  intro s hs
  refine (onSys_spec (h s.sys hs)).mono ?_ ?_
  · exact fun _ _ h => h.2
  · exact fun _ _ h => h.2

theorem reached_rule : Rule fun s => s.sys.Reached where
  write c _ := keeps_onSys c.run_reached
  flushTables := keeps_onSys (Call.run_reached .flushTables)
  logs _ hm := keeps_onSys (Keeps.of_logs (fun _ _ h hl => h.logs hl) hm)
  compact s task h hpick := by
    have hne : s.sys.db.nextFileNumber ≠ 0 := by have := h.two_le; omega
    have hdone : ∀ s', s.CompactionLeft task s' → s'.sys.Reached := fun s' hleft =>
      h.tableStep hleft.tableStep fun hs hunused => (hleft.intact hs hunused hpick).1
    exact (compact_spec task s hne).mono (fun _ => hdone) (fun _ => hdone)

theorem reached_invariant : Invariant Sys.Reached (·.disk.Sane) fun _ _ _ => True where
  leave h := h.sane
  enterOpen h := h.enter _
  enterClosed h := h
  opened hsane _ := AiDb.reached_invariant.opened hsane trivial
  called h _ := reached_rule.call _ _ (h.enter _)
  dropped h _ := (reached_rule.dropDb _ (h.enter _)).mono (fun _ _ h => h.sane) (fun _ _ h => h.sane)

theorem State.reached {len : CompressedLen} (hst : ((State.init len).runs acts).session = some (db, cache)) :
    Sys.Reached ⟨db, ((State.init len).runs acts).world⟩ := by
  have hinit : (State.init len).Holds Sys.Reached (·.disk.Sane) := Disk.sane_empty
  have hrun := reached_invariant.runs hinit (State.along_true acts)
  unfold State.Holds at hrun
  rwa [hst] at hrun

theorem State.reached_handle {s : CSys} {len : CompressedLen} (hs : ((State.init len).runs acts).handle env = some s) :
    s.sys.Reached := by
  obtain ⟨⟨db, cache⟩, hst, rfl⟩ := Option.map_eq_some_iff.mp hs
  exact (State.reached hst).enter env

theorem State.readable_handle {st : State} {s : CSys} (hs : st.handle .calm = some s) (file off : Nat) :
    s.sys.world.unreadable file off = false := by
  obtain ⟨⟨db, cache⟩, hst, rfl⟩ := Option.map_eq_some_iff.mp hs
  rfl

end Cached

end AiDb
