import AiDb.Db
import AiDb.Library.Hoare

/-!
# Sessions

A run is a sequence of actions on one directory: open the database, call its
methods, drop the handle, or lose the process. Every action comes with what the
operating system does during it.
-/

namespace AiDb

open Compaction Library

/-- A call on an open database. `flushTables` is `flush` up to the point where
it looks for a compaction. -/
inductive Call
  | put (key value : Bytes)
  | delete (key : Bytes)
  | write (batch : List WriteOp)
  | flushTables
  | maybeTriggerCompaction
  | flush
  | close

def flushTables : M Unit := do
  flushMemtables
  rotateWal

def Call.run : Call → M Unit
  | .put key value => AiDb.put key value
  | .delete key => AiDb.delete key
  | .write batch => AiDb.write batch
  | .flushTables => AiDb.flushTables
  | .maybeTriggerCompaction => AiDb.maybeTriggerCompaction
  | .flush => AiDb.flush
  | .close => AiDb.close

def Call.ops : Call → List WriteOp
  | .put key value => [.put key value]
  | .delete key => [.delete key]
  | .write batch => batch
  | _ => []

/-- What the operating system does during one action. -/
structure Env where
  faults : List Fault
  unreadable : Nat → Nat → Bool

def Env.calm : Env := ⟨[], fun _ _ => false⟩

def World.enter (w : World) (env : Env) : World :=
  { w with faults := env.faults, unreadable := env.unreadable }

inductive Action
  | openDb (options : Options)
  | call (c : Call)
  | drop
  | crash

structure State where
  db : Option DB
  world : World

/-- A call leaves the handle open when it returns, also with an error. -/
def State.after (r : EStateM.Result Exit Sys Unit) : Except Exit Unit × State :=
  match r with
  | .ok () s => (.ok (), ⟨some s.db, s.world⟩)
  | .error (.error e) s => (.error (.error e), ⟨some s.db, s.world⟩)
  | .error e s => (.error e, ⟨none, s.world⟩)

def State.exec (s : State) (env : Env) (a : Action) : Except Exit Unit × State :=
  let w := s.world.enter env
  match a, s.db with
  | .openDb options, none =>
    match AiDb.openDb options w with
    | .ok db w => (.ok (), ⟨some db, w⟩)
    | .error e w => (.error e, ⟨none, w⟩)
  | .call c, some db => State.after (c.run ⟨db, w⟩)
  | .drop, some db =>
    match dropDb ⟨db, w⟩ with
    | .ok () s => (.ok (), ⟨none, s.world⟩)
    | .error e s => (.error e, ⟨none, s.world⟩)
  | .crash, some _ => (.ok (), ⟨none, w⟩)
  | _, _ => (.ok (), s)

def State.runs (s : State) : List (Env × Action) → State
  | [] => s
  | (env, a) :: rest => (s.exec env a).2.runs rest

def World.empty (len : CompressedLen) : World :=
  ⟨⟨true, ∅, [], ∅, none⟩, [], fun _ _ => false, len, 0, 0, []⟩

def State.init (len : CompressedLen) : State := ⟨none, World.empty len⟩

/-- The default options without compression. -/
def Options.plain : Options := { Options.default with compression := .none }

def CompressedLen.unused : CompressedLen := fun _ _ => 0

/-- The states a run from an empty directory passes through. -/
def State.Reachable (len : CompressedLen) (s : State) : Prop := ∃ run, (State.init len).runs run = s

-- ---------------------------------------------------------------------------
-- Invariants of runs
-- ---------------------------------------------------------------------------

/-- Every step of a run meets the condition in the state it starts from. -/
def State.Along (P : State → Env → Action → Prop) : State → List (Env × Action) → Prop
  | _, [] => True
  | s, (env, a) :: rest => P s env a ∧ State.Along P (s.exec env a).2 rest

def State.checkAlong (check : State → Env → Action → Bool) : State → List (Env × Action) → Bool
  | _, [] => true
  | s, (env, a) :: rest => check s env a && State.checkAlong check (s.exec env a).2 rest

theorem State.along_of_check {P : State → Env → Action → Prop} {check : State → Env → Action → Bool} {s : State}
    (hP : ∀ s env a, check s env a = true → P s env a) (h : s.checkAlong check run = true) : s.Along P run := by
  induction run generalizing s with
  | nil => trivial
  | cons x run ih =>
    rw [State.checkAlong, Bool.and_eq_true] at h
    exact ⟨hP _ _ _ h.1, ih h.2⟩

theorem State.along_true {s : State} (run : List (Env × Action)) : s.Along (fun _ _ _ => True) run := by
  induction run generalizing s with
  | nil => trivial
  | cons x run ih => exact ⟨trivial, ih⟩

theorem State.along_append {P : State → Env → Action → Prop} {s : State} (hpre : s.Along P pre)
    (hpost : (s.runs pre).Along P post) : s.Along P (pre ++ post) := by
  induction pre generalizing s with
  | nil => exact hpost
  | cons x pre ih => exact ⟨hpre.1, ih hpre.2 hpost⟩

theorem State.along_isPrefix {P : State → Env → Action → Prop} {s : State} {pre run : List (Env × Action)}
    (h : s.Along P run) (hpre : pre <+: run) : s.Along P pre := by
  induction pre generalizing s run with
  | nil => trivial
  | cons x pre ih =>
    obtain ⟨rest, rfl⟩ := hpre
    exact ⟨h.1, ih h.2 (List.prefix_append pre rest)⟩

/-- `J` holds while the database is open, `K` while it is not. -/
def State.Holds (J : Sys → Prop) (K : World → Prop) (s : State) : Prop :=
  match s.db with
  | some db => J ⟨db, s.world⟩
  | none => K s.world

/-- What every step of a session keeps, as long as it meets `P`. -/
structure Invariant (J : Sys → Prop) (K : World → Prop) (P : State → Env → Action → Prop) : Prop where
  leave : J s → K s.world
  enterOpen : J ⟨db, w⟩ → J ⟨db, w.enter env⟩
  enterClosed : K w → K (w.enter env)
  opened : K w → P ⟨none, w⟩ env (.openDb o) →
    Triple (AiDb.openDb o) (w.enter env) (fun db w' => J ⟨db, w'⟩) (fun _ => K)
  called : J ⟨db, w⟩ → P ⟨some db, w⟩ env (.call c) →
    Triple c.run ⟨db, w.enter env⟩ (fun _ => J) (fun _ => J)
  dropped : J ⟨db, w⟩ → P ⟨some db, w⟩ env .drop →
    Triple dropDb ⟨db, w.enter env⟩ (fun _ s => K s.world) (fun _ s => K s.world)

theorem State.holds_after {J : Sys → Prop} {K : World → Prop} (hleave : ∀ s, J s → K s.world)
    {m : M Unit} {s : Sys} (h : Triple m s (fun _ => J) (fun _ => J)) :
    (State.after (m s)).2.Holds J K := by
  unfold Triple at h
  cases hr : m s with
  | ok a s' => rw [hr] at h; exact h
  | error e s' =>
    rw [hr] at h
    cases e with
    | error err => exact h
    | panic => exact hleave s' h
    | crash => exact hleave s' h

variable {J : Sys → Prop} {K : World → Prop} {P : State → Env → Action → Prop}

theorem Invariant.exec {s : State} (h : Invariant J K P) (hs : s.Holds J K) (hP : P s env a) :
    (s.exec env a).2.Holds J K := by
  obtain ⟨db, w⟩ := s
  unfold State.exec
  cases db with
  | none =>
    cases a with
    | openDb o =>
      have hopen := h.opened hs hP
      unfold Triple at hopen
      dsimp only
      cases hr : AiDb.openDb o (w.enter env) with
      | ok db w' => rw [hr] at hopen; exact hopen
      | error e w' => rw [hr] at hopen; exact hopen
    | _ => exact hs
  | some db =>
    cases a with
    | openDb o => exact hs
    | call c => exact State.holds_after (fun _ => h.leave) (h.called hs hP)
    | drop =>
      have hdrop := h.dropped hs hP
      unfold Triple at hdrop
      dsimp only
      cases hr : dropDb ⟨db, w.enter env⟩ with
      | ok a s' => rw [hr] at hdrop; exact hdrop
      | error e s' => rw [hr] at hdrop; exact hdrop
    | crash => exact h.enterClosed (h.leave hs)

theorem Invariant.runs {s : State} (h : Invariant J K P) (hs : s.Holds J K) (hP : s.Along P run) :
    (s.runs run).Holds J K := by
  induction run generalizing s with
  | nil => exact hs
  | cons step rest ih => exact ih (h.exec hs hP.1) hP.2

-- ---------------------------------------------------------------------------
-- One session
-- ---------------------------------------------------------------------------

/-- Calls of one session that all return `Ok`, with nothing failing. -/
def Sys.runs (s : Sys) : List Call → Option Sys
  | [] => some s
  | c :: cs =>
    match c.run s with
    | .ok () s => s.runs cs
    | .error _ _ => none

def Sys.fresh (len : CompressedLen) (options : Options) : Option Sys :=
  match AiDb.openDb options (World.empty len) with
  | .ok db w => some ⟨db, w⟩
  | .error _ _ => none

/-- A session on an empty directory in which every call returns `Ok`. -/
def Sys.session (len : CompressedLen) (options : Options) (calls : List Call) : Option Sys :=
  (Sys.fresh len options).bind (·.runs calls)

theorem Sys.runs_snoc {s : Sys} : s.runs (cs ++ [c]) = some s'' ↔
    ∃ s', s.runs cs = some s' ∧ c.run s' = .ok () s'' := by
  induction cs generalizing s with
  | nil =>
    simp only [List.nil_append, Sys.runs, Option.some.injEq, exists_eq_left']
    split <;> simp_all
  | cons c' cs ih =>
    simp only [List.cons_append, Sys.runs]
    split
    · exact ih
    · simp

theorem Sys.session_snoc : Sys.session len o (cs ++ [c]) = some s' ↔
    ∃ s, Sys.session len o cs = some s ∧ c.run s = .ok () s' := by
  unfold Sys.session
  cases Sys.fresh len o with
  | none => simp
  | some s => exact Sys.runs_snoc

theorem Sys.session_induction {I : List Call → Sys → Prop} (hfresh : ∀ s, Sys.fresh len o = some s → I [] s)
    (hcall : ∀ cs c s s', Sys.session len o cs = some s → I cs s → c.run s = .ok () s' → I (cs ++ [c]) s')
    (h : Sys.session len o cs = some s) : I cs s := by
  induction cs using List.reverseRecOn generalizing s with
  | nil =>
    unfold Sys.session at h
    cases hs : Sys.fresh len o with
    | none => simp [hs] at h
    | some s0 =>
      simp only [hs, Option.bind_some, Sys.runs, Option.some.injEq] at h
      exact h ▸ hfresh s0 hs
  | append_singleton cs c ih =>
    obtain ⟨s1, hs1, hrun⟩ := Sys.session_snoc.mp h
    exact hcall cs c s1 s hs1 (ih hs1) hrun

end AiDb
