import AiDb.Reached

/-!
# What a compaction records

A compaction writes its table, then logs the edits that put it into the version
set and take its inputs out, and only then changes the levels of the handle. Each
edit is applied in memory before its line is written.
-/

namespace AiDb

open Library Compaction

-- ---------------------------------------------------------------------------
-- The parts of a compaction
-- ---------------------------------------------------------------------------

/-- `DB::compact` up to the first edit: the output table and what is recorded of it, or
nothing when no entry was left. -/
def compactOutput (task : CompactionTask) : M (Option (SSTableReader × FileMetaData)) := do
  let fileNumber ← takeFileNumber
  let options := (← get).db.options
  let result ← onWorld (runJob task.inputs task.outputLevel options.blockSize fileNumber)
  if result.fileNumber = 0 then return none
  let reader ← onWorld (openWithCache fileNumber)
  let smallest ← onWorld (liftExcept (reader.smallestKey ((← get).world.readBlock reader.file)))
  match smallest, reader.largestKey with
  | some smallestKey, some largestKey =>
    return some (reader, ⟨result.fileNumber, reader.fileSize, smallestKey, largestKey⟩)
  | _, _ => throw (.error (.internal "New SSTable has no keys"))

def compactionEdits (task : CompactionTask) (file : FileMetaData) : List VersionEdit :=
  .addFile task.outputLevel file :: task.inputs.map fun r => .deleteFile task.level r.fileNumber

def logEdits : List VersionEdit → M Unit
  | [] => return ()
  | e :: es => do
    logEdit e
    logEdits es

def installOutput (task : CompactionTask) (reader : SSTableReader) : M Unit := do
  if task.level < (← get).db.sstables.length ∧ task.outputLevel < (← get).db.sstables.length then
    modifyDb fun db => { db with sstables := updateLevels task reader db.sstables }
    onWorld (removeInputs task.inputs)
  else throw .panic

theorem logDeletes_eq (level : Nat) (rs : List SSTableReader) :
    logDeletes level rs = logEdits (rs.map fun r => .deleteFile level r.fileNumber) := by
  induction rs with
  | nil => rfl
  | cons r rs ih => simp only [logDeletes, List.map_cons, logEdits, ih]

def finishCompaction (task : CompactionTask) : Option (SSTableReader × FileMetaData) → M Unit
  | none => return ()
  | some (reader, file) => do
    logEdits (compactionEdits task file)
    installOutput task reader

theorem compact_eq (task : CompactionTask) : compact task = compactOutput task >>= finishCompaction task := by
  unfold compact compactOutput
  simp only [bind_assoc]
  refine congrArg _ (funext fun n => congrArg _ (funext fun s => congrArg _ (funext fun result => ?_)))
  split
  · rfl
  · simp only [bind_assoc]
    refine congrArg _ (funext fun reader => congrArg _ (funext fun s' => congrArg _ (funext fun smallest => ?_)))
    cases smallest with
    | none => rfl
    | some smallestKey =>
      cases reader.largestKey with
      | none => rfl
      | some largestKey =>
        simp only [pure_bind, finishCompaction, compactionEdits, logEdits, logDeletes_eq, installOutput, bind_assoc]

-- ---------------------------------------------------------------------------
-- Edits
-- ---------------------------------------------------------------------------

def applyEdits (vs : VersionSet) : List VersionEdit → Option VersionSet
  | [] => some vs
  | e :: es => (vs.applyEdit e).bind (applyEdits · es)

variable {s s' : Sys} {vs vs' : VersionSet}

def Sys.Recorded (s : Sys) (vs : VersionSet) (s' : Sys) : Prop := s'.db = { s.db with versionSet := vs }

theorem onWorld_db (m : W α) (s : Sys) : Triple (onWorld m) s (fun _ s' => s'.db = s.db) (fun _ s' => s'.db = s.db) := by
  unfold Triple onWorld
  cases m s.world <;> rfl

theorem logEdit_recorded (e : VersionEdit) (s : Sys) :
    Triple (logEdit e) s (fun _ s' => ∃ vs, s.db.versionSet.applyEdit e = some vs ∧ s.Recorded vs s')
      (fun x s' => x ≠ .panic → ∃ vs, s.db.versionSet.applyEdit e = some vs ∧ s.Recorded vs s') := by
  unfold logEdit
  refine Triple.get_bind ?_
  cases happly : s.db.versionSet.applyEdit e with
  | none => exact Triple.throw fun h => absurd rfl h
  | some vs =>
    refine Triple.modify_bind ?_
    refine ((onWorld_db _ _).mono (fun _ _ => id) fun _ s' hdb _ => ⟨vs, rfl, hdb⟩).bind fun _ s1 h1 => ?_
    exact (onWorld_db _ _).mono (fun _ _ hdb => ⟨vs, rfl, hdb.trans h1⟩) fun _ _ hdb _ => ⟨vs, rfl, hdb.trans h1⟩

/-- Where the edits stop, those before and the one whose line failed are applied. -/
theorem logEdits_recorded (es : List VersionEdit) (s : Sys) :
    Triple (logEdits es) s (fun _ s' => ∃ vs, applyEdits s.db.versionSet es = some vs ∧ s.Recorded vs s')
      (fun x s' => x ≠ .panic → ∃ done vs, done <+: es ∧ done ≠ [] ∧ applyEdits s.db.versionSet done = some vs ∧
        s.Recorded vs s') := by
  induction es generalizing s with
  | nil => exact Triple.pure ⟨s.db.versionSet, rfl, rfl⟩
  | cons e es ih =>
    refine ((logEdit_recorded e s).mono (fun _ _ => id) fun x s' h hx => ?_).bind ?_
    · obtain ⟨vs, hvs, hs'⟩ := h hx
      exact ⟨[e], vs, by simp, by simp, by simp [applyEdits, hvs], hs'⟩
    · rintro _ s1 ⟨vs1, hvs1, hs1⟩
      have hset : s1.db.versionSet = vs1 := by rw [hs1]
      refine (ih s1).mono ?_ ?_
      · rintro _ s' ⟨vs, hvs, hs'⟩
        rw [hset] at hvs
        exact ⟨vs, by simp [applyEdits, hvs1, hvs], by rw [Sys.Recorded, hs', hs1]⟩
      · intro x s' h hx
        obtain ⟨done, vs, hpre, -, hvs, hs'⟩ := h hx
        rw [hset] at hvs
        exact ⟨e :: done, vs, by simpa using hpre, by simp, by simp [applyEdits, hvs1, hvs],
          by rw [Sys.Recorded, hs', hs1]⟩

theorem applyEdits_deletes {ns : List Nat} (h : applyEdits vs (ns.map (.deleteFile level)) = some vs') :
    vs'.current = vs.current.modify level (·.filter (·.fileNumber ∉ ns)) := by
  induction ns generalizing vs with
  | nil =>
    simp only [List.map_nil, applyEdits, Option.some.injEq] at h
    subst h
    have hid : (fun l : List FileMetaData => l.filter (·.fileNumber ∉ [])) = id := by
      funext l
      simp
    rw [hid, List.modify_id]
  | cons n ns ih =>
    simp only [List.map_cons, applyEdits, VersionSet.applyEdit, Version.apply] at h
    split_ifs at h with hlevel
    · simp only [Option.map_some, Option.bind_some] at h
      rw [ih h, List.modify_modify_eq]
      congr 1
      funext l
      simp [List.filter_filter, not_or, Bool.and_comm]
    · simp at h

theorem applyEdits_compaction {task : CompactionTask} {rs : List SSTableReader} (h : applyEdits vs (.addFile task.outputLevel file ::
      (rs.map fun r => .deleteFile task.level r.fileNumber)) = some vs') :
    vs'.current = (vs.current.modify task.outputLevel (· ++ [file])).modify task.level
      (·.filter (·.fileNumber ∉ rs.map SSTableReader.fileNumber)) := by
  simp only [applyEdits, VersionSet.applyEdit, Version.apply] at h
  split_ifs at h with hlevel
  · simp only [Option.map_some, Option.bind_some] at h
    have hns : rs.map (fun r => VersionEdit.deleteFile task.level r.fileNumber) =
        (rs.map SSTableReader.fileNumber).map (.deleteFile task.level) := by simp
    rw [hns] at h
    exact applyEdits_deletes h
  · simp at h

/-- Wherever the edits of a compaction stop, the output is already in its level. -/
theorem applyEdits_strictly {task : CompactionTask} (hlevel : task.level ≠ task.outputLevel)
    (hpre : done <+: compactionEdits task file) (hne : done ≠ []) (h : applyEdits vs done = some vs') :
    (vs'.current.getD task.outputLevel []).length = (vs.current.getD task.outputLevel []).length + 1 := by
  obtain ⟨rs, rfl⟩ : ∃ rs : List SSTableReader, done =
      .addFile task.outputLevel file :: rs.map fun r => .deleteFile task.level r.fileNumber := by
    cases done with
    | nil => exact absurd rfl hne
    | cons e es =>
      obtain ⟨rfl, htail⟩ := List.cons_prefix_cons.mp hpre
      obtain ⟨rs, -, rfl⟩ := List.prefix_map_iff.mp htail
      exact ⟨rs, rfl⟩
  have hin : task.outputLevel < vs.current.length := by
    by_contra hout
    simp [applyEdits, VersionSet.applyEdit, Version.apply, hout] at h
  simp [applyEdits_compaction h, List.getD_eq_getElem?_getD, hlevel, hin]

-- ---------------------------------------------------------------------------
-- A line that cannot be written
-- ---------------------------------------------------------------------------

theorem compactOutput_db (task : CompactionTask) (s : Sys) :
    Triple (compactOutput task) s (fun _ s' => s'.db = s.handOut.db) (fun _ s' => s'.db = s.handOut.db) := by
  have hworld : ∀ {α : Type} (m : W α) (s1 : Sys), s1.db = s.handOut.db →
      Triple (onWorld m) s1 (fun _ s' => s'.db = s.handOut.db) (fun _ s' => s'.db = s.handOut.db) :=
    fun m s1 h1 => (onWorld_db m s1).mono (fun _ _ h => h.trans h1) (fun _ _ h => h.trans h1)
  unfold compactOutput
  refine takeFileNumber_bind (Triple.get_bind ?_)
  refine (hworld _ _ rfl).bind fun result s1 h1 => ?_
  split
  · exact Triple.pure h1
  refine (hworld _ _ h1).bind fun reader s2 h2 => Triple.get_bind ?_
  refine (hworld _ _ h2).bind fun smallest s3 h3 => ?_
  split
  · exact Triple.pure h3
  · exact Triple.throw h3

theorem pickCompaction_level_ne (h : pickCompaction maxLevels levels = some (some task)) :
    task.level ≠ task.outputLevel := by
  rcases pickCompaction_cases h with ⟨_, _, -, -, rfl⟩ | ⟨-, i, _, _, -, -, rfl⟩
  · exact Nat.zero_ne_one
  · exact Nat.ne_of_lt (Nat.lt_succ_self i)

/-- Whichever line of the manifest cannot be written: `compact` fails with the levels as
they were, and the output table in the version. -/
theorem compact_record_fails (s s1 s2 : Sys) (task : CompactionTask) (reader : SSTableReader) (file : FileMetaData)
    (e : Error) (hpick : pickCompaction s.db.options.maxLevels s.db.sstables = some (some task))
    (hout : compactOutput task s = .ok (some (reader, file)) s1)
    (hfail : logEdits (compactionEdits task file) s1 = .error (.error e) s2) :
    compact task s = .error (.error e) s2 ∧ s2.db.sstables = s.db.sstables ∧
      s2.db.versionSet.current ≠ s.db.versionSet.current := by
  have hdb1 : s1.db = s.handOut.db := (compactOutput_db task s).ok hout
  obtain ⟨done, vs, hpre, hne, hvs, hs2⟩ := (logEdits_recorded _ s1).error hfail (by simp)
  refine ⟨?_, ?_, fun heq => ?_⟩
  · rw [compact_eq]
    simp only [bind, EStateM.bind, hout, finishCompaction, hfail]
  · rw [hs2, hdb1]
    rfl
  · have hlength := applyEdits_strictly (pickCompaction_level_ne hpick) hpre hne hvs
    have hset : s1.db.versionSet = s.db.versionSet := by rw [hdb1]; rfl
    have hset2 : s2.db.versionSet = vs := by rw [hs2]
    rw [hset2] at heq
    rw [hset, heq] at hlength
    exact absurd hlength (Nat.ne_of_lt (Nat.lt_succ_self _))

def State.fourTables : State :=
  (State.init .unused).runs ((.calm, .openDb .plain) ::
    (List.replicate 4 [(.calm, .call (.put [97] [1])), (.calm, .call .flushTables)]).flatten)

def Env.manifestFails (n : Nat) : Env := ⟨List.replicate (3 + n) .none ++ [.fail 0], fun _ _ => false⟩

def Sys.stopsAtEdit (s : Sys) : Bool :=
  match pickCompaction s.db.options.maxLevels s.db.sstables with
  | some (some task) =>
    match compactOutput task s with
    | .ok (some (_, file)) s1 =>
      match logEdits (compactionEdits task file) s1 with
      | .error (.error _) _ => true
      | _ => false
    | _ => false
  | _ => false

theorem Sys.stopsAtEdit_eq (h : s.stopsAtEdit = true) : ∃ task reader file s1 e s2,
    pickCompaction s.db.options.maxLevels s.db.sstables = some (some task) ∧
      compactOutput task s = .ok (some (reader, file)) s1 ∧
      logEdits (compactionEdits task file) s1 = .error (.error e) s2 := by
  unfold Sys.stopsAtEdit at h
  repeat' split at h
  all_goals try cases h
  exact ⟨_, _, _, _, _, _, ‹_›, ‹_›, ‹_›⟩

theorem compact_record_fails_fourTables : ∃ db task s2 e, State.fourTables.db = some db ∧
    compact task ⟨db, State.fourTables.world.enter (.manifestFails 2)⟩ = .error (.error e) s2 ∧
    s2.db.sstables = db.sstables ∧ s2.db.versionSet.current ≠ db.versionSet.current := by
  have hstops : (State.fourTables.db.map fun db =>
      Sys.stopsAtEdit ⟨db, State.fourTables.world.enter (.manifestFails 2)⟩) = some true := by decide +kernel
  obtain ⟨db, hdb, hstops⟩ := Option.map_eq_some_iff.mp hstops
  obtain ⟨task, reader, file, s1, e, s2, hpick, hout, hfail⟩ := Sys.stopsAtEdit_eq hstops
  exact ⟨db, task, s2, e, hdb, compact_record_fails _ s1 s2 task reader file e hpick hout hfail⟩

theorem compact_record_changes_version :
    (State.fourTables.exec (.manifestFails 0) (.call .maybeTriggerCompaction)).1 = .error (.error (.io .other)) ∧
    (State.fourTables.exec (.manifestFails 0) (.call .maybeTriggerCompaction)).2.db.map (·.versionSet.current) ≠
      State.fourTables.db.map (·.versionSet.current) := by
  constructor <;> decide +kernel

end AiDb
