import AiDb.Library.Checked
import AiDb.Library.LineLog
import AiDb.Recording

/-!
# The bytes of the manifest

Every edit is one line of JSON. Recovery reads line by line and gives up at the first
line that does not parse, also when it is the last one and was only begun. What
`serde_json` prints and parses is a parameter.
-/

namespace AiDb.Compaction

open Library Library.Outcome

/-- `serde_json::to_string` and `from_str` for version edits, an error by its message. -/
structure Serde where
  toJson : VersionEdit → String
  fromJson : String → Except String VersionEdit

-- ---------------------------------------------------------------------------
-- Text
-- ---------------------------------------------------------------------------

def bytesOf (s : String) : Bytes := s.toUTF8.data.toList

def textOf (bytes : Bytes) : Option String := String.fromUTF8? ⟨bytes.toArray⟩

def isWhitespace (c : Char) : Bool :=
  let n := c.toNat
  9 ≤ n && n ≤ 13 || n = 32 || n = 0x85 || n = 0xA0 || n = 0x1680 || 0x2000 ≤ n && n ≤ 0x200A ||
    n = 0x2028 || n = 0x2029 || n = 0x202F || n = 0x205F || n = 0x3000

def isBlank (s : String) : Bool := s.toList.all isWhitespace

/-- What `BufRead::lines` takes off a line with the newline: a carriage return before it. -/
def stripReturn (line : Bytes) : Bytes := if line.getLast? = some 13 then line.dropLast else line

@[simp] theorem textOf_bytesOf (s : String) : textOf (bytesOf s) = some s := by
  unfold textOf bytesOf
  simp [String.fromUTF8?, s.isValidUTF8]
  rfl

theorem bytesOf_of_textOf (h : textOf line = some s) : bytesOf s = line := by
  unfold textOf String.fromUTF8? at h
  split at h
  · obtain rfl := Option.some.inj h
    simp [bytesOf, String.fromUTF8]
  · cases h

-- ---------------------------------------------------------------------------
-- The version set and its file
-- ---------------------------------------------------------------------------

/-- `VersionSet` with the bytes of its manifest file. -/
structure ManifestSet where
  maxLevels : Nat
  versions : VersionSet
  manifest : Bytes
  deriving DecidableEq

section Serde

variable (serde : Serde)

def Serde.line (edit : VersionEdit) : Bytes := bytesOf (serde.toJson edit)

def recoverLine (vs : VersionSet) (line : Bytes) : Outcome Error VersionSet :=
  match textOf line with
  | none => .err (.io .other)
  | some text =>
    if isBlank text then .ok vs
    else
      match serde.fromJson text with
      | .error e => .err (.corruption ("Failed to parse manifest entry: " ++ e))
      | .ok edit =>
        match vs.applyEdit edit with
        | some vs => .ok vs
        | none => .stopped

def recoverAll (vs : VersionSet) : List Bytes → Outcome Error VersionSet
  | [] => .ok vs
  | line :: rest => do recoverAll (← recoverLine serde vs line) rest

/-- `VersionSet::new`; `manifest` is the file that is there. -/
def ManifestSet.new (maxLevels : Nat) (manifest : Option Bytes) : Outcome Error ManifestSet :=
  match manifest with
  | some file => do return ⟨maxLevels, ← recoverAll serde (.new maxLevels) (lines 10 stripReturn file), file⟩
  | none => .ok ⟨maxLevels, .new maxLevels, []⟩

/-- `VersionSet::log_edit`, when the write succeeds. -/
def ManifestSet.logEdit (m : ManifestSet) (edit : VersionEdit) : Outcome Error ManifestSet :=
  match m.versions.applyEdit edit with
  | some vs => .ok { m with versions := vs, manifest := m.manifest ++ serde.line edit ++ [10] }
  | none => .stopped

def ManifestSet.logEdits (m : ManifestSet) : List VersionEdit → Outcome Error ManifestSet
  | [] => .ok m
  | edit :: edits => do logEdits (← m.logEdit serde edit) edits

end Serde

/-- What `serde_json` does with these edits: it prints each on one line, parses the line
back and no proper prefix of it. -/
structure Serde.LawfulOn (serde : Serde) (edits : List VersionEdit) : Prop where
  line : ∀ edit ∈ edits, 10 ∉ serde.line edit ∧ 13 ∉ serde.line edit
  text : ∀ edit ∈ edits, isBlank (serde.toJson edit) = false
  parse : ∀ edit ∈ edits, serde.fromJson (serde.toJson edit) = .ok edit
  refuse : ∀ edit ∈ edits, ∀ s, bytesOf s <+: serde.line edit → s ≠ serde.toJson edit →
    ∃ msg, serde.fromJson s = .error msg

theorem Serde.LawfulOn.mono {serde : Serde} {xs ys : List VersionEdit} (h : serde.LawfulOn ys) (hsub : xs ⊆ ys) :
    serde.LawfulOn xs where
  line edit he := h.line edit (hsub he)
  text edit he := h.text edit (hsub he)
  parse edit he := h.parse edit (hsub he)
  refuse edit he := h.refuse edit (hsub he)

/-- The level that the edit names, if it names one, is below `maxLevels`. -/
def VersionEdit.Below (maxLevels : Nat) : VersionEdit → Prop
  | .addFile level _ => level < maxLevels
  | .deleteFile level _ => level < maxLevels
  | _ => True

-- ---------------------------------------------------------------------------
-- Edits in order
-- ---------------------------------------------------------------------------

theorem applyEdit_isSome (vs : VersionSet) (edit : VersionEdit) :
    (vs.applyEdit edit).isSome ↔ edit.Below vs.current.length := by
  cases edit <;> simp [VersionSet.applyEdit, Version.apply, VersionEdit.Below]

theorem applyEdit_length {vs vs' : VersionSet} {edit : VersionEdit} (h : vs.applyEdit edit = some vs') :
    vs'.current.length = vs.current.length := by
  cases edit <;> simp only [VersionSet.applyEdit, Version.apply, Option.map_eq_some_iff, Option.ite_none_right_eq_some,
    Option.some.injEq] at h
  · obtain ⟨v, ⟨-, rfl⟩, rfl⟩ := h
    simp
  · obtain ⟨v, ⟨-, rfl⟩, rfl⟩ := h
    simp
  · rw [← h]
  · rw [← h]

theorem applyEdits_isSome (vs : VersionSet) (edits : List VersionEdit) :
    (applyEdits vs edits).isSome ↔ ∀ edit ∈ edits, edit.Below vs.current.length := by
  induction edits generalizing vs with
  | nil => simp [applyEdits]
  | cons edit edits ih =>
    rw [applyEdits, List.forall_mem_cons, ← applyEdit_isSome]
    cases happly : vs.applyEdit edit with
    | none => simp
    | some vs' => simp [ih, applyEdit_length happly]

section Serde

variable {serde : Serde}

theorem recoverLine_toJson {edits : List VersionEdit} (h : serde.LawfulOn edits) (hmem : edit ∈ edits) (vs : VersionSet) :
    recoverLine serde vs (serde.line edit) =
      match vs.applyEdit edit with
      | some vs => .ok vs
      | none => .stopped := by
  rw [Serde.line, recoverLine, textOf_bytesOf]
  simp only [h.text edit hmem, h.parse edit hmem]
  rfl

theorem recoverAll_append (vs : VersionSet) (xs ys : List Bytes) :
    recoverAll serde vs (xs ++ ys) = recoverAll serde vs xs >>= fun vs => recoverAll serde vs ys := by
  induction xs generalizing vs with
  | nil => rfl
  | cons x xs ih =>
    rw [List.cons_append, recoverAll, recoverAll]
    cases recoverLine serde vs x with
    | ok vs' => exact ih vs'
    | err e => rfl
    | stopped => rfl

theorem recoverAll_toJson {edits : List VersionEdit} (h : serde.LawfulOn edits) {es : List VersionEdit} (hes : es ⊆ edits)
    (vs : VersionSet) :
    recoverAll serde vs (es.map serde.line) =
      match applyEdits vs es with
      | some vs => .ok vs
      | none => .stopped := by
  induction es generalizing vs with
  | nil => rfl
  | cons edit es ih =>
    rw [List.map_cons, recoverAll, recoverLine_toJson h (hes (by simp)), applyEdits]
    cases happly : vs.applyEdit edit with
    | none => rfl
    | some vs' => exact ih (fun e he => hes (List.mem_cons_of_mem _ he)) vs'

theorem recoverLine_torn {edits : List VersionEdit} (h : serde.LawfulOn edits) (hmem : edit ∈ edits)
    (hpart : line <+: serde.line edit) (hne : line ≠ serde.line edit) (vs vs' : VersionSet) :
    recoverLine serde vs line = .ok vs' ↔ vs = vs' ∧ (textOf line).any isBlank := by
  rw [recoverLine]
  cases htext : textOf line with
  | none => simp
  | some s =>
    have hbytes := bytesOf_of_textOf htext
    by_cases hblank : isBlank s
    · simp [hblank]
    · obtain ⟨msg, hmsg⟩ := h.refuse edit hmem s (hbytes ▸ hpart) fun heq => hne (by rw [← hbytes, heq]; rfl)
      simp [hblank, hmsg]

theorem logEdits_eq (m : ManifestSet) (edits : List VersionEdit) :
    m.logEdits serde edits =
      match applyEdits m.versions edits with
      | some vs => .ok { m with versions := vs, manifest := m.manifest ++ encodeLines 10 serde.line edits }
      | none => .stopped := by
  induction edits generalizing m with
  | nil => simp [ManifestSet.logEdits, applyEdits, encodeLines]
  | cons edit edits ih =>
    rw [ManifestSet.logEdits, ManifestSet.logEdit, applyEdits]
    cases happly : m.versions.applyEdit edit with
    | none => rfl
    | some vs =>
      rw [ok_bind, ih]
      simp [encodeLines, Serde.line]

theorem stripReturn_line {edits : List VersionEdit} (h : serde.LawfulOn edits) (hmem : edit ∈ edits) :
    stripReturn (serde.line edit) = serde.line edit := by
  refine if_neg fun hlast => (h.line edit hmem).2 ?_
  exact List.mem_of_getLast? hlast

theorem line_ne_nil {edits : List VersionEdit} (h : serde.LawfulOn edits) (hmem : edit ∈ edits) : serde.line edit ≠ [] := by
  intro hnil
  have htext := h.text edit hmem
  have hempty : serde.toJson edit = "" := by
    have hsome := textOf_bytesOf (serde.toJson edit)
    rw [show bytesOf (serde.toJson edit) = [] from hnil] at hsome
    exact (Option.some.inj hsome).symm
  rw [hempty] at htext
  cases htext

theorem recoverAll_cut {edits : List VersionEdit} (h : serde.LawfulOn edits) (n : Nat) (vs : VersionSet) :
    recoverAll serde vs (lines 10 stripReturn ((encodeLines 10 serde.line edits).take n)) =
      match applyEdits vs (wholeIn serde.line edits n) with
      | some vs => recoverAll serde vs (if tornIn serde.line edits n = [] then [] else [tornIn serde.line edits n])
      | none => .stopped := by
  rw [lines_take (fun edit he => (h.line edit he).1) (fun edit he => stripReturn_line h he) (fun edit he => line_ne_nil h he),
    recoverAll_append, recoverAll_toJson h (wholeIn_subset _ _ _)]
  cases applyEdits vs (wholeIn serde.line edits n) <;> rfl

theorem recoverAll_tail {edits : List VersionEdit} (h : serde.LawfulOn edits) (n : Nat) (vs vs' : VersionSet) :
    recoverAll serde vs (if tornIn serde.line edits n = [] then [] else [tornIn serde.line edits n]) = .ok vs' ↔
      vs = vs' ∧ (textOf (tornIn serde.line edits n)).any isBlank := by
  by_cases hnil : tornIn serde.line edits n = []
  · rw [if_pos hnil, hnil]
    have htext : textOf [] = some "" := textOf_bytesOf ""
    simp [recoverAll, htext, isBlank]
  · obtain ⟨edit, hmem, hpart, hne⟩ := tornIn_prefix hnil
    rw [if_neg hnil, ← recoverLine_torn h hmem hpart hne, recoverAll, Outcome.bind_eq_ok]
    simp [recoverAll]

end Serde

-- ---------------------------------------------------------------------------
-- A torn write
-- ---------------------------------------------------------------------------

/-- After edits on a fresh manifest, recovery from a part of the file gives the edits
whose text is whole exactly when the rest of it is blank. -/
theorem recover_torn_iff (serde : Serde) (maxLevels : Nat) (edits : List VersionEdit) (hserde : serde.LawfulOn edits)
    (hlevels : ∀ edit ∈ edits, edit.Below maxLevels) (n : Nat) :
    ∃ m vs, (ManifestSet.new serde maxLevels none >>= (·.logEdits serde edits)) = .ok m ∧
      applyEdits (.new maxLevels) (wholeIn serde.line edits n) = some vs ∧
        (ManifestSet.new serde maxLevels (some (m.manifest.take n)) = .ok ⟨maxLevels, vs, m.manifest.take n⟩ ↔
          (textOf (tornIn serde.line edits n)).any isBlank) := by
  have hlength : (VersionSet.new maxLevels).current.length = maxLevels := by simp [VersionSet.new, Version.new]
  obtain ⟨last, hlast⟩ := Option.isSome_iff_exists.mp ((applyEdits_isSome (.new maxLevels) edits).mpr (by rwa [hlength]))
  obtain ⟨vs, hvs⟩ := Option.isSome_iff_exists.mp ((applyEdits_isSome (.new maxLevels) (wholeIn serde.line edits n)).mpr
    (by rw [hlength]; exact fun edit he => hlevels edit (wholeIn_subset _ _ _ he)))
  refine ⟨⟨maxLevels, last, encodeLines 10 serde.line edits⟩, vs, ?_, hvs, ?_⟩
  · rw [ManifestSet.new, ok_bind, logEdits_eq]
    simp [hlast]
  · dsimp only
    rw [ManifestSet.new, recoverAll_cut hserde, hvs]
    dsimp only
    rw [Outcome.bind_eq_ok]
    constructor
    · rintro ⟨vs', htail, hm⟩
      exact ((recoverAll_tail hserde n vs vs').mp htail).2
    · intro hblank
      exact ⟨vs, (recoverAll_tail hserde n vs vs).mpr ⟨rfl, hblank⟩, rfl⟩

def Serde.only (edit : VersionEdit) (text : String) : Serde where
  toJson _ := text
  fromJson s := if s = text then .ok edit else .error "EOF while parsing an object at line 1 column 1"

theorem lawfulOn_only {edit : VersionEdit} {text : String} (hline : 10 ∉ bytesOf text ∧ 13 ∉ bytesOf text)
    (htext : isBlank text = false) : (Serde.only edit text).LawfulOn [edit] where
  line _ _ := hline
  text _ _ := htext
  parse := by simp [Serde.only]
  refuse _ _ _ _ hne := ⟨_, if_neg hne⟩

def sequenceJson : String := "\x7b\"SetSequenceNumber\":5\x7d"

theorem recover_torn_iff_sequence : ∃ m vs, (ManifestSet.new (.only (.setSequenceNumber 5) sequenceJson) 7 none >>=
      (·.logEdits (.only (.setSequenceNumber 5) sequenceJson) [.setSequenceNumber 5])) = .ok m ∧
    applyEdits (.new 7) [.setSequenceNumber 5] = some vs ∧
      ManifestSet.new (.only (.setSequenceNumber 5) sequenceJson) 7 (some (m.manifest.take 23)) =
        .ok ⟨7, vs, m.manifest.take 23⟩ := by
  obtain ⟨m, vs, hm, hvs, hiff⟩ := recover_torn_iff (.only (.setSequenceNumber 5) sequenceJson) 7 [.setSequenceNumber 5]
    (lawfulOn_only (by decide +kernel) (by decide +kernel)) (by simp [VersionEdit.Below]) 23
  exact ⟨m, vs, hm, hvs, hiff.mpr (by decide +kernel)⟩

/-- The line was begun: the brace is in the file, the rest is not. -/
theorem not_recover_torn_begun : ∃ m e, (ManifestSet.new (.only (.setSequenceNumber 5) sequenceJson) 7 none >>=
      (·.logEdits (.only (.setSequenceNumber 5) sequenceJson) [.setSequenceNumber 5])) = .ok m ∧
    ManifestSet.new (.only (.setSequenceNumber 5) sequenceJson) 7 (some (m.manifest.take 1)) = .err e := by
  refine ⟨⟨7, .new 7, bytesOf sequenceJson ++ [10]⟩,
    .corruption "Failed to parse manifest entry: EOF while parsing an object at line 1 column 1", rfl, ?_⟩
  decide +kernel

-- ---------------------------------------------------------------------------
-- Another level count
-- ---------------------------------------------------------------------------

/-- Recovery with another level count returns exactly when every edit of the manifest
names a level below it. -/
theorem reopen_returns_iff (serde : Serde) (edits : List VersionEdit) (hserde : serde.LawfulOn edits) (maxLevels : Nat) :
    (ManifestSet.new serde maxLevels (some (encodeLines 10 serde.line edits))).Returns ↔
      ∀ edit ∈ edits, edit.Below maxLevels := by
  have hlength : (VersionSet.new maxLevels).current.length = maxLevels := by simp [VersionSet.new, Version.new]
  have hisSome := applyEdits_isSome (.new maxLevels) edits
  rw [hlength] at hisSome
  rw [← hisSome, ManifestSet.new, lines_encodeLines (fun edit he => (hserde.line edit he).1)
    (fun edit he => stripReturn_line hserde he), recoverAll_toJson hserde fun _ h => h]
  cases applyEdits (.new maxLevels) edits with
  | none => exact iff_of_false not_returns_stopped (by simp)
  | some vs => exact iff_of_true (returns_ok _) rfl

def deepFile : VersionEdit := .addFile 3 ⟨12, 900, [97], [98]⟩

def deepFileJson : String := "\x7b\"AddFile\":\x7b\"level\":3,\"file_number\":12,\"file_size\":900," ++
  "\"smallest_key\":[97],\"largest_key\":[98]\x7d\x7d"

theorem reopen_returns_iff_deep :
    (ManifestSet.new (.only deepFile deepFileJson) 4
      (some (encodeLines 10 (Serde.only deepFile deepFileJson).line [deepFile]))).Returns :=
  (reopen_returns_iff (.only deepFile deepFileJson) [deepFile] (lawfulOn_only (by decide +kernel) (by decide +kernel))
    4).mpr (by simp [deepFile, VersionEdit.Below])

theorem not_reopen_returns_shallow :
    ManifestSet.new (.only deepFile deepFileJson) 3
      (some (encodeLines 10 (Serde.only deepFile deepFileJson).line [deepFile])) = .stopped := by
  decide +kernel

end AiDb.Compaction
