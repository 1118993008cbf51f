import AiDb.Durability
import AiDb.FrontOrder
import AiDb.Library.Ranked
import AiDb.LoadOrder
import AiDb.Manifest
import AiDb.Recording
import AiDb.TornTails

/-!
# The directory as an archive

What a directory says about the writes that were made: its tables hold versions of the
keys, the later ones under the higher numbers, and the log holds what the tables may
not have. As long as that is so, an open finds the last write of every key, whichever
of the tables and entries were left over by a flush or a compaction that was cut off.
-/

namespace AiDb

open Library Compaction

variable {d d' d'' : Disk} {s s' : Sys} {w w' : World} {ops more : List WriteOp}

-- ---------------------------------------------------------------------------
-- Entries by table number
-- ---------------------------------------------------------------------------

def Disk.Has (d : Disk) (n : Nat) (e : Entry) : Prop :=
  ∃ file f, d.ssts.lookup n = some file ∧ d.files[file]? = some (.complete f) ∧ e ∈ f.entries

/-- The complete table `n` has a version of the key that was written at `stamp`. -/
def Disk.Stamps (d : Disk) (n : Nat) (key : Bytes) (stamp : Nat) : Prop :=
  ∃ e, d.Has n e ∧ e.key = key ∧ e.value.stamp = stamp

theorem Disk.tableHolds_iff : d.TableHolds key stamp ↔ Reaches d.Stamps key stamp := by
  constructor
  · rintro ⟨n, file, f, hlookup, hfile, e, he, hkey, hle⟩
    exact ⟨n, e.value.stamp, ⟨e, ⟨file, f, hlookup, hfile, he⟩, hkey, rfl⟩, hle⟩
  · rintro ⟨n, _, ⟨e, ⟨file, f, hlookup, hfile, he⟩, hkey, rfl⟩, hle⟩
    exact ⟨n, file, f, hlookup, hfile, e, he, hkey, hle⟩

namespace Disk.Has

theorem congr (h : d.Has n e) (hs : d'.ssts = d.ssts) (hf : d'.files = d.files) : d'.Has n e := by
  obtain ⟨file, f, hlookup, hfile, he⟩ := h
  exact ⟨file, f, by rw [hs]; exact hlookup, by rw [hf]; exact hfile, he⟩

theorem mem (h : d.Has n e) : n ∈ d.ssts := by
  obtain ⟨file, f, hlookup, -⟩ := h
  exact AList.lookup_isSome.mp (by simp [hlookup])

theorem complete (h : d.Has n e) : d.Complete n := by
  obtain ⟨file, f, hlookup, hfile, -⟩ := h
  exact ⟨file, f, hlookup, hfile⟩

end Disk.Has

theorem Disk.stamps_congr (hs : d'.ssts = d.ssts) (hf : d'.files = d.files) : d'.Stamps = d.Stamps := by
  funext n key stamp
  refine propext ⟨?_, ?_⟩
  · rintro ⟨e, he, h⟩
    exact ⟨e, he.congr hs.symm hf.symm, h⟩
  · rintro ⟨e, he, h⟩
    exact ⟨e, he.congr hs hf, h⟩

theorem Disk.Written.lookup_ne (h : d.Written n es d') (hn : n ∉ d.ssts) (hmn : m ≠ n) : d'.ssts.lookup m = d.ssts.lookup m := by
  cases h with
  | untouched => rfl
  | created => rw [Disk.createSst_unused hn, AList.lookup_insert_ne hmn]
  | abandoned => rw [Disk.removeSst, Disk.createSst_unused hn, AList.lookup_erase_ne hmn, AList.lookup_insert_ne hmn]
  | finished => rw [Disk.withSst_unused hn, AList.lookup_insert_ne hmn]

theorem Disk.Written.has (h : d.Written n es d') (hn : n ∉ d.ssts) (he : d.Has m e) : d'.Has m e := by
  have hmn : m ≠ n := fun heq => hn (heq ▸ he.mem)
  obtain ⟨more, hfiles⟩ := h.files_eq hn
  obtain ⟨file, f, hlookup, hfile, he⟩ := he
  exact ⟨file, f, by rw [h.lookup_ne hn hmn]; exact hlookup, by rw [hfiles]; exact getElem?_append_some hfile more, he⟩

theorem Disk.Written.of_has (h : d.Written n es d') (hd : d.Sane) (hn : n ∉ d.ssts) (he : d'.Has m e) :
    d.Has m e ∨ m = n ∧ Ascending es ∧ e ∈ es := by
  obtain ⟨file, f, hlookup, hfile, he⟩ := he
  by_cases hmn : m = n
  · subst hmn
    cases h with
    | untouched => exact .inl ⟨file, f, hlookup, hfile, he⟩
    | created =>
      simp only [Disk.createSst_unused hn, AList.lookup_insert, Option.some.injEq] at hlookup hfile
      subst hlookup
      simp at hfile
    | abandoned => simp [Disk.removeSst] at hlookup
    | @finished g hes hwf hentries =>
      simp only [Disk.withSst_unused hn, AList.lookup_insert, Option.some.injEq] at hlookup hfile
      subst hlookup
      obtain rfl : g = f := by simpa using hfile
      exact .inr ⟨rfl, hentries ▸ hwf.ascending, hentries ▸ he⟩
  · -- the file of another number was there before
    rw [h.lookup_ne hn hmn] at hlookup
    obtain ⟨more, hfiles⟩ := h.files_eq hn
    rw [hfiles, List.getElem?_append_left (hd.linked m file hlookup)] at hfile
    exact .inl ⟨file, f, hlookup, hfile, he⟩

theorem Disk.has_withSst (hn : n ∉ d.ssts) (he : e ∈ f.entries) : (d.withSst n f).Has n e := by
  refine ⟨d.files.length, f, ?_, ?_, he⟩
  · rw [Disk.withSst_unused hn, AList.lookup_insert]
  · simp [Disk.withSst_unused hn]

theorem Disk.has_removeSsts {rs : List SSTableReader} :
    (d.removeSsts rs).Has n e ↔ d.Has n e ∧ n ∉ rs.map SSTableReader.fileNumber := by
  induction rs generalizing d with
  | nil => simp [Disk.removeSsts]
  | cons r rs ih =>
    have hone : (d.removeSst r.fileNumber).Has n e ↔ d.Has n e ∧ n ≠ r.fileNumber := by
      by_cases hnr : n = r.fileNumber
      · subst hnr
        simp [Disk.Has, Disk.removeSst]
      · simp [Disk.Has, Disk.removeSst, AList.lookup_erase_ne hnr, hnr]
    rw [Disk.removeSsts, List.foldl_cons]
    refine ih.trans ?_
    rw [hone, List.map_cons, List.mem_cons, not_or, and_assoc]

-- ---------------------------------------------------------------------------
-- The archive
-- ---------------------------------------------------------------------------

/-- Every entry of a table is that of a put, and later versions of a key stand under
higher numbers. -/
structure Disk.Archive (d : Disk) (ops : List WriteOp) : Prop where
  genuine : ∀ n e, d.Has n e → ops[e.value.stamp]? = some (.put e.key e.value.bytes)
  ranked : Ranked d.Stamps

/-- The tables have the first `cut` operations, or later ones on their keys. -/
def Disk.Covers (d : Disk) (ops : List WriteOp) (cut : Nat) : Prop :=
  ∀ (i : Nat) op, i < cut → ops[i]? = some op → d.TableHolds op.key i

namespace Disk.Archive

theorem congr (h : d.Archive ops) (hs : d'.ssts = d.ssts) (hf : d'.files = d.files) : d'.Archive ops where
  genuine n e he := h.genuine n e (he.congr hs.symm hf.symm)
  ranked := by rw [Disk.stamps_congr hs hf]; exact h.ranked

theorem append (h : d.Archive ops) (more : List WriteOp) : d.Archive (ops ++ more) where
  genuine n e he := getElem?_append_some (h.genuine n e he) more
  ranked := h.ranked

theorem written (h : d.Archive ops) (hd : d.Sane) (hw : d.Written n es d') (hn : n ∉ d.ssts) (htop : ∀ m ∈ d.ssts, m < n)
    (hgenuine : ∀ e ∈ es, ops[e.value.stamp]? = some (.put e.key e.value.bytes))
    (hlatest : Ascending es → ∀ a ∈ es, ∀ m e, d.Has m e → e.key = a.key → e.value.stamp ≤ a.value.stamp) : d'.Archive ops where
  genuine m e he := (hw.of_has hd hn he).elim (h.genuine m e) fun hnew => hgenuine e hnew.2.2
  ranked := by
    let new := fun key stamp => Ascending es ∧ ∃ e ∈ es, e.key = key ∧ e.value.stamp = stamp
    have hsub : ∀ m key stamp, d'.Stamps m key stamp → d.Stamps m key stamp ∨ m = n ∧ new key stamp := by
      rintro m key stamp ⟨e, he, hkey, hstamp⟩
      rcases hw.of_has hd hn he with he | ⟨rfl, hasc, he⟩
      · exact .inl ⟨e, he, hkey, hstamp⟩
      · exact .inr ⟨rfl, hasc, e, he, hkey, hstamp⟩
    refine h.ranked.add hsub ?_ ?_
    · rintro m key stamp ⟨e, he, -⟩
      exact htop m he.mem
    · rintro m key stamp stamp' ⟨e, he, hkey, rfl⟩ ⟨hasc, a, ha, hkey', rfl⟩
      exact hlatest hasc a ha m e he (hkey.trans hkey'.symm)

theorem removeSsts (h : d.Archive ops) (rs : List SSTableReader) : (d.removeSsts rs).Archive ops where
  genuine n e he := h.genuine n e (Disk.has_removeSsts.mp he).1
  ranked := h.ranked.subset fun _ _ _ ⟨e, he, hstamp⟩ => ⟨e, (Disk.has_removeSsts.mp he).1, hstamp⟩

end Disk.Archive

-- ---------------------------------------------------------------------------
-- What the tables answer
-- ---------------------------------------------------------------------------

/-- A put of a value that is not empty; an empty one reads as a deletion once it is in a
table. -/
def WriteOp.Lasting : WriteOp → Prop
  | .put key value => key.length < 2 ^ 32 ∧ value ≠ []
  | .delete _ => False

instance (op : WriteOp) : Decidable op.Lasting := by
  cases op <;> unfold WriteOp.Lasting <;> infer_instance

theorem WriteOp.Lasting.fits {op : WriteOp} (h : op.Lasting) : op.Fits := by
  cases op with
  | put key value => exact h.1
  | delete key => exact h.elim

theorem lastValue_eq_none (hops : ∀ op ∈ ops, op.Lasting) : lastValue key ops = none ↔ lastOp key ops = none := by
  rw [lastValue]
  cases hlast : lastOp key ops with
  | none => simp
  | some op =>
    obtain ⟨-, i, hop, -⟩ := lastOp_eq_some hlast
    cases op with
    | put key' value => simp [WriteOp.value]
    | delete key' => exact (hops _ (List.mem_of_getElem? hop)).elim

theorem Disk.Archive.lasts (h : d.Archive ops) (hops : ∀ op ∈ ops, op.Lasting) (he : d.Has n e) : e.value.bytes ≠ [] :=
  (hops _ (List.mem_of_getElem? (h.genuine n e he))).2

theorem Disk.Loads.has (h : d.Loads ns lo hi tables) (hr : r ∈ tables) : e ∈ d.entriesOf r ↔ d.Has r.fileNumber e := by
  obtain ⟨n, -, f, hread, -⟩ := h.mem hr
  have hnumber : r.fileNumber = n := by rw [hread.reader]; rfl
  rw [Disk.entriesOf, hread.content, hnumber]
  constructor
  · exact fun he => ⟨r.file, f, hread.lookup, hread.content, he⟩
  · rintro ⟨file, g, hlookup, hfile, he⟩
    rw [hread.lookup] at hlookup
    cases hlookup
    rw [hread.content] at hfile
    cases hfile
    exact he

theorem Disk.Archive.answers_iff (h : d.Archive ops) (hd : d.Sane) (hops : ∀ op ∈ ops, op.Lasting)
    (hloads : d.Loads ns lo hi tables) (hr : r ∈ tables) :
    live (stored (d.entriesOf r) key) = some v ↔ d.Has r.fileNumber ⟨key, v⟩ := by
  obtain ⟨n, -, f, hread, -⟩ := hloads.mem hr
  have hasc : Ascending (d.entriesOf r) := by
    rw [Disk.entriesOf, hread.content]
    exact (hd.wellFormed _ f hread.content).ascending
  rw [live_eq_some, ← hloads.has hr]
  exact ⟨fun hv => mem_of_stored hv.2, fun he => ⟨h.lasts hops ((hloads.has hr).mp he), hasc.stored_of_mem he⟩⟩

/-- With the tables in the order of their numbers, and every operation on the key in some
table, the tables answer with the last one. -/
theorem Disk.Archive.answer (h : d.Archive ops) (hd : d.Sane) (hops : ∀ op ∈ ops, op.Lasting)
    (hloads : d.Loads ns lo hi tables) (hall : ∀ n, d.Complete n → ∃ r ∈ tables, r.fileNumber = n)
    (horder : (tables.map SSTableReader.fileNumber).Pairwise (· < ·))
    (hkey : ∀ (i : Nat) op, ops[i]? = some op → op.key = key → d.TableHolds key i) :
    (tables.reverse.findSome? fun r => live (stored (d.entriesOf r) key)).map Value.bytes = lastValue key ops := by
  have hask : ∀ r ∈ tables, ∀ v, live (stored (d.entriesOf r) key) = some v ↔ d.Has r.fileNumber ⟨key, v⟩ :=
    fun r hr v => h.answers_iff hd hops hloads hr
  -- an operation on the key, or a later one, is found in a table that is asked
  have hfound : ∀ (i : Nat) op, ops[i]? = some op → op.key = key →
      ∃ r ∈ tables, ∃ v, live (stored (d.entriesOf r) key) = some v ∧ i ≤ v.stamp := by
    intro i op hop hopkey
    obtain ⟨n, _, ⟨⟨k, v⟩, he, rfl, rfl⟩, hle⟩ := Disk.tableHolds_iff.mp (hkey i op hop hopkey)
    obtain ⟨r, hr, rfl⟩ := hall n he.complete
    exact ⟨r, hr, v, (hask r hr v).mpr he, hle⟩
  cases hfirst : tables.reverse.findSome? fun r => live (stored (d.entriesOf r) key) with
  | none =>
    rw [Option.map_none, eq_comm, lastValue_eq_none hops, lastOp_eq_none]
    intro op hop hopkey
    obtain ⟨i, hi⟩ := List.getElem?_of_mem hop
    obtain ⟨r, hr, v, hv, -⟩ := hfound i op hi hopkey
    rw [List.findSome?_eq_none_iff.mp hfirst r (List.mem_reverse.mpr hr)] at hv
    cases hv
  | some v =>
    obtain ⟨r, hr, hv⟩ := List.exists_of_findSome?_eq_some hfirst
    have hput := h.genuine _ _ ((hask r (List.mem_reverse.mp hr) v).mp hv)
    cases hlast : lastOp key ops with
    | none => exact absurd rfl (lastOp_eq_none.mp hlast _ (List.mem_of_getElem? hput))
    | some op =>
      obtain ⟨hopkey, i, hop, hlater⟩ := lastOp_eq_some hlast
      -- the first answer is no older than the last operation, and no newer
      obtain ⟨r', hr', v', hv', hle⟩ := hfound i op hop hopkey
      have hnewest : v'.stamp ≤ v.stamp := by
        have hdesc : tables.reverse.Pairwise fun x y => y.fileNumber < x.fileNumber :=
          List.pairwise_reverse.mpr (List.pairwise_map.mp horder)
        refine h.ranked.first_latest Value.stamp (k := key) hdesc (fun x hx b hb => ?_) hfirst r' (List.mem_reverse.mpr hr') v' hv'
        exact ⟨_, (hask x (List.mem_reverse.mp hx) b).mp hb, rfl, rfl⟩
      have hstamp : v.stamp = i := by
        by_contra hne
        exact hlater v.stamp _ (by omega) hput rfl
      rw [hstamp, hop] at hput
      cases hput
      simp [lastValue, hlast, WriteOp.value]

-- ---------------------------------------------------------------------------
-- The manifest
-- ---------------------------------------------------------------------------

def writtenEdits (edits : List VersionEdit) : List ManifestPiece := edits.flatMap fun edit => [.edit edit, .newline]

/-- Edits of the first two levels, all of them whole. -/
def WholeLines (pieces : List ManifestPiece) : Prop :=
  ∃ edits, (∀ edit ∈ edits, edit.Below 2) ∧ pieces = writtenEdits edits

/-- The same, and the last line may lack its end. -/
def Legible (pieces : List ManifestPiece) : Prop := WholeLines pieces ∨ WholeLines (pieces ++ [.newline])

/-- What a manifest is in which no edit was cut off. -/
def UnlessTorn (P : List ManifestPiece → Prop) (pieces : List ManifestPiece) : Prop := .part ∉ pieces → P pieces

theorem WholeLines.append (h : WholeLines pieces) (hedit : edit.Below 2) : WholeLines (pieces ++ [.edit edit, .newline]) := by
  obtain ⟨edits, hedits, rfl⟩ := h
  exact ⟨edits ++ [edit], by simpa [or_imp, forall_and] using ⟨hedits, hedit⟩, by simp [writtenEdits]⟩

theorem manifestLines_written (edits : List VersionEdit) (rest : List ManifestPiece) :
    manifestLines [] (writtenEdits edits ++ rest) = edits.map ([.edit ·]) ++ manifestLines [] rest := by
  induction edits with
  | nil => rfl
  | cons edit edits ih =>
    rw [writtenEdits, List.flatMap_cons, List.append_assoc]
    exact congrArg ([.edit edit] :: ·) ih

theorem recoverLines_ok {vs : VersionSet} {edits : List VersionEdit} (h : ∀ edit ∈ edits, edit.Below vs.current.length) :
    ∃ vs', recoverLines vs (edits.map ([.edit ·])) = .ok (some vs') := by
  induction edits generalizing vs with
  | nil => exact ⟨vs, rfl⟩
  | cons edit edits ih =>
    obtain ⟨vs1, hvs1⟩ := Option.isSome_iff_exists.mp ((applyEdit_isSome vs edit).mpr (h edit List.mem_cons_self))
    obtain ⟨vs2, hvs2⟩ := ih fun x hx => by rw [applyEdit_length hvs1]; exact h x (List.mem_cons_of_mem _ hx)
    exact ⟨vs2, by simpa [recoverLines, hvs1] using hvs2⟩

theorem Compaction.VersionEdit.Below.mono {edit : VersionEdit} (h : edit.Below n) (hle : n ≤ m) : edit.Below m := by
  cases edit with
  | addFile level file => exact lt_of_lt_of_le h hle
  | deleteFile level n => exact lt_of_lt_of_le h hle
  | _ => trivial

theorem Legible.recovered (h : Legible pieces) (hlevels : 2 ≤ maxLevels) :
    ∃ vs, recoverLines (VersionSet.new maxLevels) (manifestLines [] pieces) = .ok (some vs) := by
  have hlength : (VersionSet.new maxLevels).current.length = maxLevels := List.length_replicate
  have hbelow : ∀ edits : List VersionEdit, (∀ edit ∈ edits, edit.Below 2) →
      ∀ edit ∈ edits, edit.Below (VersionSet.new maxLevels).current.length :=
    fun edits h edit hedit => by rw [hlength]; exact (h edit hedit).mono hlevels
  rcases h with ⟨edits, hedits, rfl⟩ | ⟨edits, hedits, heq⟩
  · have hlines := manifestLines_written edits []
    rw [List.append_nil] at hlines
    simpa [hlines, manifestLines] using recoverLines_ok (hbelow edits hedits)
  · -- the last line has its edit, but not its end
    induction edits using List.reverseRecOn with
    | nil => simp [writtenEdits] at heq
    | append_singleton edits last _ =>
      have hlast : writtenEdits (edits ++ [last]) = (writtenEdits edits ++ [.edit last]) ++ [.newline] := by simp [writtenEdits]
      obtain rfl : pieces = writtenEdits edits ++ [.edit last] := List.append_cancel_right (heq.trans hlast)
      have hlines := manifestLines_written edits [.edit last]
      have hall : edits.map ([.edit ·]) ++ manifestLines [] [.edit last] = (edits ++ [last]).map ([.edit ·]) := by
        simp [manifestLines]
      rw [hlines, hall]
      exact recoverLines_ok (hbelow _ hedits)

theorem manifestLines_hasPart (line : List ManifestPiece) (h : .part ∈ line ++ pieces) :
    ∃ on ∈ manifestLines line pieces, .part ∈ on := by
  induction pieces generalizing line with
  | nil =>
    have hline : .part ∈ line := by simpa using h
    exact ⟨line, by simp [manifestLines, List.ne_nil_of_mem hline], hline⟩
  | cons p pieces ih =>
    cases p with
    | newline =>
      rw [manifestLines]
      rcases List.mem_append.mp h with hline | hrest
      · exact ⟨line, List.mem_cons_self, hline⟩
      · obtain ⟨on, hon, hpart⟩ := ih [] (by simpa using hrest)
        exact ⟨on, List.mem_cons_of_mem _ hon, hpart⟩
    | edit | part =>
      rw [manifestLines]
      · exact ih _ (by rwa [List.append_assoc])
      · exact nofun

theorem recoverLines_part {vs : VersionSet} {lines : List (List ManifestPiece)} (hon : on ∈ lines) (hpart : .part ∈ on) :
    recoverLines vs lines ≠ .ok (some vs') := by
  induction lines generalizing vs with
  | nil => cases hon
  | cons line lines ih =>
    unfold recoverLines
    split
    · rename_i heq
      cases heq
    · rename_i heq
      cases heq
      refine ih ((List.mem_cons.mp hon).resolve_left ?_)
      rintro rfl
      cases hpart
    · rename_i heq
      cases heq
      split
      · refine ih ((List.mem_cons.mp hon).resolve_left ?_)
        rintro rfl
        simp at hpart
      · simp
    · exact nofun

-- ---------------------------------------------------------------------------
-- The directory and its manifest
-- ---------------------------------------------------------------------------

def Disk.SameRoot (d d' : Disk) : Prop := d'.dirExists = d.dirExists ∧ d'.manifest = d.manifest

theorem Disk.SameRoot.trans (h : d.SameRoot d') (h' : d'.SameRoot d'') : d.SameRoot d'' := ⟨h'.1.trans h.1, h'.2.trans h.2⟩

/-- The directory is there, and its manifest says nothing of deeper levels. -/
structure Disk.Rooted (P : List ManifestPiece → Prop) (d : Disk) : Prop where
  dir : d.dirExists = true
  manifest : ∀ pieces, d.manifest = some pieces → P pieces

theorem Disk.Rooted.same (h : d.Rooted P) (hs : d.SameRoot d') : d'.Rooted P :=
  ⟨hs.1.trans h.dir, fun pieces hp => h.manifest pieces (by rwa [← hs.2])⟩

theorem Disk.Rooted.legible (h : d.Rooted WholeLines) : d.Rooted (UnlessTorn Legible) :=
  ⟨h.dir, fun pieces hp _ => .inl (h.manifest pieces hp)⟩

theorem Disk.createSst_root (n : Nat) (d : Disk) : d.SameRoot (d.createSst n) := by
  unfold Disk.createSst
  split <;> exact ⟨rfl, rfl⟩

theorem Disk.withSst_root (n : Nat) (f : SstFile) (d : Disk) : d.SameRoot (d.withSst n f) := by
  refine (d.createSst_root n).trans ?_
  unfold Disk.withSst Disk.finishSst
  split <;> exact ⟨rfl, rfl⟩

theorem Disk.Written.rooted (h : d.Written n es d') (hd : d.Rooted P) : d'.Rooted P := by
  cases h with
  | untouched => exact hd
  | created => exact hd.same (d.createSst_root n)
  | abandoned => exact hd.same (d.createSst_root n)
  | @finished f => exact hd.same (d.withSst_root n f)

theorem Disk.removeSsts_root (rs : List SSTableReader) (d : Disk) : d.SameRoot (d.removeSsts rs) := by
  induction rs generalizing d with
  | nil => exact ⟨rfl, rfl⟩
  | cons r rs ih => exact ih (d.removeSst r.fileNumber)

theorem onWorld_root {m : W α} (hm : ∀ w : World, Triple m w (fun _ w' => w.disk.SameRoot w'.disk) (fun _ w' => w.disk.SameRoot w'.disk)) :
    Keeps (fun s : Sys => d.SameRoot s.world.disk) (onWorld m) := fun s hs =>
  (onWorld_spec (hm s.world)).mono (fun _ _ h => hs.trans h.2) (fun _ _ h => hs.trans h.2)

theorem runJob_root (inputs : List SSTableReader) (level blockSize n : Nat) (w : World) : Triple (runJob inputs level blockSize n) w
    (fun _ w' => w.disk.SameRoot w'.disk) (fun _ w' => w.disk.SameRoot w'.disk) := by
  refine (runJob_spec inputs level blockSize n (.refl w)).mono ?_ ?_
  · rintro res w' ⟨merged, -, ⟨-, -, hat⟩ | ⟨-, -, f, -, -, hat⟩⟩
    · rw [hat.disk_eq]
      exact w.disk.createSst_root n
    · rw [hat.disk_eq]
      exact w.disk.withSst_root n f
  · rintro _ w' (⟨hat, -⟩ | ⟨hat, -⟩)
    · rw [hat.disk_eq]
      exact ⟨rfl, rfl⟩
    · rw [hat.disk_eq]
      exact w.disk.createSst_root n

theorem openWithCache_root (n : Nat) (w : World) : Triple (openWithCache n) w
    (fun _ w' => w.disk.SameRoot w'.disk) (fun _ w' => w.disk.SameRoot w'.disk) := by
  refine (openWithCache_spec n (.refl w)).mono ?_ ?_
  · rintro _ w' ⟨hat, -⟩
    rw [hat.disk_eq]
    exact ⟨rfl, rfl⟩
  · rintro _ w' ⟨-, hat⟩
    rw [hat.disk_eq]
    exact ⟨rfl, rfl⟩

theorem liftExcept_root (x : Except Error α) (w : World) : Triple (liftExcept x) w
    (fun _ w' => w.disk.SameRoot w'.disk) (fun _ w' => w.disk.SameRoot w'.disk) := by
  cases x <;> exact ⟨rfl, rfl⟩

theorem removeInputs_root (rs : List SSTableReader) (w : World) : Triple (removeInputs rs) w
    (fun _ w' => w.disk.SameRoot w'.disk) (fun _ w' => w.disk.SameRoot w'.disk) := by
  refine (removeInputs_spec rs (.refl w)).mono ?_ ?_
  · intro _ w' hat
    rw [hat.disk_eq]
    exact Disk.removeSsts_root rs _
  · rintro _ w' ⟨rs', -, hat⟩
    rw [hat.disk_eq]
    exact Disk.removeSsts_root rs' _

theorem compactOutput_root (task : CompactionTask) : Keeps (fun s : Sys => d.SameRoot s.world.disk) (compactOutput task) := by
  refine Keeps.bind (fun s hs => takeFileNumber_bind (f := pure) (Triple.pure hs)) fun n => Keeps.get.bind fun _ => ?_
  refine (onWorld_root (runJob_root _ _ _ n)).bind fun result => Keeps.ite Keeps.pure ?_
  refine (onWorld_root (openWithCache_root n)).bind fun reader => Keeps.get.bind fun _ => ?_
  refine (onWorld_root (liftExcept_root _)).bind fun smallest => ?_
  split
  · exact Keeps.pure
  · exact Keeps.throw

theorem installOutput_root (task : CompactionTask) (reader : SSTableReader) :
    Keeps (fun s : Sys => d.SameRoot s.world.disk) (installOutput task reader) := by
  refine Keeps.get.bind fun _ => Keeps.get.bind fun _ => Keeps.ite ?_ Keeps.throw
  refine Keeps.bind (Keeps.modify ?_) fun _ => onWorld_root (removeInputs_root _)
  exact fun _ h => h

theorem logEdit_root (h : s.world.disk.Rooted WholeLines) (hedit : edit.Below 2) :
    Triple (logEdit edit) s (fun _ s' => s'.world.disk.Rooted WholeLines)
      (fun _ s' => s'.world.disk.Rooted (UnlessTorn Legible)) := by
  unfold logEdit
  refine Triple.get_bind ?_
  split
  · exact Triple.throw h.legible
  · refine Triple.modify_bind ?_
    refine ((onWorld_spec (writeManifest_at _ (.refl _))).mono (fun _ _ => id) ?_).bind ?_
    · rintro _ s1 ⟨-, -, n, hat⟩
      rw [hat.disk_eq]
      refine ⟨h.dir, fun pieces hp htorn => .inl ?_⟩
      obtain ⟨old, hold, rfl⟩ := Option.map_eq_some_iff.mp hp
      -- either nothing of the edit is there, or a part
      cases n with
      | zero => simpa [ManifestPiece.cut] using h.manifest old hold
      | succ n => exact absurd (List.mem_append_right _ List.mem_cons_self) htorn
    rintro _ s1 ⟨-, hat⟩
    have hpieces : ∀ tail, (∀ pieces, WholeLines pieces → WholeLines (pieces ++ [.edit edit] ++ tail)) →
        ∀ pieces, (s1.world.disk.manifest.map (· ++ tail)) = some pieces → WholeLines pieces := by
      intro tail htail pieces hp
      rw [hat.disk_eq] at hp
      simp only [Disk.addPieces, Option.map_map, Option.map_eq_some_iff] at hp
      obtain ⟨old, hold, rfl⟩ := hp
      exact htail old (h.manifest old hold)
    have hdir : s1.world.disk.dirExists = true := by rw [hat.disk_eq]; exact h.dir
    have hwhole : ∀ pieces, WholeLines pieces → WholeLines (pieces ++ [.edit edit] ++ [.newline]) := fun pieces hp => by
      rw [List.append_assoc]
      exact hp.append hedit
    refine (onWorld_spec (writeManifest_at _ (.refl _))).mono ?_ ?_
    · rintro _ s2 ⟨-, hat2⟩
      rw [hat2.disk_eq]
      exact ⟨hdir, hpieces [.newline] hwhole⟩
    · rintro _ s2 ⟨-, -, n, hat2⟩
      rw [hat2.disk_eq]
      -- the edit is there, its newline is not
      refine ⟨hdir, fun pieces hp _ => .inr (hpieces [.newline] hwhole _ ?_)⟩
      have hp : s1.world.disk.manifest = some pieces := by simpa [Disk.addPieces, ManifestPiece.cut] using hp
      rw [hp]
      rfl

theorem logEdits_root {edits : List VersionEdit} (h : s.world.disk.Rooted WholeLines) (hedits : ∀ edit ∈ edits, edit.Below 2) :
    Triple (logEdits edits) s (fun _ s' => s'.world.disk.Rooted WholeLines)
      (fun _ s' => s'.world.disk.Rooted (UnlessTorn Legible)) := by
  induction edits generalizing s with
  | nil => exact Triple.pure h
  | cons edit edits ih =>
    rw [List.forall_mem_cons] at hedits
    exact (logEdit_root h hedits.1).bind fun _ s1 h1 => ih h1 hedits.2

theorem compact_root (h : s.world.disk.Rooted WholeLines) {task : CompactionTask} (hlevel : task.level = 0) (hout : task.outputLevel = 1) :
    Triple (compact task) s (fun _ s' => s'.world.disk.Rooted WholeLines)
      (fun _ s' => s'.world.disk.Rooted (UnlessTorn Legible)) := by
  rw [compact_eq]
  refine ((compactOutput_root task s ⟨rfl, rfl⟩).mono (fun _ _ => id) fun _ _ hs => h.legible.same hs).bind fun out s1 hs1 => ?_
  cases out with
  | none => exact Triple.pure (h.same hs1)
  | some out =>
    obtain ⟨reader, file⟩ := out
    have hedits : ∀ edit ∈ compactionEdits task file, edit.Below 2 := by
      simp [compactionEdits, hlevel, hout, VersionEdit.Below]
    refine (logEdits_root (h.same hs1) hedits).bind fun _ s2 h2 => ?_
    exact (installOutput_root task reader s2 ⟨rfl, rfl⟩).mono (fun _ _ hs => h2.same hs) fun _ _ hs => h2.legible.same hs

-- ---------------------------------------------------------------------------
-- Opening
-- ---------------------------------------------------------------------------

/-- What is left of entries that did not all reach the log: some of them, and a part of the
next. -/
theorem logEntries_prefix (h : q <+: logEntries more) : ∃ k ≤ more.length, ∃ tail, q = logEntries (more.take k) ++ tail ∧
    ∃ e, tail <+: Wal.append Wal.calculateChecksum e ∧ tail ≠ Wal.append Wal.calculateChecksum e := by
  have hnil : ∃ e, ([] : Bytes) <+: Wal.append Wal.calculateChecksum e ∧ [] ≠ Wal.append Wal.calculateChecksum e :=
    (show TornLog [] (logEntries []) [] [] from .whole (List.Sublist.refl _) (by simp)).torn
  induction more generalizing q with
  | nil =>
    obtain rfl : q = [] := List.prefix_nil.mp h
    exact ⟨0, le_refl _, [], rfl, hnil⟩
  | cons op more ih =>
    rw [logEntries_cons] at h
    rcases List.prefix_or_prefix_of_prefix h (List.prefix_append _ _) with hq | ⟨q', rfl⟩
    · by_cases hfull : q = Wal.append Wal.calculateChecksum op.encode
      · exact ⟨1, by simp, [], by simp [hfull], hnil⟩
      · exact ⟨0, Nat.zero_le _, q, rfl, op.encode, hq, hfull⟩
    · obtain ⟨k, hk, tail, rfl, htail⟩ := ih ((List.prefix_append_right_inj _).mp h)
      exact ⟨k + 1, by simpa using hk, tail, by simp [List.append_assoc], htail⟩

/-- What a directory still says after `ops`, and after some of `more`, whose entries may be
cut off. -/
structure Disk.Recoverable (d : Disk) (ops more : List WriteOp) : Prop where
  root : d.Rooted (UnlessTorn Legible)
  sane : d.Sane
  archive : d.Archive ops
  log : ∃ cut q, d.Covers ops cut ∧ q <+: logEntries more ∧ d.replayedLog.bytes = logEntries (ops.drop cut) ++ q

/-- No write of the manifest was cut off inside an edit. -/
def Disk.ManifestUntorn (d : Disk) : Prop := .part ∉ d.manifest.getD []

instance (d : Disk) : Decidable d.ManifestUntorn := by unfold Disk.ManifestUntorn; infer_instance

theorem Disk.Recoverable.openable (h : d.Recoverable ops []) (huntorn : d.ManifestUntorn) (ho : o.Opens)
    (hlevels : 2 ≤ o.maxLevels) : d.Openable o where
  valid := ho.1
  dir := by rw [h.root.dir, if_pos rfl]; exact ho.2
  log := by
    obtain ⟨cut, q, -, hq, hbytes⟩ := h.log
    obtain rfl : q = [] := List.prefix_nil.mp hq
    exact ⟨_, by rw [hbytes, List.append_nil]; exact recoverAll_logEntries _⟩
  manifest pieces hpieces := by
    rw [Disk.ManifestUntorn, hpieces] at huntorn
    exact (h.root.manifest pieces hpieces huntorn).recovered hlevels

theorem untorn_of_openDb (hr : openDb o w = .ok db w') : w.disk.ManifestUntorn := by
  obtain ⟨-, _, _, vs, _, _, -, -, -, -, -, -, -, hvs⟩ := (openDb_spec o w).ok hr
  intro hpart
  obtain ⟨on, hon, hpart⟩ := manifestLines_hasPart [] hpart
  exact recoverLines_part hon hpart hvs

theorem Disk.Covers.holds (h : d.Covers ops cut) (hdrop : ∀ op ∈ ops.drop cut, op.key ≠ key) (hop : ops[i]? = some op)
    (hopkey : op.key = key) : d.TableHolds key i := by
  rw [← hopkey]
  refine h i op ?_ hop
  by_contra hcut
  refine hdrop op (List.mem_of_getElem? (i := i - cut) ?_) hopkey
  rw [List.getElem?_drop, Nat.add_sub_cancel' (not_lt.mp hcut)]
  exact hop

theorem Disk.Complete.mem_sortedSsts (h : d.Complete n) : n ∈ sortedSsts d := by
  obtain ⟨file, f, hlookup, -⟩ := h
  rw [sortedSsts, List.mem_insertionSort]
  exact AList.lookup_isSome.mp (by simp [hlookup])

theorem openedDb_getTables (hloads : d.Loads ns lo hi tables) (hd : d.Sane) (hfiles : w.disk.files = d.files)
    (hread : ∀ file off, w.unreadable file off = false) (recovered : List Bytes) (log : LogFile) (key : Bytes) :
    (openedDb o recovered log writes walNumber tables vs).getTables w key =
      .ok ((tables.reverse.findSome? fun r => live (stored (d.entriesOf r) key)).map Value.bytes) := by
  have hasked : ∀ r ∈ tables.reverse, r.get (w.readBlock r.file) key = .ok (live (stored (d.entriesOf r) key)) := by
    intro r hr
    obtain ⟨n, -, f, hreads, -⟩ := hloads.mem (List.mem_reverse.mp hr)
    have hserves : w.disk.Serves r f :=
      ⟨by rw [hfiles]; exact hreads.content, by rw [hreads.reader]; rfl, hd.wellFormed _ f hreads.content⟩
    have hentries : w.disk.entriesOf r = d.entriesOf r := by simp only [Disk.entriesOf, hfiles]
    rw [← hentries]
    exact World.get_served hserves hread key
  have hscan : scanOrder (openedDb o recovered log writes walNumber tables vs).sstables = tables.reverse := by
    simp [scanOrder, openedDb]
  rw [DB.getTables, hscan, firstAnswer_ok hasked]
  rfl

/-- An open that succeeds finds the last write of every key. -/
theorem Disk.Recoverable.opened (h : w.disk.Recoverable ops more) (hops : ∀ op ∈ ops ++ more, op.Lasting)
    (hnames : w.disk.NamesInNumberOrder) (hcalm : w.faults = []) (hread : ∀ file off, w.unreadable file off = false)
    (hr : openDb o w = .ok db w') :
    ∃ k ≤ more.length, ∀ key, db.get w' key = .ok (lastValue key (ops ++ more.take k)) := by
  obtain ⟨cut, q, hcovers, hq, hbytes⟩ := h.log
  obtain ⟨k, hk, tail, rfl, htorn⟩ := logEntries_prefix hq
  obtain ⟨hsame, recovered, tables, vs, lo, hi, rfl, hrec, hloads, -, -, hall, -⟩ := (openDb_spec o w).ok hr
  let rest := ops.drop cut ++ more.take k
  have hrest : ∀ op ∈ rest, op.Lasting := by
    intro op hop
    rcases List.mem_append.mp hop with hop | hop
    · exact hops op (List.mem_append_left _ (List.mem_of_mem_drop hop))
    · exact hops op (List.mem_append_right _ (List.mem_of_mem_take hop))
  have hold : ∀ op ∈ ops, op.Lasting := fun op hop => hops op (List.mem_append_left _ hop)
  have hlog : TornLog [] w.disk.replayedLog.bytes rest tail :=
    ⟨by rw [hbytes, ← List.append_assoc, ← logEntries_append], List.nil_sublist _, fun op hop => (hrest op hop).fits, htorn⟩
  obtain rfl := hlog.recovered hrec
  refine ⟨k, hk, fun key => ?_⟩
  -- the operations are those of the first part and those that are replayed
  have hsplit : ops ++ more.take k = ops.take cut ++ rest := by
    rw [← List.append_assoc, List.take_append_drop]
  rw [openedDb_get, filterMap_parseEntry fun op hop => (hrest op hop).fits, DB.shows]
  cases hlast : lastOp key rest with
  | some op =>
    obtain ⟨v, hv⟩ := Option.ne_none_iff_exists'.mp fun hnone => by
      rw [lastValue_eq_none hrest, hlast] at hnone
      cases hnone
    have hvalue : lastValue key (ops ++ more.take k) = some v := by
      rw [hsplit, lastValue, lastOp_append, hlast]
      rwa [lastValue, hlast] at hv
    rw [hv, hvalue]
  | none =>
    have hnone : lastValue key rest = none := (lastValue_eq_none hrest).mpr hlast
    have hdrop : ∀ op ∈ rest, op.key ≠ key := lastOp_eq_none.mp hlast
    have hvalue : lastValue key (ops ++ more.take k) = lastValue key ops := by
      have hmore : lastOp key (more.take k) = none :=
        lastOp_eq_none.mpr fun op hop => hdrop op (List.mem_append_right _ hop)
      rw [lastValue, lastOp_append, hmore, Option.none_or, lastValue]
    have hkey : ∀ (i : Nat) op, ops[i]? = some op → op.key = key → w.disk.TableHolds key i := fun _ _ hop hopkey =>
      hcovers.holds (fun op hop => hdrop op (List.mem_append_left _ hop)) hop hopkey
    have hloaded : ∀ n, w.disk.Complete n → ∃ r ∈ tables, r.fileNumber = n := by
      intro n hn
      obtain ⟨r, hr, g, hreads⟩ := hall hcalm n hn.mem_sortedSsts hn
      exact ⟨r, hr, by rw [hreads.reader]; rfl⟩
    have horder := hloads.pairwise_lt_iff.mpr fun a ha b hb => hnames a b (hloads.complete ha) (hloads.complete hb)
    have hanswer := h.archive.answer h.sane hold hloads hloaded horder hkey
    obtain ⟨hfiles, hunreadable⟩ : w'.disk.files = w.disk.files ∧ w'.unreadable = w.unreadable := by
      obtain ⟨dir, logs, manifest, faults, arcs, -, -, rfl⟩ := hsame
      exact ⟨rfl, rfl⟩
    rw [hnone, hvalue, ← hanswer]
    exact openedDb_getTables hloads h.sane hfiles (by rw [hunreadable]; exact hread) _ _ key

end AiDb
