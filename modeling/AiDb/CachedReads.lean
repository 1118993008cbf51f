import AiDb.Scanning
import AiDb.Transparency

/-!
# Reads through the cache

In a state whose cache agrees with its tables, `get_at_sequence` finds through the
cache what it finds without one, and puts no more into the cache than the blocks it
read.
-/

namespace AiDb

open Library Compaction

variable {s s' : CSys} {w : World} {r : SSTableReader} {f : SstFile}

-- ---------------------------------------------------------------------------
-- One table
-- ---------------------------------------------------------------------------

/-- Every block that a table of the levels names can be read, and the lengths in it fit
their fields. -/
structure Sys.TablesRead (s : Sys) : Prop where
  readable : ∀ r ∈ s.db.sstables.flatten, r.Readable (s.world.readBlock r.file)
  fit : ∀ r ∈ s.db.sstables.flatten, ∀ f, s.world.disk.Serves r f → f.Fits

def Sys.tablesRead (s : Sys) : Bool :=
  (s.db.sstables.flatten.all fun r => r.indexBlock.all fun e => (s.world.readBlock r.file e.2).isOk) &&
    s.world.disk.files.all fun
      | .complete f => f.blocks.all fun b => (Sstable.blockData 16 b.entries).length < 2 ^ 32 &&
          b.entries.all fun e => e.key.length < 2 ^ 32 && e.value.bytes.length < 2 ^ 32
      | _ => true

theorem Sys.tablesRead_sound {s : Sys} (h : s.tablesRead = true) : s.TablesRead := by
  rw [Sys.tablesRead, Bool.and_eq_true, List.all_eq_true, List.all_eq_true] at h
  refine ⟨fun r hr e he => ?_, fun r hr f hf b hb => ?_⟩
  · have hok := List.all_eq_true.mp (h.1 r hr) e he
    cases hread : s.world.readBlock r.file e.2 with
    | error err => rw [hread] at hok; cases hok
    | ok es => exact ⟨es, rfl⟩
  · have hfile := List.all_eq_true.mp (h.2 _ (List.mem_of_getElem? hf.content)) b hb
    simp only [Bool.and_eq_true, List.all_eq_true, decide_eq_true_eq] at hfile
    exact hfile

theorem SSTableReader.Readable.readBy (h : r.Readable (w.readBlock r.file)) (hf : w.disk.Serves r f) :
    f.ReadBy (w.readBlock r.file) := by
  intro b hb
  have hmem : (lastKeyOf b.entries, b.handle) ∈ r.indexBlock := by
    rw [hf.of]
    show _ ∈ f.index
    rw [hf.wellFormed.index_eq]
    exact List.mem_map_of_mem hb
  obtain ⟨es, hes⟩ := h _ hmem
  refine World.readBlock_served hf hb ?_
  by_contra hun
  rw [World.readBlock, if_pos (by simpa using hun)] at hes
  cases hes

/-- A lookup through the cache finds in the bytes of a block what one without finds in
the entries. -/
theorem CSys.Good.getCached (h : s.Good) (hread : s.sys.TablesRead) (hr : r ∈ s.sys.db.sstables.flatten) (key : Bytes) :
    (r.getCached s.sys.world key s.blockCache).1 =
      (r.get (s.sys.world.readBlock r.file) key).map (·.map Value.bytes) := by
  obtain ⟨f, hf⟩ := h.own.serves r hr
  have hby := (hread.readable r hr).readBy hf
  rw [h.getCached_eq hr hf hby, SSTableReader.getCached_none hf (hread.fit r hr f hf) hby]

theorem CSys.Good.enter {db : DB} (h : CSys.Good ⟨⟨db, w⟩, cache⟩) (env : Env) : CSys.Good ⟨⟨db, w.enter env⟩, cache⟩ :=
  ⟨⟨h.own.lookup, h.own.serves, h.own.arc_lt, h.own.arcs, h.own.numbers⟩, h.coherent⟩

theorem CSys.Good.readable (h : s.Good) (hread : s.sys.TablesRead) : s.sys.Readable where
  reads := hread.readable
  nonempty r hr e he hes := by
    obtain ⟨f, hf⟩ := h.own.serves r hr
    have hindex : r.indexBlock = indexOf f.blocks := by
      rw [hf.of]
      exact hf.wellFormed.index_eq
    rw [hindex] at he
    obtain ⟨b, hb, rfl⟩ := List.mem_map.mp he
    rw [(hread.readable r hr).readBy hf b hb] at hes
    exact hf.wellFormed.nonempty b hb (Except.ok.inj hes)

-- ---------------------------------------------------------------------------
-- The database
-- ---------------------------------------------------------------------------

theorem CSys.Good.askTables (rs : List SSTableReader) (h : s.Good) (hread : s.sys.TablesRead)
    (hrs : ∀ r ∈ rs, r ∈ s.sys.db.sstables.flatten) (key : Bytes) :
    Triple (Cached.askTables key rs) s (fun v s' => (s'.sys = s.sys ∧ s'.Good) ∧
      (firstAnswer (fun r => r.get (s.sys.world.readBlock r.file) key) rs).map (·.map Value.bytes) = .ok v)
      (fun _ _ => False) := by
  induction rs generalizing s with
  | nil => exact Triple.pure ⟨⟨rfl, h⟩, rfl⟩
  | cons r rs ih =>
    have hr := hrs r List.mem_cons_self
    obtain ⟨answer, hget⟩ := SSTableReader.get_ok (hread.readable r hr) key
    have hcached : (r.getCached s.sys.world key s.blockCache).1 = .ok (answer.map Value.bytes) := by
      rw [h.getCached hread hr, hget]
      rfl
    have hthrough : Triple (throughCache fun w cache => r.getCached w key cache) s
        (fun v s' => v = answer.map Value.bytes ∧ s'.sys = s.sys ∧ s'.Good) (fun _ _ => False) := by
      have hkept : CSys.Good ⟨s.sys, (r.getCached s.sys.world key s.blockCache).2⟩ :=
        h.caches hr rfl (r.getCached_caches s.sys.world key s.blockCache)
      unfold Triple throughCache
      dsimp only
      cases hres : r.getCached s.sys.world key s.blockCache with
      | mk result cache =>
        rw [hres] at hcached hkept
        dsimp only at hcached
        subst hcached
        exact ⟨rfl, rfl, hkept⟩
    unfold Cached.askTables
    refine hthrough.bind ?_
    rintro v s₁ ⟨rfl, hsys, hgood⟩
    cases answer with
    | some value =>
      refine Triple.pure ⟨⟨hsys, hgood⟩, ?_⟩
      simp only [firstAnswer, hget]
      rfl
    | none =>
      have hrest := ih hgood (by rw [hsys]; exact hread) (by rw [hsys]; exact fun x hx => hrs x (List.mem_cons_of_mem r hx))
      rw [hsys] at hrest
      refine hrest.mono ?_ fun _ _ => id
      rintro v s₂ ⟨hs₂, hv⟩
      refine ⟨hs₂, ?_⟩
      simp only [firstAnswer, hget]
      exact hv

/-- Through the cache, `get_at_sequence` returns what it returns without, and only the
cache changes. -/
theorem Cached.getAtSequence_spec (h : s.Good) (hread : s.sys.TablesRead) (key : Bytes) (maxSeq : Nat) :
    Triple (Cached.getAtSequence key maxSeq) s
      (fun v s' => (s'.sys = s.sys ∧ s'.Good) ∧ s.sys.getAtSequence key maxSeq = .ok v) (fun _ _ => False) := by
  unfold Cached.getAtSequence
  refine Triple.get_bind ?_
  unfold Sys.getAtSequence DB.getAtSequence DB.memtables
  dsimp only
  cases (s.sys.db.memtable :: s.sys.db.immutableMemtables.reverse).findSome? (MemTable.get · key maxSeq) with
  | some x => exact Triple.pure ⟨⟨rfl, h⟩, rfl⟩
  | none =>
    dsimp only
    have htables : ∀ r ∈ s.sys.db.sstables.flatMap List.reverse, r ∈ s.sys.db.sstables.flatten := fun r hr => by
      simpa [List.mem_flatten] using hr
    refine (CSys.Good.askTables _ h hread htables key).mono ?_ fun _ _ => id
    rintro v s' ⟨hs', hv⟩
    refine ⟨hs', ?_⟩
    cases hans : firstAnswer (fun r => r.get (s.sys.world.readBlock r.file) key) (s.sys.db.sstables.flatMap List.reverse) with
    | error e => rw [hans] at hv; cases hv
    | ok o => rw [hans] at hv; exact hv

theorem Cached.getAtSequence_ok (h : s.Good) (hread : s.sys.TablesRead) (key : Bytes) (maxSeq : Nat) :
    ∃ v s', Cached.getAtSequence key maxSeq s = .ok v s' ∧ s'.sys = s.sys ∧ s'.Good ∧
      s.sys.getAtSequence key maxSeq = .ok v := by
  have hspec := Cached.getAtSequence_spec h hread key maxSeq
  unfold Triple at hspec
  cases hrun : Cached.getAtSequence key maxSeq s with
  | error e s' => rw [hrun] at hspec; exact hspec.elim
  | ok v s' =>
    rw [hrun] at hspec
    exact ⟨v, s', rfl, hspec.1.1, hspec.1.2, hspec.2⟩

-- ---------------------------------------------------------------------------
-- In a run
-- ---------------------------------------------------------------------------

namespace Cached

/-- The handle and its cache as a call in the environment finds them. -/
def State.handle (st : State) (env : Env) : Option CSys :=
  st.session.map fun x => ⟨⟨x.1, st.world.enter env⟩, x.2⟩

theorem State.Agrees.good {st : State} {env : Env} (h : st.Agrees) (hs : st.handle env = some s) : s.Good := by
  obtain ⟨⟨db, cache⟩, hst, rfl⟩ := Option.map_eq_some_iff.mp hs
  unfold State.Agrees at h
  rw [hst] at h
  exact h.1.enter env

theorem State.good_of_fresh {len : CompressedLen} {env : Env} (h : (State.init len).Along State.HandsOutFresh acts)
    (hs : ((State.init len).runs acts).handle env = some s) : s.Good := by
  have hinit : (State.init len).Agrees := Disk.sane_empty
  exact (hinit.runs h).good hs

def value (s : CSys) (key : Bytes) (maxSeq : Nat) : Option (Option Bytes) :=
  match getAtSequence key maxSeq s with
  | .ok v _ => some v
  | .error _ _ => none

theorem value_eq_some : value s key maxSeq = some v ↔ ∃ s', getAtSequence key maxSeq s = .ok v s' := by
  unfold value
  split <;> simp_all

end Cached

end AiDb
