import AiDb.DeepLevels

/-!
# Overlap in the deep levels

The picker takes the tables of one level and never the tables of the next level whose
keys lie between theirs. Whether the output overlaps with them is left to the data.
-/

namespace AiDb

open Library Compaction

variable {s s' : Sys}

-- ---------------------------------------------------------------------------
-- Key ranges
-- ---------------------------------------------------------------------------

/-- All keys of one list are below all keys of the other. -/
def Apart (as bs : List Entry) : Prop :=
  (∀ a ∈ as, ∀ b ∈ bs, a.key < b.key) ∨ ∀ a ∈ as, ∀ b ∈ bs, b.key < a.key

theorem Apart.symm (h : Apart as bs) : Apart bs as :=
  h.elim (fun h => .inr fun b hb a ha => h a ha b hb) (fun h => .inl fun b hb a ha => h a ha b hb)

theorem Apart.mono {as as' : List Entry} (h : Apart as bs) (hsub : as' ⊆ as) : Apart as' bs :=
  h.imp (fun h a ha => h a (hsub ha)) (fun h a ha => h a (hsub ha))

theorem SSTableReader.smallestKey_mem {r : SSTableReader} {w : World}
    (h : r.smallestKey (w.readBlock r.file) = .ok (some key)) : ∃ e ∈ w.disk.entriesOf r, e.key = key := by
  unfold SSTableReader.smallestKey at h
  cases hidx : r.indexBlock with
  | nil => simp [hidx] at h
  | cons x xs =>
    simp only [hidx] at h
    cases hread : w.readBlock r.file x.2 with
    | error e => simp [hread, bind, Except.bind] at h
    | ok es =>
      simp only [hread, bind, Except.bind, pure, Except.pure, Except.ok.injEq, Option.map_eq_some_iff] at h
      obtain ⟨e, he, rfl⟩ := h
      exact ⟨e, w.readBlock_yields r _ es hread e (List.mem_of_head? he), rfl⟩

theorem Disk.Serves.largestKey_mem {d : Disk} {r : SSTableReader} (hf : d.Serves r f) (h : r.largestKey = some key) :
    ∃ e ∈ d.entriesOf r, e.key = key := by
  rw [hf.entriesOf_eq]
  have hindex : r.indexBlock = f.index := by rw [hf.of]
  rw [SSTableReader.largestKey, hindex, hf.wellFormed.index_eq, indexOf, List.getLast?_map] at h
  simp only [Option.map_map, Option.map_eq_some_iff, Function.comp_apply] at h
  obtain ⟨b, hb, rfl⟩ := h
  have hmem := List.mem_of_getLast? hb
  have hlast := List.getLast?_eq_some_getLast (hf.wellFormed.nonempty b hmem)
  refine ⟨b.entries.getLast (hf.wellFormed.nonempty b hmem), List.mem_flatMap.mpr ⟨b, hmem, List.getLast_mem _⟩, ?_⟩
  simp [lastKeyOf, hlast]

-- ---------------------------------------------------------------------------
-- What a compaction needs
-- ---------------------------------------------------------------------------

def Sys.LevelsApart (s : Sys) : Prop := ∀ level ∈ s.tables.tail, level.Pairwise Apart

/-- With these tables in level 0, the next compaction takes tables whose keys lie apart
from each table of the level they go to. -/
def Sys.CompactsApart (s : Sys) (level0 : List (List Entry)) : Prop :=
  if maxLevel0Files ≤ level0.length then ∀ es ∈ s.tables.getD 1 [], Apart level0.flatten es
  else ∀ task, pickLoop s.db.sstables (s.db.options.maxLevels - 2) 1 = some (some task) →
    ∀ es ∈ s.tables.getD task.outputLevel [], Apart ((s.tables.getD task.level []).headD []) es

theorem Compacts.levelsApart (h : Compacts inputs out level levels levels')
    (hlevels : ∀ l ∈ levels.tail, l.Pairwise Apart)
    (hout : ∀ es ∈ levels.getD (level + 1) [], Apart inputs.flatten es) (hsub : out ⊆ inputs.flatten) :
    ∀ l ∈ levels'.tail, l.Pairwise Apart := by
  have happend : ∀ next : List (List Entry), next.Pairwise Apart → (∀ es ∈ next, Apart inputs.flatten es) →
      (next ++ [out]).Pairwise Apart := by
    intro next hnext hall
    refine List.pairwise_append.mpr ⟨hnext, List.pairwise_singleton _ _, fun es hes x hx => ?_⟩
    rw [List.mem_singleton.mp hx]
    exact ((hall es hes).mono hsub).symm
  cases h with
  | @level0 next below =>
    simp only [List.tail_cons, List.forall_mem_cons] at hlevels ⊢
    exact ⟨happend next hlevels.1 (by simpa using hout), hlevels.2⟩
  | @deeper x l0 above rest next below hx =>
    have hnext : (l0 :: (above ++ (x :: rest) :: next :: below)).getD (above.length + 1 + 1) [] = next := by simp
    rw [hnext] at hout
    simp only [List.tail_cons, List.forall_mem_append, List.forall_mem_cons] at hlevels ⊢
    exact ⟨hlevels.1, (List.pairwise_cons.mp hlevels.2.1).2, happend next hlevels.2.2.1 hout, hlevels.2.2.2⟩

theorem pickLoop_tail {levels levels' : Levels} (h : levels'.tail = levels.tail) (rounds level : Nat) :
    pickLoop levels' rounds (level + 1) = pickLoop levels rounds (level + 1) := by
  have hget : ∀ i, levels'.getD (i + 1) [] = levels.getD (i + 1) [] := by
    intro i
    have htail : ∀ l : Levels, l.getD (i + 1) [] = l.tail.getD i [] := by rintro (_ | ⟨x, l⟩) <;> simp
    rw [htail, htail, h]
  induction rounds generalizing level with
  | zero => rfl
  | succ rounds ih => simp only [pickLoop, hget, ih, pickLevelCompaction]

theorem Sys.CompactsApart.congr (h : s.CompactsApart level0) (hsst : s'.db.sstables.tail = s.db.sstables.tail)
    (hopts : s'.db.options = s.db.options) (htables : s'.tables.tail = s.tables.tail) : s'.CompactsApart level0 := by
  have hget : ∀ i, s'.tables.getD (i + 1) [] = s.tables.getD (i + 1) [] := by
    intro i
    have htail : ∀ l : List (List (List Entry)), l.getD (i + 1) [] = l.tail.getD i [] := by
      rintro (_ | ⟨x, l⟩) <;> simp
    rw [htail, htail, htables]
  unfold Sys.CompactsApart at h ⊢
  rw [hopts, pickLoop_tail hsst, hget 0]
  split_ifs at h ⊢
  · exact h
  · intro task hpick
    obtain ⟨i, r, rest, hi, -, htask⟩ := pickLoop_cases hpick
    obtain ⟨i, rfl⟩ := Nat.exists_eq_succ_of_ne_zero (Nat.ne_of_gt hi)
    have h := h task hpick
    rw [htask] at h ⊢
    simp only [Nat.succ_eq_add_one, hget] at h ⊢
    exact h

theorem Sys.CompactsApart.inputs (h : s.CompactsApart (s.tables.headD []))
    (hpick : pickCompaction s.db.options.maxLevels s.db.sstables = some (some task)) :
    ∀ es ∈ s.tables.getD (task.level + 1) [], Apart (task.inputs.map s.world.disk.entriesOf).flatten es := by
  unfold Sys.CompactsApart at h
  rw [s.length_level0] at h
  rcases pickCompaction_cases hpick with ⟨l, ls, hl, hfull, rfl⟩ | ⟨hfew, i, r, rest, -, hi, rfl⟩
  · have hl0 : s.tables.headD [] = l.map s.world.disk.entriesOf := by rw [Sys.tables, hl]; rfl
    rw [if_pos (by rw [hl]; exact hfull), hl0] at h
    exact h
  · rw [if_neg (Nat.not_le.mpr hfew)] at h
    rw [pickCompaction, if_neg (Nat.not_le.mpr hfew)] at hpick
    have hfirst : (s.tables.getD i []).headD [] = s.world.disk.entriesOf r := by
      simp [Sys.tables, List.getD_eq_getElem?_getD, hi]
    have h := h _ hpick
    rw [hfirst] at h
    simpa using h

theorem flushMemtableToSstable_tail (m : MemTable) (s : Sys) :
    Triple (flushMemtableToSstable m) s (fun _ s' => s'.db.sstables.tail = s.db.sstables.tail) (fun _ _ => True) := by
  refine (flushMemtableToSstable_spec m s).mono ?_ fun _ _ _ => trivial
  rintro _ s' (⟨-, hdb, -⟩ | ⟨-, f, r, -, -, hdb, -⟩)
  · rw [hdb]
    rfl
  · rw [hdb]
    exact (headD_modify_zero s.db.sstables r).2

/-- The tables that wait to be flushed, in front of level 0. -/
def Sys.level0WithImmutables (s : Sys) : List (List Entry) :=
  tablesOf s.db.immutableMemtables.reverse ++ s.tables.headD []

theorem Sys.LevelsApart.congr (h : s.LevelsApart) (htables : s'.tables.tail = s.tables.tail) : s'.LevelsApart := by
  rw [Sys.LevelsApart, htables]
  exact h

theorem flushMemtableToSstable_apart (h : s.Alone ∧ s.LevelsApart) (himm : s.db.immutableMemtables = m :: rest) :
    Triple (flushMemtableToSstable m) (s.popped rest)
      (fun _ s' => (s'.Alone ∧ s'.LevelsApart) ∧ (s.popped rest).MemtablesKept s' ∧
        s'.level0WithImmutables = s.level0WithImmutables ∧ s'.db.sstables.tail = s.db.sstables.tail ∧
        s'.tables.tail = s.tables.tail)
      (fun _ s' => s'.Alone ∧ s'.LevelsApart) := by
  have hrun := (flushMemtableToSstable_alone h.1 himm).and (flushMemtableToSstable_tail m (s.popped rest))
  refine hrun.mono ?_ ?_
  · rintro _ s' ⟨⟨halone, hkept, htables⟩, htail⟩
    have htabletail : s'.tables.tail = s.tables.tail := by
      rw [htables]
      split
      · rfl
      · exact (headD_modify_zero s.tables m.table).2
    refine ⟨⟨halone, h.2.congr htabletail⟩, hkept, ?_, htail, htabletail⟩
    have hne : s.tables ≠ [] := by simpa [Sys.tables] using h.1.reached.levels
    obtain ⟨l0, ls, hl⟩ := List.exists_cons_of_ne_nil hne
    have himm' : s'.db.immutableMemtables = rest := hkept.immutableMemtables
    rw [Sys.level0WithImmutables, Sys.level0WithImmutables, himm', himm, htables, hl, List.reverse_cons, tablesOf_append]
    split <;> rename_i hm <;> simp [tablesOf, hm]
  · rintro _ s' ⟨⟨halone, -, htables⟩, -⟩
    exact ⟨halone, h.2.congr (by rw [htables])⟩

theorem apart_rule : FlushRule (fun s => s.Alone ∧ s.LevelsApart)
    (fun s => (s.Alone ∧ s.LevelsApart) ∧ s.CompactsApart (s.tables.headD []))
    (fun s => (s.Alone ∧ s.LevelsApart) ∧ s.CompactsApart s.level0WithImmutables) where
  flushed s h himm := by
    have hl0 : s.level0WithImmutables = s.tables.headD [] := by simp [Sys.level0WithImmutables, himm, tablesOf]
    exact ⟨h.1, by rw [← hl0]; exact h.2⟩
  settled _ h := h.1
  logsBefore s s' h hl := by
    have hk := hl.tablesKept
    have htables := hk.tables_eq
    refine ⟨⟨h.1.1.logs hl, h.1.2.congr (by rw [htables])⟩, ?_⟩
    rw [htables]
    exact h.2.congr (by rw [hk.sstables]) hk.options (by rw [htables])
  logs s s' h hl := ⟨h.1.logs hl, h.2.congr (by rw [hl.tablesKept.tables_eq])⟩
  round s m rest h himm := by
    refine (flushMemtableToSstable_apart h.1 himm).mono ?_ fun _ _ => id
    rintro _ s' ⟨hJ, hkept, hl0, htail, htabletail⟩
    refine ⟨hJ, ?_⟩
    rw [hl0]
    exact h.2.congr htail hkept.options htabletail
  compact s task h hpick := by
    have hinputs := h.2.inputs hpick
    have hdone : ∀ s', s'.Alone ∧ s.MemtablesKept s' ∧ (s'.tables = s.tables ∨ ∃ es, s.jobEntries task = .ok es ∧
        Compacts (task.inputs.map s.world.disk.entriesOf) es task.level s.tables s'.tables) →
        s'.Alone ∧ s'.LevelsApart := by
      rintro s' ⟨halone, -, htables | ⟨es, hjob, hc⟩⟩
      · exact ⟨halone, h.1.2.congr (by rw [htables])⟩
      · refine ⟨halone, hc.levelsApart h.1.2 hinputs fun e he => ?_⟩
        obtain ⟨r, hr, he⟩ := Sys.mem_jobEntries hjob he
        exact List.mem_flatten.mpr ⟨_, List.mem_map_of_mem hr, he⟩
    exact (compact_alone h.1.1 hpick).mono (fun _ => hdone) (fun _ => hdone)

-- ---------------------------------------------------------------------------
-- Sessions
-- ---------------------------------------------------------------------------

/-- The tables a flush has in level 0 when it looks for a compaction. -/
def Sys.level0Flushed (s : Sys) : List (List Entry) := tablesOf s.db.memtables ++ s.tables.headD []

/-- What a step has to meet: the compaction it may come to takes tables that lie apart
from each table of the output level. -/
def State.CompactsApart (st : State) (_ : Env) : Action → Prop
  | .call .flush | .call .close => ∀ db, st.db = some db →
    Sys.CompactsApart ⟨db, st.world⟩ (Sys.level0Flushed ⟨db, st.world⟩)
  | .call .maybeTriggerCompaction => ∀ db, st.db = some db →
    Sys.CompactsApart ⟨db, st.world⟩ ((Sys.tables ⟨db, st.world⟩).headD [])
  | _ => True

theorem Sys.level0WithImmutables_frozen (s : Sys) : s.frozen.level0WithImmutables = s.level0Flushed := by
  unfold Sys.level0WithImmutables Sys.level0Flushed
  rw [s.tablesKept_frozen.tables_eq]
  congr 1
  unfold Sys.frozen
  split
  · rename_i hempty
    simp [tablesOf, DB.memtables, MemTable.table_eq_nil.mpr hempty]
  · simp [Sys.freeze, DB.freeze, DB.memtables]

theorem Call.run_apart (c : Call) (h : s.Alone ∧ s.LevelsApart)
    (hflush : c = .flush ∨ c = .close → s.CompactsApart s.level0Flushed)
    (hcompact : c = .maybeTriggerCompaction → s.CompactsApart (s.tables.headD [])) :
    Triple c.run s (fun _ s' => s'.Alone ∧ s'.LevelsApart) (fun _ s' => s'.Alone ∧ s'.LevelsApart) := by
  have hfrozen : s.frozen.Alone ∧ s.frozen.LevelsApart :=
    ⟨h.1.frozen, h.2.congr (by rw [s.tablesKept_frozen.tables_eq])⟩
  have hwith : c = .flush ∨ c = .close → (s.frozen.Alone ∧ s.frozen.LevelsApart) ∧
      s.frozen.CompactsApart s.frozen.level0WithImmutables := by
    intro hc
    have hk := s.tablesKept_frozen
    refine ⟨hfrozen, ?_⟩
    rw [s.level0WithImmutables_frozen]
    exact (hflush hc).congr (by rw [hk.sstables]) hk.options (by rw [hk.tables_eq])
  by_cases hc : c.IsWrite
  · refine Call.write_rule (I := fun s => s.Alone ∧ s.LevelsApart) ?_ ?_ ?_ apart_rule.logs hc s h
    · exact fun s n h => ⟨h.1.bump n, h.2.congr (by rw [(s.tablesKept_bump n).tables_eq])⟩
    · exact fun s ops h => ⟨h.1.insert ops, h.2.congr (by rw [(s.tablesKept_insert ops).tables_eq])⟩
    · exact fun s h => ⟨h.1.freeze, h.2.congr (by rw [s.tablesKept_freeze.tables_eq])⟩
  · cases c with
    | flushTables =>
      refine flushTables_rule (F := fun s => s.Alone ∧ s.LevelsApart) ?_ (fun _ h _ => h) apart_rule.logs hfrozen
      exact fun s m rest h himm => (flushMemtableToSstable_apart h himm).mono (fun _ _ h => h.1) fun _ _ => id
    | maybeTriggerCompaction => exact apart_rule.maybeTriggerCompaction ⟨h, hcompact rfl⟩
    | flush => exact apart_rule.flush (hwith (.inl rfl))
    | close => exact apart_rule.close (hwith (.inr rfl))
    | _ => exact absurd trivial hc

theorem Sys.Blank.levelsApart (h : s.Blank o) : s.LevelsApart := by
  intro l hl
  rw [Sys.tables, h.tables, List.map_cons, List.tail_cons, List.map_replicate] at hl
  rw [(List.mem_replicate.mp hl).2]
  exact .nil

/-- In a session whose compactions all meet the condition, the key ranges of the tables
of a level from 1 on are disjoint. -/
theorem deepLevels_disjoint (len : CompressedLen) (env : Env) (o : Options) (calls : List (Env × Call)) (db : DB)
    (w : World) (halong : (State.init len).Along State.CompactsApart (oneSession env o calls))
    (hrun : (State.init len).runs (oneSession env o calls) = ⟨some db, w⟩) :
    ∀ level ∈ db.sstables.tail, level.Pairwise fun r r' => ∀ a b a' b',
      r.smallestKey (w.readBlock r.file) = .ok (some a) → r.largestKey = some b →
      r'.smallestKey (w.readBlock r'.file) = .ok (some a') → r'.largestKey = some b' → b < a' ∨ b' < a := by
  have hJ := oneSession_rule (J := fun s => s.Alone ∧ s.LevelsApart)
    (fun env o => (openDb_alone len env o).mono (fun db w h => ⟨h.1, h.2.levelsApart⟩) (fun _ _ _ => trivial))
    (fun db w env h => ⟨h.1.enter env, h.2⟩)
    (fun db w env c h hP => Call.run_apart c ⟨h.1.enter env, h.2⟩
      (by rintro (rfl | rfl) <;> exact hP db rfl) (by rintro rfl; exact hP db rfl))
    halong (by rw [hrun])
  rw [hrun] at hJ
  obtain ⟨halone, hapart⟩ := hJ
  intro level hlevel
  have hserves : ∀ r ∈ level, ∃ f, w.disk.Serves r f := fun r hr =>
    halone.intact.serves r (List.mem_flatten.mpr ⟨level, List.mem_of_mem_tail hlevel, hr⟩)
  have hpair : (level.map w.disk.entriesOf).Pairwise Apart := by
    refine hapart _ ?_
    rw [Sys.tables, ← List.map_tail]
    exact List.mem_map_of_mem hlevel
  refine (List.pairwise_map.mp hpair).imp_of_mem ?_
  intro r r' hr hr' h a b a' b' ha hb ha' hb'
  obtain ⟨f, hf⟩ := hserves r hr
  obtain ⟨f', hf'⟩ := hserves r' hr'
  obtain ⟨x, hx, rfl⟩ := SSTableReader.smallestKey_mem ha
  obtain ⟨y, hy, rfl⟩ := hf.largestKey_mem hb
  obtain ⟨x', hx', rfl⟩ := SSTableReader.smallestKey_mem ha'
  obtain ⟨y', hy', rfl⟩ := hf'.largestKey_mem hb'
  exact h.imp (fun h => h y hy x' hx') (fun h => h x hx y' hy')

instance decidableApart (as bs : List Entry) : Decidable (Apart as bs) :=
  inferInstanceAs (Decidable ((∀ a ∈ as, ∀ b ∈ bs, a.key < b.key) ∨ ∀ a ∈ as, ∀ b ∈ bs, b.key < a.key))

def Sys.compactsApart (s : Sys) (level0 : List (List Entry)) : Bool :=
  if maxLevel0Files ≤ level0.length then decide (∀ es ∈ s.tables.getD 1 [], Apart level0.flatten es)
  else
    match pickLoop s.db.sstables (s.db.options.maxLevels - 2) 1 with
    | some (some task) =>
      decide (∀ es ∈ s.tables.getD task.outputLevel [], Apart ((s.tables.getD task.level []).headD []) es)
    | _ => true

theorem Sys.compactsApart_sound (h : s.compactsApart level0 = true) : s.CompactsApart level0 := by
  unfold Sys.compactsApart at h
  unfold Sys.CompactsApart
  split_ifs at h ⊢
  · exact of_decide_eq_true h
  · intro task htask
    rw [htask] at h
    exact of_decide_eq_true h

def State.compactsApart (st : State) (_ : Env) : Action → Bool
  | .call .flush | .call .close => st.db.all fun db =>
    Sys.compactsApart ⟨db, st.world⟩ (Sys.level0Flushed ⟨db, st.world⟩)
  | .call .maybeTriggerCompaction => st.db.all fun db =>
    Sys.compactsApart ⟨db, st.world⟩ ((Sys.tables ⟨db, st.world⟩).headD [])
  | _ => true

theorem State.compactsApart_sound {st : State} (h : st.compactsApart env a = true) : st.CompactsApart env a := by
  unfold State.compactsApart at h
  unfold State.CompactsApart
  split at h
  all_goals first | exact trivial | skip
  all_goals
    intro db hdb
    rw [hdb] at h
    exact Sys.compactsApart_sound h

/-- Four tables of one key, then four of another: two tables in level 1. -/
def twoKeysFlushed : List (Env × Action) :=
  oneSession .calm .plain ((List.replicate 4 [(.calm, .put [97] [1]), (.calm, .flush)]).flatten ++
    (List.replicate 4 [(.calm, .put [98] [1]), (.calm, .flush)]).flatten)

def State.level1Ranges (st : State) : Option (List (Except Error (Option Bytes) × Option Bytes)) :=
  st.db.map fun db => (db.sstables.getD 1 []).map fun r => (r.smallestKey (st.world.readBlock r.file), r.largestKey)

theorem deepLevels_disjoint_twoKeys : (State.init .unused).Along State.CompactsApart twoKeysFlushed ∧
    ((State.init .unused).runs twoKeysFlushed).level1Ranges =
      some [(.ok (some [97]), some [97]), (.ok (some [98]), some [98])] ∧
    ∃ db w, (State.init .unused).runs twoKeysFlushed = ⟨some db, w⟩ ∧
      ∀ level ∈ db.sstables.tail, level.Pairwise fun r r' => ∀ a b a' b',
        r.smallestKey (w.readBlock r.file) = .ok (some a) → r.largestKey = some b →
        r'.smallestKey (w.readBlock r'.file) = .ok (some a') → r'.largestKey = some b' → b < a' ∨ b' < a := by
  have halong : (State.init .unused).Along State.CompactsApart twoKeysFlushed := by
    have hcheck : (State.init .unused).checkAlong State.compactsApart twoKeysFlushed = true := by decide +kernel
    exact State.along_of_check (fun _ _ _ => State.compactsApart_sound) hcheck
  have hranges : ((State.init .unused).runs twoKeysFlushed).level1Ranges =
      some [(.ok (some [97]), some [97]), (.ok (some [98]), some [98])] := by decide +kernel
  obtain ⟨db, hdb, -⟩ := Option.map_eq_some_iff.mp hranges
  have hrun : (State.init .unused).runs twoKeysFlushed =
      ⟨some db, ((State.init .unused).runs twoKeysFlushed).world⟩ := by rw [← hdb]
  exact ⟨halong, hranges, db, _, hrun, deepLevels_disjoint .unused .calm .plain _ db _ halong hrun⟩

/-- The second compaction of level 0 does not look at the table that the first one left. -/
theorem deepLevels_overlap_eightFlushes : ∃ db w level, (State.init .unused).runs eightFlushes = ⟨some db, w⟩ ∧
    level ∈ db.sstables.tail ∧ ¬level.Pairwise fun r r' => ∀ a b a' b',
      r.smallestKey (w.readBlock r.file) = .ok (some a) → r.largestKey = some b →
      r'.smallestKey (w.readBlock r'.file) = .ok (some a') → r'.largestKey = some b' → b < a' ∨ b' < a := by
  have hranges : ((State.init .unused).runs eightFlushes).level1Ranges =
      some [(.ok (some [97]), some [97]), (.ok (some [97]), some [97])] := by decide +kernel
  obtain ⟨db, hdb, hranges⟩ := Option.map_eq_some_iff.mp hranges
  have hrun : (State.init .unused).runs eightFlushes =
      ⟨some db, ((State.init .unused).runs eightFlushes).world⟩ := by rw [← hdb]
  obtain ⟨r, rest, hl, hr, hrest⟩ := List.map_eq_cons_iff.mp hranges
  obtain ⟨r', rest', rfl, hr', -⟩ := List.map_eq_cons_iff.mp hrest
  simp only [Prod.mk.injEq] at hr hr'
  refine ⟨db, _, db.sstables.getD 1 [], hrun, ?_, fun hpair => ?_⟩
  · rcases hsst : db.sstables with _ | ⟨l0, _ | ⟨l1, ls⟩⟩
    · simp [hsst] at hl
    · simp [hsst] at hl
    · simp
  · rw [hl, List.pairwise_cons] at hpair
    have hlt := hpair.1 r' List.mem_cons_self [97] [97] [97] [97] hr.1 hr.2 hr'.1 hr'.2
    simp at hlt

end AiDb
