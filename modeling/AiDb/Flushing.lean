import AiDb.Layers
import AiDb.Writers

/-!
# Flushes beside writers and readers

A flush moves versions from the active memtable to the list of frozen ones, off the
list into its own hands, and from there into a table. Writers and readers see the
four places one at a time, and the log is replaced on the assumption that everything
in it has reached the last of them.
-/

namespace AiDb

open Library Compaction

variable {s s' : Shared} {threads : List Thread} {t t' : Thread}

-- ---------------------------------------------------------------------------
-- The way of a version
-- ---------------------------------------------------------------------------

/-- The memtable a flush has in hand: off the list, its table not installed. -/
def Thread.inHand : Thread → Option MemTable
  | .flush (.writing m) => some m
  | .flush (.failed m) => some m
  | _ => none

/-- The version is in hand or has arrived, where `T` says what arriving means. -/
def Late (T : Shared → Prop) (e : InternalKey × Value) (s : Shared) (threads : List Thread) : Prop :=
  (∃ t ∈ threads, ∃ m ∈ t.inHand, e ∈ m.iter) ∨ T s

def Frozen (T : Shared → Prop) (e : InternalKey × Value) (s : Shared) (threads : List Thread) : Prop :=
  (∃ m ∈ s.sys.db.immutableMemtables, e ∈ m.iter) ∨ Late T e s threads

def Stored (T : Shared → Prop) (e : InternalKey × Value) (s : Shared) (threads : List Thread) : Prop :=
  e ∈ s.sys.db.memtable.iter ∨ Frozen T e s threads

section Way

variable {T : Shared → Prop} {e : InternalKey × Value}

/-- A version leaves the hand of a flush only by arriving. -/
theorem Late.step (hm : s.Moves t s' t') (ht : threads[i]? = some t) (hmono : T s → T s')
    (harrive : ∀ m n, t = .flush (.writing m) → flushMemtableToSstable m s.sys = .ok n s'.sys → e ∈ m.iter → T s')
    (h : Late T e s threads) : Late T e s' (threads.set i t') := by
  rcases h with hhand | hT
  · rcases Config.exists_set ht t' hhand with ⟨m, hin, he⟩ | hother
    · cases hm with
      | @install m' n s1 hr =>
        obtain rfl : m' = m := Option.some.inj hin
        exact .inr (harrive m' n rfl hr he)
      | @notInstalled m' _ s1 hr =>
        obtain rfl : m' = m := Option.some.inj hin
        exact .inl ⟨_, Config.mem_set_self ht _, m', rfl, he⟩
      | _ => cases hin
    · exact .inl hother
  · exact .inr (hmono hT)

theorem Frozen.step (hm : s.Moves t s' t') (ht : threads[i]? = some t) (hmono : T s → T s')
    (harrive : ∀ m n, t = .flush (.writing m) → flushMemtableToSstable m s.sys = .ok n s'.sys → e ∈ m.iter → T s')
    (h : Frozen T e s threads) : Frozen T e s' (threads.set i t') := by
  rcases h with ⟨m, hmem, he⟩ | hlate
  · have hkept : m ∈ s'.sys.db.immutableMemtables → Frozen T e s' (threads.set i t') := fun hin => .inl ⟨m, hin, he⟩
    cases hm with
    | log hlogs => exact hkept (by rw [hlogs.writesKept.immutableMemtables]; exact hmem)
    | freeze => exact hkept (List.mem_append_left _ hmem)
    | freezeFlush => exact hkept (List.mem_append_left _ hmem)
    | @pop m' rest himm =>
      rw [himm] at hmem
      rcases List.mem_cons.mp hmem with rfl | hmem
      · exact .inr (.inl ⟨_, Config.mem_set_self ht _, m, rfl, he⟩)
      · exact hkept hmem
    | @install m' _ _ hr =>
      exact hkept (by rw [((flushMemtableToSstable_writesKept m' s.sys).ok hr).immutableMemtables]; exact hmem)
    | @notInstalled m' _ _ hr =>
      exact hkept (by rw [((flushMemtableToSstable_writesKept m' s.sys).error hr).immutableMemtables]; exact hmem)
    | swap happ => exact hkept (by show m ∈ _; rw [Sys.withWriter, happ.logs.writesKept.immutableMemtables]; exact hmem)
    | _ => exact hkept hmem
  · exact .inr (hlate.step hm ht hmono harrive)

theorem Stored.step (hnum : Numbering ⟨s, threads⟩) (hm : s.Moves t s' t') (ht : threads[i]? = some t)
    (hmono : T s → T s')
    (harrive : ∀ m n, t = .flush (.writing m) → flushMemtableToSstable m s.sys = .ok n s'.sys → e ∈ m.iter → T s')
    (h : Stored T e s threads) : Stored T e s' (threads.set i t') := by
  rcases h with he | hfrozen
  · have hkept : s'.sys.db.memtable = s.sys.db.memtable → Stored T e s' (threads.set i t') := fun heq => .inl (heq ▸ he)
    have hfreeze : s'.sys = s.sys.freeze → Stored T e s' (threads.set i t') := fun heq =>
      .inr (.inl ⟨s.sys.db.memtable, by rw [heq]; exact List.mem_append_right _ List.mem_cons_self, he⟩)
    cases hm with
    | log hlogs => exact hkept hlogs.writesKept.memtable
    | @insert ops stamp seq op rest =>
      obtain ⟨rfl, hpre⟩ := hnum.placed _ (List.mem_of_getElem? ht)
      exact .inl (((hnum.memtables _ List.mem_cons_self).mem_apply (getElem?_of_prefix_drop hpre)).mpr (.inr he))
    | freeze => exact hfreeze rfl
    | freezeFlush => exact hfreeze rfl
    | @install m' _ _ hr => exact hkept ((flushMemtableToSstable_writesKept m' s.sys).ok hr).memtable
    | @notInstalled m' _ _ hr => exact hkept ((flushMemtableToSstable_writesKept m' s.sys).error hr).memtable
    | swap happ => exact hkept happ.logs.writesKept.memtable
    | _ => exact hkept rfl
  · exact .inr (hfrozen.step hm ht hmono harrive)

end Way

-- ---------------------------------------------------------------------------
-- The tables
-- ---------------------------------------------------------------------------

theorem flushMemtableToSstable_serving_error (m : MemTable) {s s' : Sys} (hs : s.Serving)
    (h : flushMemtableToSstable m s = .error e s') : s'.Serving ∧ s'.tables = s.tables := by
  have hn : s'.Numbered := (flushMemtableToSstable_numbered m s hs.numbered).error h
  obtain ⟨hs', htables, -, hread⟩ := flushMemtableToSstable_intact_error m hs.intact hs.numbered.next_unused h
  refine ⟨hs'.serving hn ?_, htables⟩
  rw [hread]
  exact hs.readable

theorem Shared.Moves.tablesKept (hm : s.Moves t s' t') (ht : ∀ m, t ≠ .flush (.writing m)) : s.sys.TablesKept s'.sys := by
  have hsame : s.sys.TablesKept s.sys := ⟨rfl, rfl, rfl, rfl, rfl, rfl, rfl, rfl⟩
  cases hm with
  | log hlogs => exact hlogs.tablesKept
  | create =>
    refine ⟨rfl, rfl, rfl, ?_, ?_, rfl, rfl, rfl⟩
    · simp only [Sys.withNewLog]
      split <;> rfl
    · simp only [Sys.withNewLog]
      split <;> rfl
  | swap happ => exact happ.logs.tablesKept.trans ⟨rfl, rfl, rfl, rfl, rfl, rfl, rfl, rfl⟩
  | @install m => exact absurd rfl (ht m)
  | @notInstalled m => exact absurd rfl (ht m)
  | _ => exact ⟨rfl, rfl, rfl, rfl, rfl, rfl, rfl, rfl⟩

theorem Shared.Moves.serving (hm : s.Moves t s' t') (hs : s.sys.Serving) : s'.sys.Serving := by
  by_cases hw : ∃ m, t = .flush (.writing m)
  · obtain ⟨m, rfl⟩ := hw
    cases hm with
    | install hr => exact (flushMemtableToSstable_serving m hs hr).1
    | notInstalled hr => exact (flushMemtableToSstable_serving_error m hs hr).1
  · exact hs.kept (hm.tablesKept fun m heq => hw ⟨m, heq⟩)

theorem Shared.Moves.tables_subset (hm : s.Moves t s' t') (hs : s.sys.Serving) :
    ∀ es ∈ s.sys.tables.flatten, es ∈ s'.sys.tables.flatten := by
  intro es hes
  by_cases hw : ∃ m, t = .flush (.writing m)
  · obtain ⟨m, rfl⟩ := hw
    cases hm with
    | install hr =>
      rw [(flushMemtableToSstable_serving m hs hr).2.1]
      split
      · exact hes
      · cases htables : s.sys.tables with
        | nil => rw [htables] at hes; exact hes
        | cons l ls =>
          rw [htables] at hes
          exact List.mem_cons_of_mem _ hes
    | notInstalled hr =>
      rw [(flushMemtableToSstable_serving_error m hs hr).2]
      exact hes
  · rw [(hm.tablesKept fun m heq => hw ⟨m, heq⟩).tables_eq]
    exact hes

end AiDb
