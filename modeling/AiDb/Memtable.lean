import AiDb.Bytes
import AiDb.Library.SkipMap

/-!
# The memtable

Versions are kept under internal keys: user key ascending, then sequence
number descending, then type descending. The first entry of a user key is
therefore its newest version. `crossbeam_skiplist::SkipMap` is an ordered map.

Sequence numbers are natural numbers here; the bound `u64::MAX` that the source
puts into the keys of a range is `⊤`.
-/

namespace AiDb

open Library

inductive ValueType
  | deletion
  | value
  deriving DecidableEq, Repr

def ValueType.asU8 : ValueType → Nat
  | .deletion => 0
  | .value => 1

abbrev Sequence := WithTop ℕ

structure InternalKey where
  userKey : Bytes
  sequence : Sequence
  valueType : ValueType
  deriving DecidableEq

/-- The key as a tuple whose lexicographic order is the order of internal keys. -/
def InternalKey.rank (k : InternalKey) : Bytes ×ₗ Sequenceᵒᵈ ×ₗ ℕᵒᵈ :=
  toLex (k.userKey, toLex (OrderDual.toDual k.sequence, OrderDual.toDual k.valueType.asU8))

theorem InternalKey.rank_injective : Function.Injective InternalKey.rank := by
  rintro ⟨u, s, t⟩ ⟨u', s', t'⟩ h
  simp only [rank, EmbeddingLike.apply_eq_iff_eq, Prod.mk.injEq] at h
  obtain ⟨rfl, rfl, ht⟩ := h
  cases t <;> cases t' <;> first | rfl | cases ht

instance : LinearOrder InternalKey := LinearOrder.lift' InternalKey.rank InternalKey.rank_injective

/-- `InternalKey::cmp`, the order of the source. -/
def InternalKey.order (a b : InternalKey) : Ordering :=
  if a.userKey = b.userKey then
    if b.sequence = a.sequence then
      if b.valueType.asU8 = a.valueType.asU8 then .eq
      else if b.valueType.asU8 < a.valueType.asU8 then .lt else .gt
    else if b.sequence < a.sequence then .lt else .gt
  else if a.userKey < b.userKey then .lt else .gt

theorem InternalKey.lt_iff (a b : InternalKey) : a < b ↔ a.userKey < b.userKey ∨
    a.userKey = b.userKey ∧ (b.sequence < a.sequence ∨
      b.sequence = a.sequence ∧ b.valueType.asU8 < a.valueType.asU8) := by
  show a.rank < b.rank ↔ _
  simp only [rank, Prod.Lex.toLex_lt_toLex, OrderDual.toDual_lt_toDual, OrderDual.toDual_inj]
  tauto

theorem InternalKey.order_eq_lt (a b : InternalKey) : a.order b = .lt ↔ a < b := by
  rw [lt_iff, order]
  split_ifs with hu hs ht <;> simp_all

/-- A stored value. `stamp` is a history variable: the number of writes issued
on the directory before the one that stored the value. No operation looks at
it; it is what "written later" means. -/
structure Value where
  bytes : Bytes
  stamp : Nat
  deriving DecidableEq, Repr

structure MemTable where
  data : SkipMap InternalKey Value
  size : Nat
  startSequence : Nat

namespace MemTable

def new (startSequence : Nat) : MemTable := ⟨SkipMap.empty, 0, startSequence⟩

def put (m : MemTable) (key : Bytes) (value : Value) (sequence : Nat) : MemTable :=
  { m with
    data := m.data.insert ⟨key, sequence, .value⟩ value
    size := m.size + (key.length + value.bytes.length + 16) }

/-- `MemTable::delete` stores an empty value under a key of type `Deletion`. -/
def delete (m : MemTable) (key : Bytes) (stamp : Nat) (sequence : Nat) : MemTable :=
  { m with
    data := m.data.insert ⟨key, sequence, .deletion⟩ ⟨[], stamp⟩
    size := m.size + (key.length + 16) }

def get (m : MemTable) (key : Bytes) (maxSequence : Sequence) : Option Value :=
  let lowerBound : InternalKey := ⟨key, ⊤, .value⟩
  let upperBound : InternalKey := ⟨key ++ [0], ⊤, .value⟩
  match (m.data.range lowerBound upperBound).find? fun e =>
      e.1.userKey = key ∧ e.1.sequence ≤ maxSequence with
  | some (k, v) =>
    match k.valueType with
    | .value => some v
    | .deletion => none
  | none => none

def approximateSize (m : MemTable) : Nat := m.size

def isEmpty (m : MemTable) : Bool := m.data.entries.isEmpty

def iter (m : MemTable) : List (InternalKey × Value) := m.data.entries

end MemTable

-- ---------------------------------------------------------------------------
-- Lookup
-- ---------------------------------------------------------------------------

theorem lt_append_zero (key : Bytes) : key < key ++ [0] := by
  induction key with
  | nil => exact List.nil_lt_cons 0 []
  | cons b bs ih => exact List.cons_lt_cons_iff.mpr (.inr ⟨rfl, ih⟩)

theorem InternalKey.mem_range (k : InternalKey) :
    (⟨k.userKey, ⊤, .value⟩ : InternalKey) ≤ k ∧ k < ⟨k.userKey ++ [0], ⊤, .value⟩ := by
  constructor
  · rw [← not_lt, lt_iff]
    rintro (h | ⟨-, h | ⟨-, h⟩⟩)
    · exact lt_irrefl _ h
    · exact not_top_lt h
    · cases hv : k.valueType <;> simp [hv, ValueType.asU8] at h
  · rw [lt_iff]
    exact .inl (lt_append_zero k.userKey)

namespace MemTable

def newest (m : MemTable) (key : Bytes) (maxSequence : Sequence) : Option (InternalKey × Value) :=
  m.iter.find? fun e => e.1.userKey = key ∧ e.1.sequence ≤ maxSequence

theorem get_eq (m : MemTable) (key : Bytes) (s : Sequence) :
    m.get key s = match m.newest key s with
      | some (⟨_, _, .value⟩, v) => some v
      | _ => none := by
  have hfind : (m.data.range ⟨key, ⊤, .value⟩ ⟨key ++ [0], ⊤, .value⟩).find?
      (fun e => e.1.userKey = key ∧ e.1.sequence ≤ s) = m.newest key s := by
    rw [SkipMap.range, List.find?_filter, newest, iter]
    congr 1
    funext e
    by_cases hk : e.1.userKey = key
    · have hr := e.1.mem_range
      rw [hk] at hr
      simp [hk, hr]
    · simp [hk]
  rw [get, hfind]
  rcases m.newest key s with _ | ⟨⟨u, sq, _ | _⟩, v⟩ <;> rfl

theorem newest_eq_some {m : MemTable} : m.newest key s = some e ↔
    e ∈ m.iter ∧ (e.1.userKey = key ∧ e.1.sequence ≤ s) ∧
      ∀ x ∈ m.iter, x.1.userKey = key → x.1.sequence ≤ s → e.1 ≤ x.1 := by
  have hord := m.data.ordered
  unfold newest iter
  constructor
  · intro h
    obtain ⟨hp, before, after, hsplit, hbefore⟩ := List.find?_eq_some_iff_append.mp h
    refine ⟨List.mem_of_find?_eq_some h, by simpa using hp, fun x hx hk hs => ?_⟩
    rw [hsplit] at hx hord
    rcases List.mem_append.mp hx with hx | hx
    · have := hbefore x hx
      simp [hk, hs] at this
    · rcases List.mem_cons.mp hx with rfl | hx
      · exact le_refl _
      · exact le_of_lt ((List.pairwise_cons.mp (List.pairwise_append.mp hord).2.1).1 x hx)
  · rintro ⟨hmem, hp, hleast⟩
    cases hfind : m.data.entries.find? fun e => e.1.userKey = key ∧ e.1.sequence ≤ s with
    | none => exact absurd hp (by simpa using List.find?_eq_none.mp hfind e hmem)
    | some y =>
      obtain ⟨hpy, before, after, hsplit, hbefore⟩ := List.find?_eq_some_iff_append.mp hfind
      have hy : y ∈ m.data.entries := List.mem_of_find?_eq_some hfind
      rw [decide_eq_true_eq] at hpy
      have hle := hleast y hy hpy.1 hpy.2
      rw [hsplit] at hmem hord
      rcases List.mem_append.mp hmem with hmem | hmem
      · have := hbefore e hmem
        simp [hp] at this
      · rcases List.mem_cons.mp hmem with rfl | hmem
        · rfl
        · exact absurd ((List.pairwise_cons.mp (List.pairwise_append.mp hord).2.1).1 e hmem)
            (not_lt.mpr hle)

theorem newest_eq_none {m : MemTable} : m.newest key s = none ↔
    ∀ x ∈ m.iter, x.1.userKey = key → ¬x.1.sequence ≤ s := by
  simp [newest, List.find?_eq_none]

theorem newest_congr {m m' : MemTable}
    (h : ∀ e : InternalKey × Value, e.1.userKey = key → e.1.sequence ≤ s → (e ∈ m'.iter ↔ e ∈ m.iter)) :
    m'.newest key s = m.newest key s := by
  cases hold : m.newest key s with
  | none =>
    rw [newest_eq_none] at hold ⊢
    exact fun x hx hk hs => hold x ((h x hk hs).mp hx) hk hs
  | some e =>
    rw [newest_eq_some] at hold ⊢
    obtain ⟨hmem, ⟨hk, hs⟩, hleast⟩ := hold
    exact ⟨(h e hk hs).mpr hmem, ⟨hk, hs⟩, fun x hx hxk hxs => hleast x ((h x hxk hxs).mp hx) hxk hxs⟩

-- ---------------------------------------------------------------------------
-- Writing
-- ---------------------------------------------------------------------------

/-- Sequence numbers stay at or below `bound`, and a deletion stores no bytes. -/
structure Bounded (m : MemTable) (bound : Nat) : Prop where
  sequence_le : ∀ e ∈ m.iter, e.1.sequence ≤ (bound : Sequence)
  deletion : ∀ e ∈ m.iter, e.1.valueType = .deletion → e.2.bytes = []

theorem bounded_new : (MemTable.new start).Bounded bound :=
  ⟨fun _ he => (nomatch he), fun _ he => (nomatch he)⟩

theorem bounded_of_isEmpty {m : MemTable} (h : m.isEmpty = true) : m.Bounded bound := by
  have hnil : m.iter = [] := by simpa [isEmpty, iter] using h
  constructor <;> simp [hnil]

theorem Bounded.mono {m : MemTable} (h : m.Bounded bound) (hle : bound ≤ bound') : m.Bounded bound' :=
  ⟨fun e he => (h.sequence_le e he).trans (by exact_mod_cast hle), h.deletion⟩

theorem newest_of_bounded {m : MemTable} (h : m.Bounded bound) : m.newest key bound = m.newest key ⊤ := by
  unfold newest
  refine List.find?_congr fun e he => ?_
  simp [h.sequence_le e he]

theorem get_of_bounded {m : MemTable} (h : m.Bounded bound) : m.get key bound = m.get key ⊤ := by
  rw [get_eq, get_eq, newest_of_bounded h]

theorem newest_insert {m m' : MemTable} {sequence : Nat} (h : m.Bounded bound) (hlt : bound < sequence)
    (hm : m'.data = m.data.insert ⟨key, (sequence : Sequence), t⟩ v) :
    m'.newest k ⊤ = if k = key then some (⟨key, (sequence : Sequence), t⟩, v) else m.newest k ⊤ := by
  have hmem : ∀ e, e ∈ m'.iter ↔ e = (⟨key, (sequence : Sequence), t⟩, v) ∨ e ∈ m.iter := by
    intro e
    unfold iter
    rw [hm, SkipMap.mem_insert]
    refine or_congr_right ⟨And.left, fun he => ⟨he, fun heq => ?_⟩⟩
    have hle : (sequence : Sequence) ≤ bound := by
      have := h.sequence_le e he
      rwa [heq] at this
    exact absurd hlt (not_lt.mpr (by exact_mod_cast hle))
  split_ifs with hk
  · subst hk
    rw [newest_eq_some]
    refine ⟨(hmem _).mpr (.inl rfl), ⟨rfl, le_top⟩, fun x hx hxk _ => ?_⟩
    rcases (hmem x).mp hx with rfl | hx
    · exact le_refl _
    · rw [← not_lt, InternalKey.lt_iff]
      have hseq : x.1.sequence < (sequence : Sequence) :=
        lt_of_le_of_lt (h.sequence_le x hx) (by exact_mod_cast hlt)
      rintro (hlt' | ⟨-, hlt' | ⟨heq, -⟩⟩)
      · exact absurd hxk (ne_of_lt hlt')
      · exact absurd hseq (not_lt.mpr (le_of_lt hlt'))
      · exact absurd heq (ne_of_gt hseq)
  · refine newest_congr fun e hek _ => (hmem e).trans (or_iff_right ?_)
    rintro rfl
    exact hk hek.symm

theorem newest_insert_above {m m' : MemTable} {sequence : Nat} (hlt : bound < sequence)
    (hm : m'.data = m.data.insert ⟨key, (sequence : Sequence), t⟩ v) : m'.newest k bound = m.newest k bound := by
  refine newest_congr fun e _ hs => ?_
  unfold iter
  rw [hm, SkipMap.mem_insert]
  have hne : e.1 ≠ ⟨key, (sequence : Sequence), t⟩ := by
    intro heq
    have hle : (sequence : Sequence) ≤ bound := by rwa [heq] at hs
    exact absurd hlt (not_lt.mpr (by exact_mod_cast hle))
  refine ⟨?_, fun he => .inr ⟨he, hne⟩⟩
  rintro (rfl | ⟨he, -⟩)
  · exact absurd rfl hne
  · exact he

theorem Bounded.insert {m m' : MemTable} {sequence : Nat} (h : m.Bounded bound) (hle : bound ≤ sequence)
    (ht : t = .deletion → v.bytes = [])
    (hm : m'.data = m.data.insert ⟨key, (sequence : Sequence), t⟩ v) : m'.Bounded sequence := by
  have hmem : ∀ e ∈ m'.iter, e = (⟨key, (sequence : Sequence), t⟩, v) ∨ e ∈ m.iter := by
    intro e he
    unfold iter at he
    rw [hm, SkipMap.mem_insert] at he
    exact he.imp_right And.left
  constructor
  · intro e he
    rcases hmem e he with rfl | he
    · exact le_refl _
    · exact (h.mono hle).sequence_le e he
  · intro e he hdel
    rcases hmem e he with rfl | he
    · exact ht hdel
    · exact h.deletion e he hdel

end MemTable

end AiDb
