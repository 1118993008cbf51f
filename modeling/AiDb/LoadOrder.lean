import AiDb.Library.Numerals
import AiDb.Opening

/-!
# The order of the loaded tables

`DB::open` sorts the table files by name and takes that for the order of their
numbers. A name holds its number in at least six digits, so the two orders part once
some number has more digits than another: `1000000.sst` comes before `999999.sst`.
-/

namespace AiDb

open Library

variable {d : Disk}

-- ---------------------------------------------------------------------------
-- The names of the table files
-- ---------------------------------------------------------------------------

def decimalDigit (d : Nat) : UInt8 := UInt8.ofNat (48 + d)

def nameWidth (n : Nat) : Nat := max 6 (Nat.toDigits 10 n).length

theorem lt_pow_nameWidth (n : Nat) : n < 10 ^ nameWidth n :=
  (Nat.length_toDigits_le_iff (by norm_num) (by simp [nameWidth])).mp (le_max_right _ _)

theorem nameWidth_mono (h : a ≤ b) : nameWidth a ≤ nameWidth b := by
  have hb := lt_pow_nameWidth b
  refine max_le (le_max_left _ _) ?_
  exact (Nat.length_toDigits_le_iff (by norm_num) (by simp [nameWidth])).mpr (by omega)

theorem orderedDigits_decimal : OrderedDigits decimalDigit 10 := by
  intro x y hxy hy
  rw [UInt8.lt_iff_toNat_lt]
  simp only [decimalDigit, UInt8.toNat_ofNat']
  omega

theorem dot_lt_decimalDigit (x : Nat) (hx : x < 10) : (46 : UInt8) < decimalDigit x := by
  rw [UInt8.lt_iff_toNat_lt]
  have h46 : (46 : UInt8).toNat = 46 := rfl
  simp only [decimalDigit, UInt8.toNat_ofNat', h46]
  omega

theorem ofNat_digitChar (h : x < 10) : UInt8.ofNat x.digitChar.toNat = decimalDigit x := by
  rw [Nat.toNat_digitChar_of_lt_ten h]
  rfl

theorem map_toDigits (n : Nat) :
    ((Nat.toDigits 10 n).map fun c => UInt8.ofNat c.toNat) = numeral decimalDigit 10 (Nat.toDigits 10 n).length n := by
  induction n using Nat.strong_induction_on with
  | _ n ih =>
    rw [Nat.toDigits_eq_if (by norm_num)]
    split_ifs with hn
    · simp [numeral, ofNat_digitChar hn, Nat.mod_eq_of_lt hn]
    · simp [numeral, ofNat_digitChar (Nat.mod_lt n (by norm_num)), ih (n / 10) (by omega)]

theorem padDigits_eq (n : Nat) : padDigits n = numeral decimalDigit 10 (nameWidth n) n := by
  have hlt : n < 10 ^ (Nat.toDigits 10 n).length :=
    (Nat.length_toDigits_le_iff (by norm_num) Nat.length_toDigits_pos).mp le_rfl
  have hwidth : nameWidth n = 6 - (Nat.toDigits 10 n).length + (Nat.toDigits 10 n).length := by
    simp only [nameWidth]
    omega
  rw [hwidth, numeral_add, Nat.div_eq_of_lt hlt, numeral_zero, ← map_toDigits]
  simp [padDigits, decimalDigit]

/-- The name of the lower number comes first just if that number is at most what the
other name begins with. -/
theorem sstFilename_lt_iff (h : a < b) :
    sstFilename a < sstFilename b ↔ a ≤ b / 10 ^ (nameWidth b - nameWidth a) := by
  have hwidth := nameWidth_mono h.le
  have hb := lt_pow_nameWidth b
  rw [← Nat.add_sub_cancel' hwidth] at hb
  rw [sstFilename, sstFilename, padDigits_eq, padDigits_eq b, ← Nat.add_sub_cancel' hwidth, Nat.add_sub_cancel_left]
  exact numeral_lt_iff orderedDigits_decimal dot_lt_decimalDigit (lt_pow_nameWidth a) hb h

-- ---------------------------------------------------------------------------
-- What an open loads
-- ---------------------------------------------------------------------------

def DB.InNumberOrder (db : DB) : Prop := ((db.sstables.headD []).map SSTableReader.fileNumber).Pairwise (· < ·)

instance DB.decidableInNumberOrder (db : DB) : Decidable db.InNumberOrder := by
  unfold DB.InNumberOrder
  infer_instance

/-- The names of the tables that open are in the order of their numbers. -/
def Disk.NamesInNumberOrder (d : Disk) : Prop :=
  ∀ a b, d.Complete a → d.Complete b → a < b → a ≤ b / 10 ^ (nameWidth b - nameWidth a)

theorem sstFilename_injective : Function.Injective sstFilename := by
  have hlt : ∀ a b, a < b → sstFilename a ≠ sstFilename b := by
    intro a b h heq
    have hlen := congrArg List.length heq
    simp only [sstFilename, padDigits_eq, List.length_append, length_numeral] at hlen
    refine ((sstFilename_lt_iff h).mpr ?_).ne heq
    rw [show nameWidth b - nameWidth a = 0 from by omega]
    simpa using h.le
  intro a b heq
  rcases lt_trichotomy a b with h | h | h
  · exact absurd heq (hlt a b h)
  · exact h
  · exact absurd heq.symm (hlt b a h)

theorem pairwise_sortedSsts (d : Disk) : (sortedSsts d).Pairwise fun a b => sstFilename a ≤ sstFilename b := by
  have : Std.Total fun a b => sstFilename a ≤ sstFilename b := ⟨fun a b => le_total _ _⟩
  have : IsTrans Nat fun a b => sstFilename a ≤ sstFilename b := ⟨fun _ _ _ => le_trans⟩
  exact List.pairwise_insertionSort _ _

theorem pairwise_lt_iff {ns : List Nat} (hsorted : ns.Pairwise fun a b => sstFilename a ≤ sstFilename b) (hnodup : ns.Nodup) :
    ns.Pairwise (· < ·) ↔ ∀ a ∈ ns, ∀ b ∈ ns, a < b → sstFilename a < sstFilename b := by
  constructor
  · intro hnumbers a ha b hb hlt
    -- both orders read the list from the left, whichever of the two comes first
    have : Std.Symm fun a b => (a < b → sstFilename a ≤ sstFilename b) ∧ (b < a → sstFilename b ≤ sstFilename a) :=
      ⟨fun _ _ => And.symm⟩
    have hboth : ns.Pairwise fun a b =>
        (a < b → sstFilename a ≤ sstFilename b) ∧ (b < a → sstFilename b ≤ sstFilename a) := by
      refine (hsorted.and hnumbers).imp ?_
      rintro a b ⟨hname, hlt⟩
      exact ⟨fun _ => hname, fun h => absurd h hlt.not_gt⟩
    exact ((hboth.forall ha hb hlt.ne).1 hlt).lt_of_ne fun heq => hlt.ne (sstFilename_injective heq)
  · intro h
    refine (hsorted.and hnodup).imp_of_mem ?_
    rintro a b ha hb ⟨hname, hne⟩
    rcases lt_trichotomy a b with hlt | heq | hlt
    · exact hlt
    · exact absurd heq hne
    · exact absurd hname (h b hb a ha hlt).not_ge

theorem Disk.Loads.pairwise_lt_iff (h : d.Loads (sortedSsts d) lo hi rs) :
    (rs.map SSTableReader.fileNumber).Pairwise (· < ·) ↔
      ∀ a ∈ rs.map SSTableReader.fileNumber, ∀ b ∈ rs.map SSTableReader.fileNumber, a < b →
        a ≤ b / 10 ^ (nameWidth b - nameWidth a) := by
  rw [AiDb.pairwise_lt_iff ((pairwise_sortedSsts d).sublist h.sublist) (h.sublist.nodup d.nodup_sortedSsts)]
  constructor
  · exact fun hall a ha b hb hlt => (sstFilename_lt_iff hlt).mp (hall a ha b hb hlt)
  · exact fun hall a ha b hb hlt => (sstFilename_lt_iff hlt).mpr (hall a ha b hb hlt)

theorem Disk.Loads.complete (h : d.Loads ns lo hi rs) (ha : a ∈ rs.map SSTableReader.fileNumber) : d.Complete a := by
  obtain ⟨r, hr, rfl⟩ := List.mem_map.mp ha
  obtain ⟨n, -, f, hread, -⟩ := h.mem hr
  have hn : r.fileNumber = n := by rw [hread.reader]; rfl
  exact ⟨r.file, f, hn ▸ hread.lookup, hread.content⟩

/-- Level 0 is in the order of the numbers, whatever fails while the directory is
opened, just if the names of its tables are. -/
theorem openDb_inNumberOrder_iff (o : Options) (w : World) (hopen : w.disk.Openable o) :
    (∀ faults db w', openDb o { w with faults } = .ok db w' → db.InNumberOrder) ↔ w.disk.NamesInNumberOrder := by
  constructor
  · intro h a b ha hb hlt
    cases hr : openDb o { w with faults := [] } with
    | error e w' => exact absurd hopen (((openDb_spec o _).error hr).2 rfl)
    | ok db w' =>
      have horder := h [] db w' hr
      obtain ⟨-, recovered, tables, vs, lo, hi, rfl, -, hloads, -, -, hall, -⟩ := (openDb_spec o _).ok hr
      have hloaded : ∀ n, w.disk.Complete n → n ∈ tables.map SSTableReader.fileNumber := by
        intro n hn
        obtain ⟨file, f, hlookup, hcontent⟩ := hn
        have hsorted : n ∈ sortedSsts w.disk := by
          rw [sortedSsts, List.mem_insertionSort]
          exact AList.lookup_isSome.mp (by simp [hlookup])
        obtain ⟨r, hr, f, hread⟩ := hall rfl n hsorted ⟨file, f, hlookup, hcontent⟩
        exact List.mem_map.mpr ⟨r, hr, by rw [hread.reader]; rfl⟩
      exact hloads.pairwise_lt_iff.mp horder a (hloaded a ha) b (hloaded b hb) hlt
  · intro hnames faults db w' hr
    obtain ⟨-, recovered, tables, vs, lo, hi, rfl, -, hloads, -⟩ := (openDb_spec o _).ok hr
    exact hloads.pairwise_lt_iff.mpr fun a ha b hb => hnames a b (hloads.complete ha) (hloads.complete hb)

def World.ofTables (ns : List Nat) : World :=
  let table := ((SSTableBuilder.new 4096 .none).add .unused ⟨[97], ⟨[1], 0⟩⟩).toOption.map (SSTableBuilder.finish .unused)
  let disk := ns.foldl (fun d n => d.createSst n) (World.empty .unused).disk
  { World.empty .unused with disk := { disk with files := ns.map fun _ => (table.map SstContent.complete).getD .incomplete } }

theorem openDb_inNumberOrder_iff_short :
    (World.ofTables [2, 10]).disk.Openable .plain ∧
      ∀ faults db w', openDb .plain { World.ofTables [2, 10] with faults } = .ok db w' → db.InNumberOrder := by
  have hopen : (World.ofTables [2, 10]).disk.Openable .plain := by
    refine ⟨by decide, by decide, ⟨[], by decide +kernel⟩, ?_⟩
    intro pieces h
    cases h
  have hnumber : ∀ n, (World.ofTables [2, 10]).disk.Complete n → n = 2 ∨ n = 10 := by
    rintro n ⟨file, f, hlookup, -⟩
    have hkeys : (World.ofTables [2, 10]).disk.ssts.keys = [10, 2] := by decide
    have hmem : n ∈ (World.ofTables [2, 10]).disk.ssts.keys := AList.lookup_isSome.mp (by simp [hlookup])
    rw [hkeys] at hmem
    simpa [or_comm] using hmem
  refine ⟨hopen, (openDb_inNumberOrder_iff .plain _ hopen).mpr fun a b ha hb hlt => ?_⟩
  obtain ⟨rfl, rfl⟩ : a = 2 ∧ b = 10 := by
    have := hnumber a ha
    have := hnumber b hb
    omega
  decide

def World.loadsOutOfOrder (w : World) : Bool :=
  match openDb .plain w with
  | .ok db _ => !decide db.InNumberOrder
  | .error _ _ => false

theorem not_openDb_inNumberOrder_long :
    ¬∀ db w', openDb .plain (World.ofTables [999999, 1000000]) = .ok db w' → db.InNumberOrder := by
  have hrun : (World.ofTables [999999, 1000000]).loadsOutOfOrder = true := by decide +kernel
  intro h
  unfold World.loadsOutOfOrder at hrun
  cases hr : openDb .plain (World.ofTables [999999, 1000000]) with
  | error e w' => simp [hr] at hrun
  | ok db w' => simp [hr, h db w' hr] at hrun

end AiDb
