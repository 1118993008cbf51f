import AiDb.LoadOrder

/-!
# The file names of the logs

`DB::open` finds the log to replay among the names in the directory, whatever else is in it
and in whatever order they are listed. It comes to the log with the highest number, which
is the one that `latestWal` takes.
-/

namespace AiDb

open Library

-- ---------------------------------------------------------------------------
-- Writing and reading the names
-- ---------------------------------------------------------------------------

def logSuffix : Bytes := [46, 108, 111, 103]

def walFilename (n : Nat) : Bytes := padDigits n ++ logSuffix

def parseDigits : Bytes → (value : Nat) → Option Nat
  | [], value => some value
  | b :: bs, value =>
    if 48 ≤ b ∧ b ≤ 57 then
      let value := value * 10 + (b.toNat - 48)
      if value < 2 ^ 64 then parseDigits bs value else none
    else none

/-- `u64::from_str`, with its optional plus sign. -/
def parseU64 : Bytes → Option Nat
  | [] => none
  | b :: bs =>
    if b = 43 then
      if bs = [] then none else parseDigits bs 0
    else parseDigits (b :: bs) 0

/-- The suffix read from the end, as often as it is there. -/
def trimGol : Bytes → Bytes
  | 103 :: 111 :: 108 :: 46 :: rest => trimGol rest
  | rest => rest

def trimLogSuffix (name : Bytes) : Bytes := (trimGol name.reverse).reverse

def parseWalFilename (name : Bytes) : Option Nat :=
  if logSuffix <:+ name then parseU64 (trimLogSuffix name) else none

/-- The loop of `DB::open` over the directory. -/
def scanForWal : List Bytes → (walNumber : Nat) → (latestWalPath : Bytes) → Nat × Bytes
  | [], walNumber, latestWalPath => (walNumber, latestWalPath)
  | filename :: entries, walNumber, latestWalPath =>
    match parseWalFilename filename with
    | some num =>
      if num ≥ walNumber then scanForWal entries num filename else scanForWal entries walNumber latestWalPath
    | none => scanForWal entries walNumber latestWalPath

def latestWalFile (entries : List Bytes) : Nat × Bytes := scanForWal entries 1 (walFilename 1)

-- ---------------------------------------------------------------------------
-- The round trip
-- ---------------------------------------------------------------------------

theorem decimalDigit_toNat (h : x < 10) : (decimalDigit x).toNat = 48 + x := by
  simp only [decimalDigit, UInt8.toNat_ofNat']
  omega

theorem decimalDigit_range (h : x < 10) : 48 ≤ decimalDigit x ∧ decimalDigit x ≤ 57 := by
  have hx := decimalDigit_toNat h
  simp only [UInt8.le_iff_toNat_le, hx]
  have h48 : (48 : UInt8).toNat = 48 := rfl
  have h57 : (57 : UInt8).toNat = 57 := rfl
  omega

theorem parseDigits_append (hn : n < 10 ^ width) (hvalue : value * 10 ^ width + n < 2 ^ 64) (rest : Bytes) :
    parseDigits (numeral decimalDigit 10 width n ++ rest) value = parseDigits rest (value * 10 ^ width + n) := by
  induction width generalizing n rest with
  | zero =>
    obtain rfl : n = 0 := by simpa using hn
    simp [numeral]
  | succ width ih =>
    have hdigit : n % 10 < 10 := Nat.mod_lt n (by norm_num)
    have hsplit : value * 10 ^ (width + 1) + n = (value * 10 ^ width + n / 10) * 10 + n % 10 := by
      rw [pow_succ]
      have := Nat.div_add_mod n 10
      ring_nf
      omega
    rw [numeral, List.append_assoc, ih (by rw [pow_succ] at hn; omega) (by omega), List.singleton_append, parseDigits]
    rw [if_pos (decimalDigit_range hdigit), decimalDigit_toNat hdigit, Nat.add_sub_cancel_left, ← hsplit]
    exact if_pos hvalue

theorem parseU64_padDigits (h : n < 2 ^ 64) : parseU64 (padDigits n) = some n := by
  have hdigits : parseDigits (numeral decimalDigit 10 (nameWidth n) n ++ []) 0 = parseDigits [] (0 * 10 ^ nameWidth n + n) :=
    parseDigits_append (lt_pow_nameWidth n) (by simpa using h) []
  simp only [List.append_nil, Nat.zero_mul, Nat.zero_add, parseDigits, ← padDigits_eq] at hdigits
  -- the first digit is no sign
  obtain ⟨b, bs, hb, hne⟩ : ∃ b bs, padDigits n = b :: bs ∧ b ≠ 43 := by
    have hwidth : nameWidth n = 1 + (nameWidth n - 1) := by
      have : 6 ≤ nameWidth n := le_max_left _ _
      omega
    have hfirst : numeral decimalDigit 10 (1 + (nameWidth n - 1)) n = _ := numeral_add 1 (nameWidth n - 1) n
    rw [← hwidth, ← padDigits_eq] at hfirst
    refine ⟨decimalDigit (n / 10 ^ (nameWidth n - 1) % 10), _, by simpa [numeral] using hfirst, fun heq => ?_⟩
    have hrange := (decimalDigit_range (Nat.mod_lt (n / 10 ^ (nameWidth n - 1)) (by norm_num))).1
    rw [heq] at hrange
    exact absurd hrange (by decide)
  rw [hb] at hdigits ⊢
  simpa [parseU64, hne] using hdigits

theorem trimGol_of_digit (h : x < 10) (bs : Bytes) : trimGol (decimalDigit x :: bs) = decimalDigit x :: bs := by
  have hrange := (decimalDigit_range h).2
  have hne : decimalDigit x ≠ 103 := fun heq => by
    rw [heq] at hrange
    exact absurd hrange (by decide)
  unfold trimGol
  split
  · rename_i heq
    exact absurd (List.cons.inj heq).1 hne
  · rfl

theorem parseWalFilename_walFilename (h : n < 2 ^ 64) : parseWalFilename (walFilename n) = some n := by
  have htrim : trimLogSuffix (walFilename n) = padDigits n := by
    obtain ⟨digits, x, hx, hdigits⟩ : ∃ digits x, x < 10 ∧ padDigits n = digits ++ [decimalDigit x] := by
      have hwidth : nameWidth n = nameWidth n - 1 + 1 := by
        have : 6 ≤ nameWidth n := le_max_left _ _
        omega
      have hlast : numeral decimalDigit 10 (nameWidth n - 1 + 1) n =
        numeral decimalDigit 10 (nameWidth n - 1) (n / 10) ++ [decimalDigit (n % 10)] := rfl
      rw [← hwidth, ← padDigits_eq] at hlast
      exact ⟨_, n % 10, Nat.mod_lt n (by norm_num), hlast⟩
    simp only [trimLogSuffix, walFilename, logSuffix, hdigits, List.reverse_append]
    simp [trimGol, trimGol_of_digit hx]
  have hsuffix : logSuffix <:+ walFilename n := List.suffix_append _ _
  rw [parseWalFilename, if_pos hsuffix, htrim, parseU64_padDigits h]

theorem parseWalFilename_sstFilename (n : Nat) : parseWalFilename (sstFilename n) = none := by
  rw [parseWalFilename, if_neg]
  rintro ⟨front, hfront⟩
  have hsuffix := (List.append_inj' hfront rfl).2
  exact absurd hsuffix (by decide)

-- ---------------------------------------------------------------------------
-- What the scan comes to
-- ---------------------------------------------------------------------------

/-- The names in the directory, in any order: its logs, its tables, and others that do not
read as the name of a log. -/
def Disk.Lists (d : Disk) (entries : List Bytes) : Prop :=
  ∃ others, (∀ name ∈ others, parseWalFilename name = none) ∧
    entries.Perm (d.logs.keys.map walFilename ++ d.ssts.keys.map sstFilename ++ others)

theorem Disk.Lists.parsed {d : Disk} (h : d.Lists entries) (hlogs : ∀ n ∈ d.logs, n < 2 ^ 64) :
    (entries.filterMap parseWalFilename).Perm d.logs.keys := by
  obtain ⟨others, hothers, hperm⟩ := h
  have hkeys : ∀ ns : List Nat, (∀ n ∈ ns, n < 2 ^ 64) → (ns.map walFilename).filterMap parseWalFilename = ns := by
    intro ns hns
    induction ns with
    | nil => rfl
    | cons n ns ih =>
      rw [List.forall_mem_cons] at hns
      simp [parseWalFilename_walFilename hns.1, ih hns.2]
  have htables : (d.ssts.keys.map sstFilename).filterMap parseWalFilename = [] := by
    simp [parseWalFilename_sstFilename]
  have hothers' : others.filterMap parseWalFilename = [] := List.filterMap_eq_nil_iff.mpr hothers
  have hparsed := hperm.filterMap parseWalFilename
  rwa [List.filterMap_append, List.filterMap_append, hkeys _ hlogs, htables, hothers', List.append_nil, List.append_nil] at hparsed

theorem Disk.Lists.named {d : Disk} (h : d.Lists entries) (hlogs : ∀ n ∈ d.logs, n < 2 ^ 64) (hname : name ∈ entries)
    (hparse : parseWalFilename name = some n) : n ∈ d.logs ∧ name = walFilename n := by
  obtain ⟨others, hothers, hperm⟩ := h
  rcases List.mem_append.mp (hperm.subset hname) with hname | hname
  · rcases List.mem_append.mp hname with hname | hname
    · obtain ⟨m, hm, rfl⟩ := List.mem_map.mp hname
      rw [parseWalFilename_walFilename (hlogs m hm)] at hparse
      cases hparse
      exact ⟨hm, rfl⟩
    · obtain ⟨m, -, rfl⟩ := List.mem_map.mp hname
      rw [parseWalFilename_sstFilename] at hparse
      cases hparse
  · rw [hothers name hname] at hparse
    cases hparse

theorem scanForWal_eq (h : ∀ name ∈ entries, ∀ n, parseWalFilename name = some n → name = walFilename n) :
    scanForWal entries number (walFilename number) =
      ((entries.filterMap parseWalFilename).foldl max number, walFilename ((entries.filterMap parseWalFilename).foldl max number)) := by
  induction entries generalizing number with
  | nil => rfl
  | cons name entries ih =>
    rw [List.forall_mem_cons] at h
    unfold scanForWal
    cases hparse : parseWalFilename name with
    | none => simpa [hparse] using ih h.2
    | some n =>
      simp only [List.filterMap_cons, hparse, List.foldl_cons]
      split
      · rename_i hge
        rw [h.1 n hparse, max_eq_right hge]
        exact ih h.2
      · rename_i hge
        rw [max_eq_left (by omega)]
        exact ih h.2

/-- Whatever the directory lists its files as, and in whatever order: the open comes to the
log with the highest number, and a number without a log names no file in it. -/
theorem latestWalFile_eq (d : Disk) (entries : List Bytes) (h : d.Lists entries) (hlogs : ∀ n ∈ d.logs, n < 2 ^ 64) :
    latestWalFile entries = (latestWal d, walFilename (latestWal d)) ∧
      ∀ n, n < 2 ^ 64 → (walFilename n ∈ entries ↔ n ∈ d.logs) := by
  have hlatest : (entries.filterMap parseWalFilename).foldl max 1 = latestWal d :=
    (h.parsed hlogs).foldl_eq 1
  refine ⟨?_, fun n hn => ⟨fun hname => ?_, fun hmem => ?_⟩⟩
  · rw [latestWalFile, scanForWal_eq fun name hname n hparse => (h.named hlogs hname hparse).2, hlatest]
  · exact (h.named hlogs hname (parseWalFilename_walFilename hn)).1
  · obtain ⟨others, -, hperm⟩ := h
    refine hperm.symm.subset (List.mem_append_left _ (List.mem_append_left _ ?_))
    exact List.mem_map_of_mem hmem

def manifestName : Bytes := [77, 65, 78, 73, 70, 69, 83, 84]

def Disk.twoLogs : Disk :=
  ⟨true, (∅ : AList fun _ : Nat => Nat).insert 2 0, [.incomplete],
    ((∅ : AList fun _ : Nat => LogFile).insert 3 ⟨[], []⟩).insert 12 ⟨[], []⟩, none⟩

theorem latestWalFile_eq_twelve : latestWalFile [sstFilename 2, walFilename 12, manifestName, walFilename 3] =
    (12, walFilename 12) := by
  have hlists : Disk.twoLogs.Lists [sstFilename 2, walFilename 12, manifestName, walFilename 3] :=
    ⟨[manifestName], by decide +kernel, by decide +kernel⟩
  exact (latestWalFile_eq .twoLogs _ hlists (by decide)).1

end AiDb
