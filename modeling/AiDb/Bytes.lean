import Mathlib

/-!
# Byte strings and errors

Keys, values and file contents are byte strings, compared as `Vec<u8>` is:
lexicographically, a proper prefix first. Integers are written little-endian
into a fixed number of bytes; a value that does not fit is cut to its low
bytes, as the `as u16` and `as u32` casts of the source do.
-/

namespace AiDb

instance byteOrder : LinearOrder UInt8 where
  le_refl := UInt8.le_refl
  le_trans _ _ _ := UInt8.le_trans
  lt_iff_le_not_ge a b := by simp only [UInt8.lt_iff_toNat_lt, UInt8.le_iff_toNat_le]; omega
  le_antisymm _ _ := UInt8.le_antisymm
  le_total := UInt8.le_total
  toDecidableLE := inferInstance
  toDecidableLT := inferInstance
  toDecidableEq := inferInstance

abbrev Bytes := List UInt8

/-- `std::io::ErrorKind`, as far as the engine looks at it. -/
inductive IoKind
  | unexpectedEof
  | other
  deriving DecidableEq, Repr

inductive Error
  | io (kind : IoKind)
  | corruption (msg : String)
  | notFound (msg : String)
  | invalidArgument (msg : String)
  | checksumMismatch (expected actual : UInt32)
  | alreadyExists (msg : String)
  | internal (msg : String)
  deriving DecidableEq, Repr

-- ---------------------------------------------------------------------------
-- Little-endian integers
-- ---------------------------------------------------------------------------

def leBytes : (width : Nat) → Nat → Bytes
  | 0, _ => []
  | width + 1, n => UInt8.ofNat n :: leBytes width (n / 256)

def fromLe : Bytes → Nat
  | [] => 0
  | b :: bs => b.toNat + 256 * fromLe bs

@[simp] theorem length_leBytes : (leBytes width n).length = width := by
  induction width generalizing n with
  | zero => rfl
  | succ width ih => simp [leBytes, ih]

theorem fromLe_leBytes : fromLe (leBytes width n) = n % 256 ^ width := by
  induction width generalizing n with
  | zero => simp [leBytes, fromLe, Nat.mod_one]
  | succ width ih =>
    have hb : (UInt8.ofNat n).toNat = n % 256 := by simp
    rw [leBytes, fromLe, ih, hb, Nat.pow_succ', Nat.mod_mul]

theorem fromLe_leBytes_of_lt (h : n < 256 ^ width) : fromLe (leBytes width n) = n := by
  rw [fromLe_leBytes, Nat.mod_eq_of_lt h]

theorem fromLe_lt (bs : Bytes) : fromLe bs < 256 ^ bs.length := by
  induction bs with
  | nil => simp [fromLe]
  | cons b bs ih =>
    have hb : b.toNat < 256 := UInt8.toNat_lt b
    simp only [fromLe, List.length_cons, Nat.pow_succ']
    omega

end AiDb
