import CliMetadata.Bytes
import Mathlib.Algebra.Group.Nat.Defs

/-!
# Words survive being written and read

A word of `width` bytes holds the numbers below `256 ^ width`.  Writing a number
and reading it back keeps it modulo that bound, and whatever bytes are read give
a number below it.
-/

namespace CliMetadata

/-- A number that is written in `width` bytes reads back without what does not
fit. -/
@[simp]
theorem ofLittleEndian_littleEndian (width value : Nat) :
    ofLittleEndian (littleEndian width value) = value % 256 ^ width := by
  induction width generalizing value with
  | zero => simp [littleEndian, ofLittleEndian, Nat.mod_one]
  | succ width ih =>
      have byte : (UInt8.ofNat (value % 256)).toNat = value % 256 := by
        simp [UInt8.toNat_ofNat']
      rw [littleEndian, ofLittleEndian, byte, ih, Nat.pow_succ', Nat.mod_mul]

/-- Bytes stand for a number that fits in them. -/
theorem ofLittleEndian_lt (bytes : List UInt8) :
    ofLittleEndian bytes < 256 ^ bytes.length := by
  induction bytes with
  | nil => decide
  | cons b rest ih =>
      have := b.toNat_lt
      rw [ofLittleEndian, List.length_cons, Nat.pow_succ']
      omega

end CliMetadata
