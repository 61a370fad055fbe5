import Hivex.ByteMemory

/-! A set of small numbers kept as bits packed eight to a byte. -/
namespace PackedBits

open ByteMemory

def mask (bit : Nat) : UInt8 := UInt8.ofNat (2 ^ (bit % 8))

def test (bits : Mem) (bit : Nat) : Bool := bits (bit / 8) &&& mask bit != 0

def set (bits : Mem) (bit : Nat) : Mem := fun i =>
  if i = bit / 8 then bits i ||| mask bit else bits i

def clear (bits : Mem) (bit : Nat) : Mem := fun i =>
  if i = bit / 8 then bits i &&& ~~~ mask bit else bits i

theorem mask_toNat (bit : Nat) : (mask bit).toNat = 2 ^ (bit % 8) := by
  have small : 2 ^ (bit % 8) ≤ 2 ^ 7 := Nat.pow_le_pow_right (by omega) (by omega)
  rw [mask, UInt8.toNat_ofNat', Nat.mod_eq_of_lt]
  exact Nat.lt_of_le_of_lt small (by decide)

theorem test_eq (bits : Mem) (bit : Nat) :
    test bits bit = (bits (bit / 8)).toNat.testBit (bit % 8) := by
  rw [Bool.eq_iff_iff]
  simp only [test, bne_iff_ne, ne_eq, ← UInt8.toNat_inj, UInt8.toNat_and, mask_toNat,
    UInt8.toNat_zero, Nat.and_two_pow]
  cases (bits (bit / 8)).toNat.testBit (bit % 8) <;> simp

theorem same_bit {left right : Nat} (byte : right / 8 = left / 8) :
    left % 8 = right % 8 ↔ right = left := by omega

-- Two numbers share a bit only if they are equal.
theorem test_set (bits : Mem) (added bit : Nat) :
    test (set bits added) bit = (decide (bit = added) || test bits bit) := by
  rw [test_eq, test_eq]
  by_cases byte : bit / 8 = added / 8
  · simp only [set, byte, if_true, UInt8.toNat_or, Nat.testBit_or, mask_toNat,
      Nat.testBit_two_pow, same_bit byte]
    exact Bool.or_comm _ _
  · have different : bit ≠ added := fun same => byte (by rw [same])
    simp [set, byte, different]

theorem test_clear (bits : Mem) (removed bit : Nat) :
    test (clear bits removed) bit = (!decide (bit = removed) && test bits bit) := by
  rw [test_eq, test_eq]
  by_cases byte : bit / 8 = removed / 8
  · have narrow : bit % 8 < 8 := Nat.mod_lt _ (by omega)
    have flipped : (~~~ mask removed).toNat.testBit (bit % 8) = !decide (bit = removed) := by
      have complement : (~~~ mask removed).toBitVec.getLsbD (bit % 8) =
          !(mask removed).toBitVec.getLsbD (bit % 8) := by
        simp [UInt8.toBitVec_not, narrow]
      have original : (mask removed).toBitVec.getLsbD (bit % 8) = decide (bit = removed) := by
        show (mask removed).toNat.testBit (bit % 8) = _
        rw [mask_toNat, Nat.testBit_two_pow]
        exact decide_eq_decide.mpr (same_bit byte)
      rw [original] at complement
      exact complement
    simp only [clear, byte, if_true, UInt8.toNat_and, Nat.testBit_and, flipped]
    exact Bool.and_comm _ _
  · have different : bit ≠ removed := fun same => byte (by rw [same])
    simp [clear, byte, different]

theorem test_congr (bits bits' : Mem) (bit : Nat) (same : bits (bit / 8) = bits' (bit / 8)) :
    test bits bit = test bits' bit := by
  simp [test, same]

theorem test_zero (bits : Mem) (bit : Nat) (zero : bits (bit / 8) = 0) :
    test bits bit = false := by
  simp [test, zero]

end PackedBits
