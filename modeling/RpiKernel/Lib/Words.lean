import RpiKernel.Lib.Bytes
import Mathlib.Data.Nat.Bitwise

/-!
# Lib.Words

Words of 32 bits in a memory of bytes, big-endian in a file (`be32`) and
little-endian to the processor (`le32`, `loadWord`), rounding up to a multiple of four,
and masks that pick one byte of a word (`and_byte`).
-/

namespace Bytes

/-- The next multiple of four. -/
def upToFour (n : Nat) : Nat := (n + 3) / 4 * 4

theorem upToFour_eq {n k : Nat} (hk : k < 4) (h : (n + k) % 4 = 0) : upToFour n = n + k := by
  unfold upToFour
  omega

theorem le_upToFour (n : Nat) : n ≤ upToFour n := by
  unfold upToFour
  omega

/-- A big-endian word. -/
def be32 (n : Nat) : List UInt8 :=
  [UInt8.ofNat (n / 2 ^ 24), UInt8.ofNat (n / 2 ^ 16), UInt8.ofNat (n / 2 ^ 8), UInt8.ofNat n]

@[simp] theorem length_be32 (n : Nat) : (be32 n).length = 4 := rfl

/-- A little-endian word. -/
def le32 (n : Nat) : List UInt8 := (be32 n).reverse

@[simp] theorem length_le32 (n : Nat) : (le32 n).length = 4 := rfl

/-- The little-endian word at `p`. -/
def loadWord (mem : Nat → UInt8) (p : Nat) : Nat :=
  (mem p).toNat + (mem (p + 1)).toNat * 2 ^ 8 + (mem (p + 2)).toNat * 2 ^ 16 +
    (mem (p + 3)).toNat * 2 ^ 24

/-- A big-endian double word. -/
def be64 (n : Nat) : List UInt8 := be32 (n / 2 ^ 32) ++ be32 n

/-- The little-endian double word at `p`. -/
def loadDword (mem : Nat → UInt8) (p : Nat) : Nat := loadWord mem p + loadWord mem (p + 4) * 2 ^ 32

/-- A mask of one byte. -/
theorem and_byte (x k : Nat) : x &&& 255 * 2 ^ k = x / 2 ^ k % 256 * 2 ^ k := by
  rw [← Nat.shiftLeft_eq, ← Nat.shiftLeft_eq, ← Nat.shiftRight_eq_div_pow]
  refine Nat.eq_of_testBit_eq fun i => ?_
  rw [show 255 = 2 ^ 8 - 1 from rfl, show 256 = 2 ^ 8 from rfl]
  simp only [Nat.testBit_and, Nat.testBit_shiftLeft, Nat.testBit_two_pow_sub_one, Nat.testBit_mod_two_pow,
    Nat.testBit_shiftRight]
  by_cases hk : k ≤ i
  · simp [hk, Bool.and_comm]
  · simp [hk]

/-- Parts of a word that do not overlap add up. -/
theorem or_mul_two_pow {a k : Nat} (b : Nat) (h : a < 2 ^ k) : a ||| b * 2 ^ k = a + b * 2 ^ k := by
  rw [Nat.lor_comm, Nat.mul_comm, ← Nat.two_pow_add_eq_or_of_lt h, Nat.add_comm]

end Bytes
