import RpiKernel.Lib.Words
import Mathlib.Tactic.Common

/-!
# RpiKernel.Utils.Words

`utils_align`, `utils_change_endian_32`, `utils_change_endian_64` and `utils_strlen` in `utils.c`.
-/

namespace RpiKernel

open Bytes

/-- `utils_align`. -/
def utilsAlign (size s : Nat) : Nat :=
  if s = 0 ∨ s &&& (s - 1) ≠ 0 then size
  else (size + (s - 1)) % 2 ^ 64 &&& (2 ^ 64 - 1 - (s - 1))

/-- `utils_change_endian_32`. -/
def utilsChangeEndian32 (val : Nat) : Nat :=
  ((val >>> 24) &&& 0x000000FF) ||| ((val >>> 8) &&& 0x0000FF00) |||
    ((val <<< 8) % 2 ^ 32 &&& 0x00FF0000) ||| ((val <<< 24) % 2 ^ 32 &&& 0xFF000000)

/-- `utils_change_endian_64`. -/
def utilsChangeEndian64 (val : Nat) : Nat :=
  ((val >>> 56) &&& 0x00000000000000FF) ||| ((val >>> 40) &&& 0x000000000000FF00) |||
    ((val >>> 24) &&& 0x0000000000FF0000) ||| ((val >>> 8) &&& 0x00000000FF000000) |||
    ((val <<< 8) % 2 ^ 64 &&& 0x000000FF00000000) ||| ((val <<< 24) % 2 ^ 64 &&& 0x0000FF0000000000) |||
    ((val <<< 40) % 2 ^ 64 &&& 0x00FF000000000000) ||| ((val <<< 56) % 2 ^ 64 &&& 0xFF00000000000000)

/-- `utils_strlen`, in at most `n` rounds. -/
def utilsStrlen (mem : Nat → UInt8) : Nat → Nat → Option Nat
  | 0, _ => none
  | n + 1, s => if mem s = 0 then some 0 else (utilsStrlen mem n (s + 1)).map (· + 1)

variable {mem : Nat → UInt8} {p n : Nat} {s : List UInt8}

theorem and_not_three {n : Nat} (hn : n < 2 ^ 64) : n &&& (2 ^ 64 - 1 - 3) = n / 4 * 4 := by
  rw [show n / 4 * 4 = (n >>> 2) <<< 2 by simp [Nat.shiftRight_eq_div_pow, Nat.shiftLeft_eq]]
  refine Nat.eq_of_testBit_eq fun i => ?_
  rw [Nat.testBit_and, show 2 ^ 64 - 1 - 3 = 2 ^ 64 - (2 ^ 2 - 1 + 1) by decide,
    Nat.testBit_two_pow_sub_succ (by decide), Nat.testBit_two_pow_sub_one, Nat.testBit_shiftLeft]
  by_cases hi : i < 2
  · simp [hi]
  · have hshift : 2 + (i - 2) = i := by omega
    rw [Nat.testBit_shiftRight, hshift]
    by_cases h64 : i < 64
    · simp [hi, h64, Nat.le_of_not_lt hi]
    · have hbit : n.testBit i = false :=
        Nat.testBit_lt_two_pow (Nat.lt_of_lt_of_le hn (Nat.pow_le_pow_right (by decide) (by omega)))
      simp [hbit]

/-- `utils_align` to a multiple of four. -/
theorem utilsAlign_four {n : Nat} (hn : n + 3 < 2 ^ 64) : utilsAlign n 4 = upToFour n := by
  rw [utilsAlign, if_neg (by decide), Nat.mod_eq_of_lt hn, and_not_three hn, upToFour]

/-- The bytes of a word, the other way round. -/
theorem utilsChangeEndian32_eq {a b c d : Nat} (ha : a < 256) (hb : b < 256) (hc : c < 256) (hd : d < 256) :
    utilsChangeEndian32 (a + b * 2 ^ 8 + c * 2 ^ 16 + d * 2 ^ 24) =
      d + c * 2 ^ 8 + b * 2 ^ 16 + a * 2 ^ 24 := by
  have h₀ (x : Nat) : x &&& 0xFF = x % 256 := by simpa using and_byte x 0
  have h₁ (x : Nat) : x &&& 0xFF00 = x / 2 ^ 8 % 256 * 2 ^ 8 := and_byte x 8
  have h₂ (x : Nat) : x &&& 0xFF0000 = x / 2 ^ 16 % 256 * 2 ^ 16 := and_byte x 16
  have h₃ (x : Nat) : x &&& 0xFF000000 = x / 2 ^ 24 % 256 * 2 ^ 24 := and_byte x 24
  generalize hv : a + b * 2 ^ 8 + c * 2 ^ 16 + d * 2 ^ 24 = v
  have hd' : v / 2 ^ 24 % 256 = d := by omega
  have hc' : v / 2 ^ 8 / 2 ^ 8 % 256 = c := by omega
  have hb' : v * 2 ^ 8 % 2 ^ 32 / 2 ^ 16 % 256 = b := by omega
  have ha' : v * 2 ^ 24 % 2 ^ 32 / 2 ^ 24 % 256 = a := by
    rw [show v * 2 ^ 24 % 2 ^ 32 = v % 2 ^ 8 * 2 ^ 24 from Nat.mul_mod_mul_right (2 ^ 24) v (2 ^ 8),
      Nat.mul_div_cancel _ (by decide)]
    omega
  rw [utilsChangeEndian32, h₀, h₁, h₂, h₃]
  simp only [Nat.shiftRight_eq_div_pow, Nat.shiftLeft_eq, ha', hb', hc', hd']
  rw [or_mul_two_pow c (show d < 2 ^ 8 by omega), or_mul_two_pow b (show d + c * 2 ^ 8 < 2 ^ 16 by omega),
    or_mul_two_pow a (show d + c * 2 ^ 8 + b * 2 ^ 16 < 2 ^ 24 by omega)]

/-- A big-endian word in memory is read as its value. -/
theorem utilsChangeEndian32_be32 (hn : n < 2 ^ 32) (h : HoldsAt mem p (be32 n)) :
    utilsChangeEndian32 (loadWord mem p) = n := by
  obtain ⟨h₀, h₁, h₂, h₃, -⟩ := (holdsAt_cons.1 h).imp id fun h => (holdsAt_cons.1 h).imp id fun h =>
    (holdsAt_cons.1 h).imp id fun h => holdsAt_cons.1 h
  rw [loadWord, h₀, h₁, h₂, h₃, utilsChangeEndian32_eq (UInt8.toNat_lt _) (UInt8.toNat_lt _)
    (UInt8.toNat_lt _) (UInt8.toNat_lt _)]
  simp only [UInt8.toNat_ofNat']
  omega

theorem utilsChangeEndian32_bytes (hn : n < 2 ^ 32) : utilsChangeEndian32 n =
    n / 2 ^ 24 + n / 2 ^ 16 % 256 * 2 ^ 8 + n / 2 ^ 8 % 256 * 2 ^ 16 + n % 256 * 2 ^ 24 := by
  have hsum : n = n % 256 + n / 2 ^ 8 % 256 * 2 ^ 8 + n / 2 ^ 16 % 256 * 2 ^ 16 + n / 2 ^ 24 * 2 ^ 24 := by
    omega
  conv_lhs => rw [hsum]
  exact utilsChangeEndian32_eq (by omega) (by omega) (by omega) (by omega)

/-- Eight bytes in their places. -/
theorem or_bytes {a b c d e f g h : Nat} (ha : a < 256) (hb : b < 256) (hc : c < 256) (hd : d < 256)
    (he : e < 256) (hf : f < 256) (hg : g < 256) :
    a ||| b * 2 ^ 8 ||| c * 2 ^ 16 ||| d * 2 ^ 24 ||| e * 2 ^ 32 ||| f * 2 ^ 40 ||| g * 2 ^ 48 ||| h * 2 ^ 56 =
      a + b * 2 ^ 8 + c * 2 ^ 16 + d * 2 ^ 24 + (e + f * 2 ^ 8 + g * 2 ^ 16 + h * 2 ^ 24) * 2 ^ 32 := by
  rw [or_mul_two_pow b (show a < 2 ^ 8 by omega), or_mul_two_pow c (show a + b * 2 ^ 8 < 2 ^ 16 by omega),
    or_mul_two_pow d (show a + b * 2 ^ 8 + c * 2 ^ 16 < 2 ^ 24 by omega), or_mul_two_pow (k := 32) e (by omega),
    or_mul_two_pow (k := 40) f (by omega), or_mul_two_pow (k := 48) g (by omega),
    or_mul_two_pow (k := 56) h (by omega)]
  omega

/-- The halves of a double word, each the other way round. -/
theorem utilsChangeEndian64_eq {lo hi : Nat} (hlo : lo < 2 ^ 32) (hhi : hi < 2 ^ 32) :
    utilsChangeEndian64 (lo + hi * 2 ^ 32) = utilsChangeEndian32 hi + utilsChangeEndian32 lo * 2 ^ 32 := by
  have hmask (x k m : Nat) (hm : m = 255 * 2 ^ k) : x &&& m = x / 2 ^ k % 256 * 2 ^ k := hm ▸ and_byte x k
  have hshift (x k : Nat) (hk : k ≤ 64) : x * 2 ^ k % 2 ^ 64 = x % 2 ^ (64 - k) * 2 ^ k := by
    rw [show (2 : Nat) ^ 64 = 2 ^ (64 - k) * 2 ^ k by rw [← Nat.pow_add, Nat.sub_add_cancel hk]]
    exact Nat.mul_mod_mul_right ..
  rw [utilsChangeEndian32_bytes hhi, utilsChangeEndian32_bytes hlo, utilsChangeEndian64,
    show ∀ x, x &&& 0xFF = x % 256 from fun x => by simpa using and_byte x 0, hmask _ 8 0xFF00 rfl,
    hmask _ 16 0xFF0000 rfl, hmask _ 24 0xFF000000 rfl, hmask _ 32 0xFF00000000 rfl,
    hmask _ 40 0xFF0000000000 rfl, hmask _ 48 0xFF000000000000 rfl, hmask _ 56 0xFF00000000000000 rfl]
  simp only [Nat.shiftRight_eq_div_pow, Nat.shiftLeft_eq]
  generalize hv : lo + hi * 2 ^ 32 = v
  have h₀ : v / 2 ^ 56 % 256 = hi / 2 ^ 24 := by omega
  have h₁ : v / 2 ^ 40 / 2 ^ 8 % 256 = hi / 2 ^ 16 % 256 := by omega
  have h₂ : v / 2 ^ 24 / 2 ^ 16 % 256 = hi / 2 ^ 8 % 256 := by omega
  have h₃ : v / 2 ^ 8 / 2 ^ 24 % 256 = hi % 256 := by omega
  have h₄ : v * 2 ^ 8 % 2 ^ 64 / 2 ^ 32 % 256 = lo / 2 ^ 24 := by omega
  have h₅ : v * 2 ^ 24 % 2 ^ 64 / 2 ^ 40 % 256 = lo / 2 ^ 16 % 256 := by
    rw [hshift v 24 (by decide)]
    omega
  have h₆ : v * 2 ^ 40 % 2 ^ 64 / 2 ^ 48 % 256 = lo / 2 ^ 8 % 256 := by
    rw [hshift v 40 (by decide)]
    omega
  have h₇ : v * 2 ^ 56 % 2 ^ 64 / 2 ^ 56 % 256 = lo % 256 := by
    rw [hshift v 56 (by decide)]
    omega
  rw [h₀, h₁, h₂, h₃, h₄, h₅, h₆, h₇]
  clear hv h₀ h₁ h₂ h₃ h₄ h₅ h₆ h₇ hmask hshift
  exact or_bytes (by omega) (by omega) (by omega) (by omega) (by omega) (by omega) (by omega)

/-- A big-endian double word in memory is read as its value. -/
theorem utilsChangeEndian64_be64 (hn : n < 2 ^ 64) (h : HoldsAt mem p (be64 n)) :
    utilsChangeEndian64 (loadDword mem p) = n := by
  obtain ⟨hhi, hlo⟩ := holdsAt_append.1 h
  have hlt : ∀ q, loadWord mem q < 2 ^ 32 := fun q => by
    have h₀ := (mem q).toNat_lt
    have h₁ := (mem (q + 1)).toNat_lt
    have h₂ := (mem (q + 2)).toNat_lt
    have h₃ := (mem (q + 3)).toNat_lt
    unfold loadWord
    omega
  have hlo' : HoldsAt mem (p + 4) (be32 (n % 2 ^ 32)) := by
    have hbytes : be32 (n % 2 ^ 32) = be32 n := by
      simp only [be32, List.cons.injEq, and_true]
      refine ⟨?_, ?_, ?_, ?_⟩ <;> (apply UInt8.toNat_inj.1; simp only [UInt8.toNat_ofNat']; omega)
    rw [hbytes]
    exact hlo
  rw [loadDword, utilsChangeEndian64_eq (hlt p) (hlt (p + 4)),
    utilsChangeEndian32_be32 (n := n % 2 ^ 32) (Nat.mod_lt n (by decide)) hlo',
    utilsChangeEndian32_be32 (n := n / 2 ^ 32) (by omega) hhi]
  omega

/-- Zero is the same either way round. -/
theorem loadDword_eq_zero_iff (hn : n < 2 ^ 64) (h : HoldsAt mem p (be64 n)) : loadDword mem p = 0 ↔ n = 0 := by
  have hread := utilsChangeEndian64_be64 hn h
  constructor
  · intro h0
    rw [← hread, h0]
    rfl
  · rintro rfl
    obtain ⟨hhi, hlo⟩ := holdsAt_append.1 h
    have hzero : ∀ q, HoldsAt mem q (be32 0) → loadWord mem q = 0 := fun q hq => by
      obtain ⟨h₀, h₁, h₂, h₃, -⟩ := (holdsAt_cons.1 hq).imp id fun h => (holdsAt_cons.1 h).imp id fun h =>
        (holdsAt_cons.1 h).imp id fun h => holdsAt_cons.1 h
      rw [loadWord, h₀, h₁, h₂, h₃]
      rfl
    simp only [loadDword, hzero p hhi, hzero (p + 4) hlo, Nat.zero_mul]

/-- The length of a string in memory. -/
theorem utilsStrlen_eq (hs : 0 ∉ s) (h : HoldsAt mem p (s ++ [0])) (hn : s.length < n) :
    utilsStrlen mem n p = some s.length := by
  induction s generalizing p n with
  | nil =>
      obtain ⟨n, rfl⟩ := Nat.exists_eq_succ_of_ne_zero (Nat.ne_of_gt hn)
      rw [utilsStrlen, if_pos (holdsAt_cons.1 h).1]
      rfl
  | cons c s ih =>
      obtain ⟨n, rfl⟩ := Nat.exists_eq_succ_of_ne_zero (Nat.ne_of_gt (Nat.zero_lt_of_lt hn))
      simp only [List.mem_cons, not_or] at hs
      obtain ⟨hc, hrest⟩ := holdsAt_cons.1 h
      rw [utilsStrlen, hc, if_neg (Ne.symm hs.1), ih hs.2 hrest (Nat.lt_of_succ_lt_succ hn)]
      rfl

end RpiKernel
