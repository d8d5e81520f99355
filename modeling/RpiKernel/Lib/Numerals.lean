import Mathlib.Data.Nat.Digits.Lemmas

/-!
# Lib.Numerals

Numbers written to a base, the first digit in front.  The last digit is the remainder, and the
others are the numeral of the quotient (`numeral_of_le`), which is what a loop that
writes digits from the end makes use of.
-/

namespace Numerals

/-- The digits of `n` to base `b`; zero has one digit. -/
def numeral (b n : Nat) : List Nat := if n = 0 then [0] else (Nat.digits b n).reverse

variable {b n d k : Nat}

/-- A single digit. -/
theorem numeral_of_lt (h : n < b) : numeral b n = [n] := by
  unfold numeral
  split
  · simp_all
  · rename_i hne
    rw [Nat.digits_of_lt b n hne h, List.reverse_singleton]

/-- The last digit, and those in front of it. -/
theorem numeral_of_le (hb : 1 < b) (h : b ≤ n) : numeral b n = numeral b (n / b) ++ [n % b] := by
  have hne : n ≠ 0 := by omega
  have hdiv : n / b ≠ 0 := (Nat.div_pos h (by omega)).ne'
  rw [numeral, if_neg hne, numeral, if_neg hdiv, Nat.digits_def' hb (by omega), List.reverse_cons]

theorem length_numeral_le (hb : 1 < b) (hk : 0 < k) (h : n < b ^ k) : (numeral b n).length ≤ k := by
  unfold numeral
  split
  · exact hk
  · rw [List.length_reverse]
    exact (Nat.digits_length_le_iff hb n).2 h

theorem lt_of_mem_numeral (hb : 1 < b) (h : d ∈ numeral b n) : d < b := by
  unfold numeral at h
  split at h
  · rw [List.mem_singleton.1 h]
    omega
  · exact Nat.digits_lt_base hb (List.mem_reverse.1 h)

end Numerals
