import Mathlib.Tactic.Common

/-!
# Lib.Clamp

Cutting a length to what is left of a buffer, in arithmetic modulo `w`.

`cut w len pos size` is what `if (len + pos > size) len = size - pos` makes of `len`
when sum and difference wrap at `w`.  What is meant is `min len (size - pos)`, and
both agree as long as the position is in the buffer and the sum does not wrap
(`cut_eq_min_iff`); where they differ, the cut length goes past the end
(`cut_inside_iff`).
-/

namespace Clamp

/-- The length that is left of `len` at `pos`. -/
def cut (w len pos size : Nat) : Nat :=
  if (len + pos) % w > size then (size + (w - pos)) % w else len

variable {w len pos size : Nat}

/-- In the buffer, and without a wrap. -/
theorem cut_of_le (hpos : pos ≤ size) (hsize : size < w) (hlen : len + pos < w) :
    cut w len pos size = min len (size - pos) := by
  unfold cut
  rw [Nat.mod_eq_of_lt hlen]
  split
  · have hsub : size + (w - pos) = size - pos + w := by omega
    rw [hsub, Nat.add_mod_right, Nat.mod_eq_of_lt (by omega)]
    omega
  · omega

/-- A sum that wraps leaves the length as it is. -/
theorem cut_of_wrap (hpos : pos ≤ size) (hlen : len < w) (hsize : size < w) (hwrap : w ≤ len + pos) :
    cut w len pos size = len := by
  have hmod : (len + pos) % w = len + pos - w := by
    rw [Nat.mod_eq_sub_mod hwrap, Nat.mod_eq_of_lt (by omega)]
  unfold cut
  rw [hmod, if_neg (by omega)]

/-- Behind the end, something is left of every length. -/
theorem cut_pos (hpos : size < pos) (hw : pos < w) : 0 < cut w len pos size := by
  unfold cut
  split
  next =>
    rw [Nat.mod_eq_of_lt (by omega)]
    omega
  next hle =>
    by_contra hzero
    have hlen : len = 0 := by omega
    rw [hlen, Nat.zero_add, Nat.mod_eq_of_lt hw] at hle
    exact hle hpos

/-- When the length is cut as it is meant to be. -/
theorem cut_eq_min_iff (hpos : pos < w) (hlen : len < w) (hsize : size < w) :
    cut w len pos size = min len (size - pos) ↔ pos ≤ size ∧ len + pos < w := by
  constructor
  · intro h
    by_cases hle : pos ≤ size
    · refine ⟨hle, Nat.lt_of_not_le fun hwrap => ?_⟩
      rw [cut_of_wrap hle hlen hsize hwrap] at h
      omega
    · have hpositive : 0 < cut w len pos size := cut_pos (Nat.lt_of_not_le hle) hpos
      omega
  · exact fun h => cut_of_le h.1 hsize h.2

/-- When nothing goes past the end. -/
theorem cut_inside_iff (hpos : pos < w) (hlen : len < w) (hsize : size < w) :
    (∀ i < cut w len pos size, pos + i < size) ↔ pos ≤ size ∧ len + pos < w := by
  constructor
  · intro h
    by_cases hle : pos ≤ size
    · refine ⟨hle, Nat.lt_of_not_le fun hwrap => ?_⟩
      rw [cut_of_wrap hle hlen hsize hwrap] at h
      have hlast := h (len - 1) (by omega)
      omega
    · have hfirst := h 0 (cut_pos (Nat.lt_of_not_le hle) hpos)
      omega
  · intro ⟨hle, hsum⟩ i hi
    rw [cut_of_le hle hsize hsum] at hi
    omega

/-- A position in the buffer stays in it, whether the sum wraps or not. -/
theorem add_cut_le (hpos : pos ≤ size) (hlen : len < w) (hsize : size < w) :
    (pos + cut w len pos size) % w ≤ size := by
  by_cases hsum : len + pos < w
  · rw [cut_of_le hpos hsize hsum, Nat.mod_eq_of_lt (by omega)]
    omega
  · rw [cut_of_wrap hpos hlen hsize (Nat.le_of_not_lt hsum), Nat.mod_eq_sub_mod (by omega),
      Nat.mod_eq_of_lt (by omega)]
    omega

end Clamp
