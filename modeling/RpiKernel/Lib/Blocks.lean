import Mathlib.Data.BitVec
import Mathlib.Tactic.Ring
import RpiKernel.Lib.Arm

/-!
# Lib.Blocks

Blocks of memory that are copied and cleared, byte by byte or by doublewords, from the first byte on.  A
copy may overlap its source where it lies below it (`copy_add`).
-/

namespace Arm.Memory

variable {m : Memory} {a : Word}

/-- `n` bytes from `src` to `dst`, all read before any is written. -/
def copy (src dst : Word) (n : Nat) (m : Memory) : Memory := fun x =>
  if x ∈ span dst n then m (src + (x - dst)) else m x

/-- `n` bytes at `p` cleared. -/
def clear (p : Word) (n : Nat) (m : Memory) : Memory := fun x => if x ∈ span p n then 0 else m x

variable {src dst p : Word} {n k : Nat}

theorem mem_span_add {x : Word} (h : k + n ≤ 2 ^ 64) :
    x ∈ span p (k + n) ↔ x ∈ span p k ∨ x ∈ span (p + BitVec.ofNat 64 k) n := by
  simp only [mem_span]
  bv_omega

@[simp] theorem copy_zero : copy src dst 0 m = m := by
  funext x
  rw [copy, if_neg (by simp [mem_span])]

@[simp] theorem clear_zero : clear p 0 m = m := by
  funext x
  rw [clear, if_neg (by simp [mem_span])]

/-- A copy in two parts, the first bytes first; what is still to be read lies behind what was written. -/
theorem copy_add (h : (src - dst).toNat + (k + n) ≤ 2 ^ 64) : copy src dst (k + n) m =
    copy (src + BitVec.ofNat 64 k) (dst + BitVec.ofNat 64 k) n (copy src dst k m) := by
  funext x
  unfold copy
  by_cases hback : x ∈ span (dst + BitVec.ofNat 64 k) n
  · have haddr : src + BitVec.ofNat 64 k + (x - (dst + BitVec.ofNat 64 k)) = src + (x - dst) := by ring
    have hle : k ≤ (x - dst).toNat ∧ (x - dst).toNat < k + n := by
      rw [mem_span] at hback
      bv_omega
    have hunread : src + (x - dst) ∉ span dst k := by
      rw [mem_span, show src + (x - dst) - dst = (src - dst) + (x - dst) by ring, BitVec.toNat_add,
        Nat.mod_eq_of_lt (by omega)]
      omega
    rw [if_pos ((mem_span_add (by omega)).2 (.inr hback)), if_pos hback, haddr, if_neg hunread]
  · by_cases hfront : x ∈ span dst k
    · rw [if_pos ((mem_span_add (by omega)).2 (.inl hfront)), if_neg hback, if_pos hfront]
    · have hneither : x ∉ span dst (k + n) := fun hmem =>
        ((mem_span_add (by omega)).1 hmem).elim hfront hback
      rw [if_neg hneither, if_neg hback, if_neg hfront]

theorem clear_add (h : k + n ≤ 2 ^ 64) : clear p (k + n) m = clear (p + BitVec.ofNat 64 k) n (clear p k m) := by
  funext x
  unfold clear
  by_cases hback : x ∈ span (p + BitVec.ofNat 64 k) n
  · rw [if_pos ((mem_span_add h).2 (.inr hback)), if_pos hback]
  · by_cases hfront : x ∈ span p k
    · rw [if_pos ((mem_span_add h).2 (.inl hfront)), if_neg hback, if_pos hfront]
    · have hneither : x ∉ span p (k + n) := fun hmem => ((mem_span_add h).1 hmem).elim hfront hback
      rw [if_neg hneither, if_neg hback, if_neg hfront]

/-- A byte of a doubleword. -/
theorem extract_load (hk : k < 8) : (m.load a).extractLsb' (8 * k) 8 = m (a + BitVec.ofNat 64 k) := by
  refine BitVec.eq_of_getLsbD_eq fun j hj => ?_
  have hdiv : (8 * k + j) / 8 = k := by omega
  have hmod : (8 * k + j) % 8 = j := by omega
  have hlt : 8 * k + j < 64 := by omega
  simp [load, hj, hlt, hdiv, hmod]

/-- A doubleword loaded and stored is eight bytes copied. -/
theorem store_load : m.store dst (m.load src) = copy src dst 8 m := by
  funext x
  unfold store copy
  by_cases hx : x ∈ span dst 8
  · rw [if_pos (mem_span.1 hx), if_pos hx, extract_load (mem_span.1 hx), BitVec.ofNat_toNat, BitVec.setWidth_eq]
  · rw [if_neg (mem_span.not.1 hx), if_neg hx]

theorem store_eq_clear : m.store p 0 = clear p 8 m := by
  funext x
  unfold store clear
  by_cases hx : x ∈ span p 8
  · rw [if_pos (mem_span.1 hx), if_pos hx]
    simp
  · rw [if_neg (mem_span.not.1 hx), if_neg hx]

/-- One byte. -/
theorem update_load : Function.update m dst (m src) = copy src dst 1 m := by
  funext x
  unfold copy
  by_cases hx : x = dst
  · rw [hx, Function.update_self, if_pos (by simp [mem_span])]
    simp
  · rw [Function.update_of_ne hx, if_neg]
    rw [mem_span]
    bv_omega

theorem update_eq_clear : Function.update m p 0 = clear p 1 m := by
  funext x
  unfold clear
  by_cases hx : x = p
  · rw [hx, Function.update_self, if_pos (by simp [mem_span])]
  · rw [Function.update_of_ne hx, if_neg]
    rw [mem_span]
    bv_omega

end Arm.Memory
