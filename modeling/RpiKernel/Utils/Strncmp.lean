import RpiKernel.Lib.Window
import RpiKernel.Lib.Unroll
import Mathlib.Tactic.Common

/-!
# RpiKernel.Utils.Strncmp

`strncmp` in `string.c`, with its loop of four comparisons and the loop for the rest of
the bytes.  Both are rounds of one comparison (`strncmpFlow_eq`), so that it is the
plain `strncmp`: it reads up to the first position where the bytes differ or end a string, and
no more than `n` bytes, and returns the difference there (`strncmp_plain`).
-/

namespace RpiKernel.Strncmp

open Bytes Unroll

/-! ## the code -/

/-- The pointers, and the bytes that were compared last. -/
structure Cursor where
  s1 : Nat
  s2 : Nat
  c1 : UInt8
  c2 : UInt8

/-- Code that reads memory and may `return` (`throw`); `none` where it reads
what cannot be read. -/
abbrev Flow := ExceptT Int Option

theorem pos_iff {n : UInt64} : n > 0 ↔ 0 < n.toNat := UInt64.lt_iff_toNat_lt

theorem toNat_pred {n : UInt64} (h : n > 0) : (n - 1).toNat + 1 = n.toNat := by
  have hpos := pos_iff.1 h
  have hle : 1 ≤ n := UInt64.le_iff_toNat_le.2 hpos
  rw [UInt64.toNat_sub_of_le _ _ hle]
  exact Nat.sub_add_cancel hpos

/-- `c1 - c2`, which is an `int`. -/
def minus (c1 c2 : UInt8) : Int := (c1.toNat : Int) - c2.toNat

section code

variable (read₁ read₂ : Nat → Option UInt8)

/-- Both strings go on by a byte; `return c1 - c2` where one ends or they differ. -/
def compareByte (k : Cursor) : Flow Cursor := do
  let c1 ← read₁ k.s1
  let c2 ← read₂ k.s2
  if c1 = 0 ∨ c1 ≠ c2 then throw (minus c1 c2)
  return ⟨k.s1 + 1, k.s2 + 1, c1, c2⟩

/-- The unrolled loop body. -/
def fourBytes (k : Cursor) : Flow Cursor := do
  let k ← compareByte read₁ read₂ k
  let k ← compareByte read₁ read₂ k
  let k ← compareByte read₁ read₂ k
  compareByte read₁ read₂ k

/-- `do … while (--n4 > 0)`. -/
def fourLoop (n4 : UInt64) (k : Cursor) : Flow Cursor := do
  let k ← fourBytes read₁ read₂ k
  if h : n4 - 1 > 0 then fourLoop (n4 - 1) k else return k
termination_by (n4 - 1).toNat
decreasing_by exact Nat.lt_of_succ_le (Nat.le_of_eq (toNat_pred h))

/-- `while (n > 0)`. -/
def restLoop (n : UInt64) (k : Cursor) : Flow Cursor := do
  if h : n > 0 then
    let k ← compareByte read₁ read₂ k
    restLoop (n - 1) k
  else return k
termination_by n.toNat
decreasing_by exact Nat.lt_of_succ_le (Nat.le_of_eq (toNat_pred h))

/-- The body of `strncmp`. -/
def strncmpFlow (s1 s2 : Nat) (n : UInt64) : Flow Int := do
  let mut k : Cursor := ⟨s1, s2, 0, 0⟩
  let mut n := n
  if n ≥ 4 then
    k ← fourLoop read₁ read₂ (n >>> 2) k
    n := n &&& 3
  k ← restLoop read₁ read₂ n k
  return minus k.c1 k.c2

/-- What is returned, early or at the end. -/
def Flow.returned (f : Flow Int) : Option Int :=
  f.run.map fun
    | .ok v => v
    | .error v => v

/-- `strncmp`, with what can be read through each of its arguments. -/
def strncmp (s1 s2 : Nat) (n : UInt64) : Option Int := (strncmpFlow read₁ read₂ s1 s2 n).returned

end code

/-! ## the loops as rounds -/

variable {read₁ read₂ : Nat → Option UInt8}

theorem fourBytes_eq (x : Flow Cursor) :
    x >>= fourBytes read₁ read₂ = rounds (compareByte read₁ read₂) 4 x := by
  simp only [rounds_succ, rounds_zero, bind_assoc]
  rfl

theorem fourLoop_last {n4 : UInt64} (h : ¬ n4 - 1 > 0) : fourLoop read₁ read₂ n4 = fourBytes read₁ read₂ := by
  funext k
  rw [fourLoop]
  simp only [dif_neg h, bind_pure]

theorem fourLoop_more {n4 : UInt64} (h : n4 - 1 > 0) (k : Cursor) :
    fourLoop read₁ read₂ n4 k = fourBytes read₁ read₂ k >>= fourLoop read₁ read₂ (n4 - 1) := by
  rw [fourLoop]
  simp only [dif_pos h]

theorem fourLoop_eq {n4 : UInt64} (h : n4 > 0) (x : Flow Cursor) :
    x >>= fourLoop read₁ read₂ n4 = rounds (fourBytes read₁ read₂) n4.toNat x := by
  have hpred := toNat_pred h
  by_cases hmore : n4 - 1 > 0
  · have hround : x >>= fourLoop read₁ read₂ n4 =
        (x >>= fourBytes read₁ read₂) >>= fourLoop read₁ read₂ (n4 - 1) := by
      rw [bind_assoc]
      exact bind_congr (fourLoop_more hmore)
    rw [hround, fourLoop_eq hmore, ← hpred, rounds_succ]
  · have hlast : n4.toNat = 1 := by
      rw [pos_iff] at hmore
      omega
    rw [fourLoop_last hmore, hlast, rounds_succ, rounds_zero]
termination_by n4.toNat
decreasing_by exact Nat.lt_of_succ_le (Nat.le_of_eq hpred)

theorem restLoop_end {n : UInt64} (h : ¬ n > 0) : restLoop read₁ read₂ n = pure := by
  funext k
  rw [restLoop, dif_neg h]

theorem restLoop_more {n : UInt64} (h : n > 0) (k : Cursor) :
    restLoop read₁ read₂ n k = compareByte read₁ read₂ k >>= restLoop read₁ read₂ (n - 1) := by
  rw [restLoop, dif_pos h]

theorem restLoop_eq (n : UInt64) (x : Flow Cursor) :
    x >>= restLoop read₁ read₂ n = rounds (compareByte read₁ read₂) n.toNat x := by
  by_cases hmore : n > 0
  · have hpred := toNat_pred hmore
    have hround : x >>= restLoop read₁ read₂ n =
        (x >>= compareByte read₁ read₂) >>= restLoop read₁ read₂ (n - 1) := by
      rw [bind_assoc]
      exact bind_congr (restLoop_more hmore)
    rw [hround, restLoop_eq, ← hpred, rounds_succ]
  · have hend : n.toNat = 0 := by
      rw [pos_iff] at hmore
      omega
    rw [restLoop_end hmore, bind_pure, hend, rounds_zero]
termination_by n.toNat
decreasing_by exact Nat.lt_of_succ_le (Nat.le_of_eq hpred)

theorem toNat_shiftRight_two (n : UInt64) : (n >>> 2).toNat = n.toNat / 4 := by
  rw [UInt64.toNat_shiftRight, Nat.shiftRight_eq_div_pow]
  rfl

theorem toNat_and_three (n : UInt64) : (n &&& 3).toNat = n.toNat % 4 := by
  rw [UInt64.toNat_and]
  exact Nat.and_two_pow_sub_one_eq_mod n.toNat 2

/-- Both loops are `n` rounds of one comparison. -/
theorem strncmpFlow_eq (s1 s2 : Nat) (n : UInt64) : strncmpFlow read₁ read₂ s1 s2 n =
    rounds (compareByte read₁ read₂) n.toNat (pure ⟨s1, s2, 0, 0⟩) >>= fun k => pure (minus k.c1 k.c2) := by
  unfold strncmpFlow
  by_cases h : n ≥ 4
  · have hle : 4 ≤ n.toNat := UInt64.le_iff_toNat_le.1 h
    have hfour : n >>> 2 > 0 := by
      rw [pos_iff, toNat_shiftRight_two]
      omega
    have hloops : (pure ⟨s1, s2, 0, 0⟩ >>= fourLoop read₁ read₂ (n >>> 2)) >>= restLoop read₁ read₂ (n &&& 3) =
        rounds (compareByte read₁ read₂) n.toNat (pure ⟨s1, s2, 0, 0⟩) := by
      rw [fourLoop_eq hfour, restLoop_eq, toNat_shiftRight_two, toNat_and_three, rounds_unrolled fourBytes_eq]
    rw [← hloops]
    simp only [if_pos h, pure_bind, bind_assoc]
  · simp only [if_neg h]
    rw [← restLoop_eq, pure_bind]

/-! ## the plain comparison -/

/-- Two bytes that differ or end a string. -/
def Decides (c d : UInt8) : Prop := c ≠ d ∨ c = 0 ∨ d = 0

instance (c d : UInt8) : Decidable (Decides c d) := inferInstanceAs (Decidable (_ ∨ _))

/-- The first of `n` positions that decides. -/
def firstDecides (x y : Nat → UInt8) (n : Nat) : Option Nat :=
  (List.range n).find? fun i => Decides (x i) (y i)

/-- The difference of the bytes there, and 0 if there is none. -/
def difference (x y : Nat → UInt8) (n : Nat) : Int :=
  (firstDecides x y n).elim 0 fun i => minus (x i) (y i)

/-- How many bytes it takes: those up to the first position that decides, or all `n`. -/
def extent (x y : Nat → UInt8) (n : Nat) : Nat := (firstDecides x y n).elim n (· + 1)

variable {x y : Nat → UInt8} {n : Nat}

theorem firstDecides_succ : firstDecides x y (n + 1) =
    if Decides (x 0) (y 0) then some 0
    else (firstDecides (fun i => x (i + 1)) (fun i => y (i + 1)) n).map (· + 1) := by
  unfold firstDecides
  rw [List.range_succ_eq_map, List.find?_cons, List.find?_map]
  by_cases h : Decides (x 0) (y 0)
  · rw [if_pos h, decide_eq_true h]
  · rw [if_neg h, decide_eq_false h]
    rfl

theorem difference_succ : difference x y (n + 1) =
    if Decides (x 0) (y 0) then minus (x 0) (y 0)
    else difference (fun i => x (i + 1)) (fun i => y (i + 1)) n := by
  unfold difference
  rw [firstDecides_succ]
  split
  next => rfl
  next => rw [Option.elim_map]; rfl

theorem extent_succ : extent x y (n + 1) =
    if Decides (x 0) (y 0) then 1 else extent (fun i => x (i + 1)) (fun i => y (i + 1)) n + 1 := by
  unfold extent
  rw [firstDecides_succ]
  split
  next => rfl
  next => cases firstDecides (fun i => x (i + 1)) (fun i => y (i + 1)) n <;> rfl

/-! ## what the rounds return -/

theorem compareByte_decides {k : Cursor} {c d : UInt8} (h₁ : read₁ k.s1 = some c) (h₂ : read₂ k.s2 = some d)
    (h : Decides c d) : compareByte read₁ read₂ k = throw (minus c d) := by
  have htest : c = 0 ∨ c ≠ d := by grind [Decides]
  unfold compareByte
  rw [h₁, h₂]
  exact if_pos htest

theorem compareByte_next {k : Cursor} {c d : UInt8} (h₁ : read₁ k.s1 = some c) (h₂ : read₂ k.s2 = some d)
    (h : ¬ Decides c d) : compareByte read₁ read₂ k = pure ⟨k.s1 + 1, k.s2 + 1, c, d⟩ := by
  have htest : ¬ (c = 0 ∨ c ≠ d) := by grind [Decides]
  unfold compareByte
  rw [h₁, h₂]
  exact if_neg htest

/-- A `return` in one round ends all. -/
theorem rounds_throw (v : Int) : rounds (compareByte read₁ read₂) n (throw v) = throw v := by
  induction n with
  | zero => rfl
  | succ n ih => exact ih

/-- `n` rounds of the comparison, of strings that can be read as far as it takes them. -/
theorem rounds_compareByte {k : Cursor} (hk : k.c1 = k.c2) (h₁ : Readable read₁ k.s1 x (extent x y n))
    (h₂ : Readable read₂ k.s2 y (extent x y n)) :
    (rounds (compareByte read₁ read₂) n (pure k) >>= fun k => pure (minus k.c1 k.c2)).returned =
      some (difference x y n) := by
  induction n generalizing k x y with
  | zero =>
      rw [rounds_zero, pure_bind, hk]
      exact congrArg some (Int.sub_self _)
  | succ n ih =>
      rw [extent_succ] at h₁ h₂
      rw [rounds_succ, pure_bind, difference_succ]
      by_cases h : Decides (x 0) (y 0)
      · rw [if_pos h] at h₁ h₂ ⊢
        rw [compareByte_decides (h₁ 0 Nat.one_pos) (h₂ 0 Nat.one_pos) h, rounds_throw]
        rfl
      · rw [if_neg h] at h₁ h₂ ⊢
        have heq : x 0 = y 0 := by grind [Decides]
        rw [compareByte_next (h₁ 0 (Nat.succ_pos _)) (h₂ 0 (Nat.succ_pos _)) h]
        exact ih heq h₁.tail h₂.tail

theorem strncmp_difference {s1 s2 : Nat} {n : UInt64} (h₁ : Readable read₁ s1 x (extent x y n.toNat))
    (h₂ : Readable read₂ s2 y (extent x y n.toNat)) :
    strncmp read₁ read₂ s1 s2 n = some (difference x y n.toNat) := by
  rw [strncmp, strncmpFlow_eq]
  exact rounds_compareByte (k := ⟨s1, s2, 0, 0⟩) rfl h₁ h₂

/-- **`strncmp`.**  When both strings can be read up to the first position that decides, or for `n` bytes,
the difference of the bytes there is returned, and 0 without one; nothing is read but these bytes. -/
theorem strncmp_plain {read₁ read₂ : Nat → Option UInt8} {x y : Nat → UInt8} {s1 s2 : Nat} {n : UInt64}
    (h₁ : Readable read₁ s1 x (extent x y n.toNat)) (h₂ : Readable read₂ s2 y (extent x y n.toNat)) :
    strncmp read₁ read₂ s1 s2 n = some (difference x y n.toNat) ∧
      strncmp (clip read₁ s1 (extent x y n.toNat)) (clip read₂ s2 (extent x y n.toNat)) s1 s2 n =
        strncmp read₁ read₂ s1 s2 n := by
  have hrun := strncmp_difference h₁ h₂
  exact ⟨hrun, (strncmp_difference h₁.clip h₂.clip).trans hrun.symm⟩

/-- `"070702"` and `"070701"`. -/
theorem strncmp_plain_magic :
    let read₁ : Nat → Option UInt8 := fun a => [48, 55, 48, 55, 48, 50][a]?
    let read₂ : Nat → Option UInt8 := fun a => [48, 55, 48, 55, 48, 49][a]?
    strncmp read₁ read₂ 0 0 6 = some 1 ∧
      strncmp (clip read₁ 0 6) (clip read₂ 0 6) 0 0 6 = strncmp read₁ read₂ 0 0 6 :=
  strncmp_plain (x := fun a => [48, 55, 48, 55, 48, 50].getD a 0)
    (y := fun a => [48, 55, 48, 55, 48, 49].getD a 0) (n := 6) (by decide) (by decide)

end RpiKernel.Strncmp
