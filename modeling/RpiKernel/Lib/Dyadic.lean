import Mathlib.Data.Nat.Bitwise
import Mathlib.Algebra.Order.Group.Nat
import Mathlib.Tactic.Ring

/-!
# Lib.Dyadic

Aligned power-of-two blocks of natural numbers.  The block `(i, k)` is the
interval `[i, i + 2 ^ k)` with `2 ^ k ∣ i`; its *buddy* is the block of the
same order with which it forms a block of the next order.

* two aligned blocks that meet are nested (`contains_of_meet`);
* a family of disjoint blocks that covers the available numbers and holds
  no two buddies consists of the maximal available blocks
  (`mem_iff_isMaximal`), so the available numbers determine the family.
-/

namespace Dyadic

/-- `f` lies in the block of order `k` at `i`. -/
def Mem (f i k : Nat) : Prop := i ≤ f ∧ f < i + 2 ^ k

instance (f i k : Nat) : Decidable (Mem f i k) := inferInstanceAs (Decidable (_ ∧ _))

/-- The index of the other half of the next larger block. -/
def buddy (i k : Nat) : Nat := i ^^^ 2 ^ k

theorem mem_self (i k : Nat) : Mem i i k := ⟨le_rfl, by have := Nat.two_pow_pos k; omega⟩

theorem mem_zero {f i : Nat} : Mem f i 0 ↔ f = i := by simp only [Mem, pow_zero]; omega

/-- A block is the union of its two halves. -/
theorem mem_succ {f i k : Nat} : Mem f i (k + 1) ↔ Mem f i k ∨ Mem f (i + 2 ^ k) k := by
  simp only [Mem, pow_succ]; omega

/-! ## nesting -/

/-- An aligned block that meets a larger aligned one lies inside it. -/
theorem contains_of_meet {f i k j l : Nat} (hi : 2 ^ k ∣ i) (hj : 2 ^ l ∣ j) (hkl : k ≤ l)
    (hfi : Mem f i k) (hfj : Mem f j l) : j ≤ i ∧ i + 2 ^ k ≤ j + 2 ^ l := by
  obtain ⟨hil, hiu⟩ := hfi
  obtain ⟨hjl, hju⟩ := hfj
  have hj' : 2 ^ k ∣ j := (Nat.pow_dvd_pow 2 hkl).trans hj
  obtain ⟨a, rfl⟩ := hi
  obtain ⟨b, rfl⟩ := hj'
  obtain ⟨c, hc⟩ : 2 ^ k ∣ 2 ^ l := Nat.pow_dvd_pow 2 hkl
  rw [hc] at hju ⊢
  have hpos := Nat.two_pow_pos k
  have hba : b ≤ a := by
    by_contra hlt
    have : 2 ^ k * (a + 1) ≤ 2 ^ k * b := Nat.mul_le_mul_left _ (by omega)
    rw [Nat.mul_add] at this
    omega
  have hac : a < b + c := by
    by_contra hge
    have : 2 ^ k * (b + c) ≤ 2 ^ k * a := Nat.mul_le_mul_left _ (by omega)
    rw [Nat.mul_add] at this
    omega
  refine ⟨Nat.mul_le_mul_left _ hba, ?_⟩
  have : 2 ^ k * (a + 1) ≤ 2 ^ k * (b + c) := Nat.mul_le_mul_left _ (by omega)
  rw [Nat.mul_add, Nat.mul_add] at this
  omega

/-- Two aligned blocks of one order that meet are equal. -/
theorem eq_of_meet {f i j k : Nat} (hi : 2 ^ k ∣ i) (hj : 2 ^ k ∣ j)
    (hfi : Mem f i k) (hfj : Mem f j k) : i = j :=
  Nat.le_antisymm (contains_of_meet hj hi le_rfl hfj hfi).1
    (contains_of_meet hi hj le_rfl hfi hfj).1

/-! ## buddies -/

theorem buddy_mul (q k : Nat) : buddy (2 ^ k * q) k = 2 ^ k * (q ^^^ 1) := by
  have h := Nat.shiftLeft_xor_distrib (a := q) (b := 1) (i := k)
  simp only [Nat.shiftLeft_eq, Nat.one_mul] at h
  rw [buddy, Nat.mul_comm, ← h, Nat.mul_comm]

/-- The lower half's buddy is the upper half. -/
theorem buddy_of_dvd {i k : Nat} (h : 2 ^ (k + 1) ∣ i) : buddy i k = i + 2 ^ k := by
  obtain ⟨q, rfl⟩ := h
  rw [pow_succ, Nat.mul_assoc, buddy_mul, Nat.xor_one_of_even (even_two_mul q)]
  ring

/-- The upper half's buddy is the lower half. -/
theorem buddy_of_not_dvd {i k : Nat} (hk : 2 ^ k ∣ i) (h : ¬ 2 ^ (k + 1) ∣ i) :
    2 ^ (k + 1) ∣ buddy i k ∧ i = buddy i k + 2 ^ k := by
  obtain ⟨q, rfl⟩ := hk
  rcases Nat.even_or_odd q with ⟨m, rfl⟩ | ⟨m, rfl⟩
  · exact absurd ⟨m, by ring⟩ h
  · rw [buddy_mul, Nat.xor_one_of_odd ⟨m, rfl⟩, Nat.add_sub_cancel]
    exact ⟨⟨m, by ring⟩, by ring⟩

/-- Of two buddies one is the lower half of the block they form. -/
theorem buddy_cases {i k : Nat} (hk : 2 ^ k ∣ i) :
    (2 ^ (k + 1) ∣ i ∧ buddy i k = i + 2 ^ k) ∨
      (2 ^ (k + 1) ∣ buddy i k ∧ i = buddy i k + 2 ^ k) := by
  by_cases h : 2 ^ (k + 1) ∣ i
  · exact Or.inl ⟨h, buddy_of_dvd h⟩
  · exact Or.inr (buddy_of_not_dvd hk h)

theorem buddy_ne (i k : Nat) : buddy i k ≠ i := by
  intro h
  have hx : i ^^^ (i ^^^ 2 ^ k) = i ^^^ i := by
    rw [show i ^^^ 2 ^ k = i from h]
  rw [← Nat.xor_assoc, Nat.xor_self, Nat.zero_xor] at hx
  exact absurd hx (Nat.two_pow_pos k).ne'

theorem buddy_buddy (i k : Nat) : buddy (buddy i k) k = i := by
  simp [buddy]

/-! ## maximal available blocks -/

section Maximal

variable {N : Nat} {avail : Nat → Prop} {B : Nat → Nat → Prop}

/-- An aligned block below `N` all of whose members are available. -/
structure IsAvail (N : Nat) (avail : Nat → Prop) (i k : Nat) : Prop where
  dvd : 2 ^ k ∣ i
  le : i + 2 ^ k ≤ N
  avail : ∀ f, Mem f i k → avail f

/-- An available block that no larger available block contains. -/
def IsMaximal (N : Nat) (avail : Nat → Prop) (i k : Nat) : Prop :=
  IsAvail N avail i k ∧
    ∀ j l, IsAvail N avail j l → j ≤ i → i + 2 ^ k ≤ j + 2 ^ l → j = i ∧ l = k

/-- The two halves of an available block are available. -/
theorem IsAvail.halves {i k : Nat} (h : IsAvail N avail i (k + 1)) :
    IsAvail N avail i k ∧ IsAvail N avail (i + 2 ^ k) k := by
  have hdvd : 2 ^ k ∣ i := (Nat.pow_dvd_pow 2 (Nat.le_succ k)).trans h.dvd
  have hle := h.le
  rw [pow_succ] at hle
  refine ⟨⟨hdvd, by omega, fun f hf => h.avail f (mem_succ.mpr (Or.inl hf))⟩,
    ⟨Nat.dvd_add hdvd (Nat.dvd_refl _), by omega, fun f hf => ?_⟩⟩
  exact h.avail f (mem_succ.mpr (Or.inr hf))

/-- A family of blocks over the available numbers. -/
structure IsCover (N : Nat) (avail : Nat → Prop) (B : Nat → Nat → Prop) : Prop where
  isAvail : ∀ i k, B i k → IsAvail N avail i k
  disjoint : ∀ i k j l f, B i k → B j l → Mem f i k → Mem f j l → i = j ∧ k = l
  cover : ∀ f, f < N → avail f → ∃ i k, B i k ∧ Mem f i k
  noBuddies : ∀ i k, B i k → ¬ B (buddy i k) k

/-- Every available block lies in one block of the family. -/
theorem IsCover.contains (hB : IsCover N avail B) {j l : Nat} (hj : IsAvail N avail j l) :
    ∃ i k, B i k ∧ i ≤ j ∧ j + 2 ^ l ≤ i + 2 ^ k := by
  induction l generalizing j with
  | zero =>
      have hjN : j < N := by have := hj.le; simp only [pow_zero] at this; omega
      obtain ⟨i, k, hik, hmem⟩ := hB.cover j hjN (hj.avail j (mem_self j 0))
      obtain ⟨hlo, hhi⟩ := hmem
      exact ⟨i, k, hik, hlo, by rwa [pow_zero]⟩
  | succ l ih =>
      have hpow : 2 ^ (l + 1) = 2 ^ l + 2 ^ l := by ring
      have hpos := Nat.two_pow_pos l
      obtain ⟨hlo, hhi⟩ := hj.halves
      obtain ⟨i, k, hik, hile, hiu⟩ := ih hlo
      obtain ⟨i', k', hik', hile', hiu'⟩ := ih hhi
      have hmi : Mem j i k := ⟨hile, by omega⟩
      have hmi' : Mem (j + 2 ^ l) i' k' := ⟨hile', by omega⟩
      by_cases hk : l + 1 ≤ k
      · obtain ⟨h1, h2⟩ := contains_of_meet hj.dvd (hB.isAvail i k hik).dvd hk (mem_self j _) hmi
        exact ⟨i, k, hik, h1, h2⟩
      by_cases hk' : l + 1 ≤ k'
      · have hm : Mem (j + 2 ^ l) j (l + 1) := ⟨by omega, by omega⟩
        obtain ⟨h1, h2⟩ := contains_of_meet hj.dvd (hB.isAvail i' k' hik').dvd hk' hm hmi'
        exact ⟨i', k', hik', h1, h2⟩
      -- otherwise both halves are blocks of the family, and buddies
      have hkl : k = l := by
        have : 2 ^ l ≤ 2 ^ k := by omega
        have := (Nat.pow_le_pow_iff_right (by decide : 1 < 2)).mp this
        omega
      have hkl' : k' = l := by
        have : 2 ^ l ≤ 2 ^ k' := by omega
        have := (Nat.pow_le_pow_iff_right (by decide : 1 < 2)).mp this
        omega
      subst hkl hkl'
      obtain rfl := eq_of_meet (hB.isAvail i _ hik).dvd hlo.dvd hmi (mem_self j _)
      obtain rfl := eq_of_meet (hB.isAvail i' _ hik').dvd hhi.dvd hmi' (mem_self _ _)
      rw [← buddy_of_dvd hj.dvd] at hik'
      exact absurd hik' (hB.noBuddies i _ hik)

/-- The blocks of the family are the maximal available blocks. -/
theorem IsCover.mem_iff_isMaximal (hB : IsCover N avail B) {i k : Nat} :
    B i k ↔ IsMaximal N avail i k := by
  constructor
  · intro hik
    refine ⟨hB.isAvail i k hik, fun j l hj hji hu => ?_⟩
    obtain ⟨i', k', hik', hle, hu'⟩ := hB.contains hj
    have hpos := Nat.two_pow_pos k
    obtain ⟨rfl, rfl⟩ := hB.disjoint i k i' k' i hik hik' (mem_self i k) ⟨by omega, by omega⟩
    have hji' : j = i := by omega
    subst hji'
    have : 2 ^ l = 2 ^ k := by omega
    exact ⟨rfl, Nat.pow_right_injective (le_refl 2) this⟩
  · rintro ⟨hav, hmax⟩
    obtain ⟨i', k', hik', hle, hu⟩ := hB.contains hav
    obtain ⟨rfl, rfl⟩ := hmax i' k' (hB.isAvail i' k' hik') hle hu
    exact hik'

/-- Two families over the same available numbers are equal. -/
theorem IsCover.unique {B' : Nat → Nat → Prop} (hB : IsCover N avail B)
    (hB' : IsCover N avail B') (i k : Nat) : B i k ↔ B' i k :=
  hB.mem_iff_isMaximal.trans hB'.mem_iff_isMaximal.symm

end Maximal

end Dyadic
