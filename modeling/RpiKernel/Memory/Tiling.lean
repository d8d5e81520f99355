import RpiKernel.Memory.Buddy
import Mathlib.Tactic.Ring

/-!
# RpiKernel.Memory.Tiling

The abstract page-frame allocator: every frame carries a `Tag` that says
what it is for, and the tags tile memory with aligned blocks (`Tiled`).
Splitting, merging and handing out blocks are updates of the tag map; the
lemmas here say that each keeps the tiling, and which of them keep the
free blocks fully merged (`NoBuddies`).  `RpiKernel.Memory.BuddyInv` shows
that `buddy_allocate` and `buddy_free` perform these updates.
-/

namespace RpiKernel

open Dyadic

/-- What a page frame is for.  `held` is the head of the block that a
running `buddy_allocate` or `buddy_free` has taken off the lists. -/
inductive Tag where
  | reserved
  | uninit
  | belonged
  | free (order : Nat)
  | live (order : Nat)
  | held (order : Nat)
deriving DecidableEq

/-- The order of the block a frame is the head of. -/
def Tag.order? : Tag → Option Nat
  | .free k | .live k | .held k => some k
  | _ => none

@[simp] theorem Tag.order?_free (k : Nat) : (Tag.free k).order? = some k := rfl
@[simp] theorem Tag.order?_live (k : Nat) : (Tag.live k).order? = some k := rfl
@[simp] theorem Tag.order?_held (k : Nat) : (Tag.held k).order? = some k := rfl
@[simp] theorem Tag.order?_belonged : Tag.belonged.order? = none := rfl
@[simp] theorem Tag.order?_reserved : Tag.reserved.order? = none := rfl
@[simp] theorem Tag.order?_uninit : Tag.uninit.order? = none := rfl

/-- The heads' blocks are aligned, lie in memory and do not overlap; every
belonged frame lies in one. -/
structure Tiled (T : Nat → Tag) : Prop where
  block : ∀ i < totalFrame, ∀ k, (T i).order? = some k →
    2 ^ k ∣ i ∧ i + 2 ^ k ≤ totalFrame ∧ k ≤ maxOrder
  tail : ∀ i < totalFrame, ∀ k, (T i).order? = some k →
    ∀ f, Mem f i k → f ≠ i → T f = .belonged
  owner : ∀ f < totalFrame, T f = .belonged →
    ∃ i k, i < totalFrame ∧ (T i).order? = some k ∧ Mem f i k

/-- No two free blocks are buddies. -/
def NoBuddies (T : Nat → Tag) : Prop :=
  ∀ i < totalFrame, ∀ k, T i = .free k → buddy i k < totalFrame → T (buddy i k) ≠ .free k

variable {T : Nat → Tag} {i j k l f : Nat} {t u : Tag}

/-! ## blocks are disjoint -/

theorem Tiled.eq_of_mem_le (hT : Tiled T) (hi : i < totalFrame) (hj : j < totalFrame)
    (hk : (T i).order? = some k) (hl : (T j).order? = some l) (hkl : k ≤ l)
    (hfi : Mem f i k) (hfj : Mem f j l) : i = j := by
  by_contra hne
  have hin := contains_of_meet (hT.block i hi k hk).1 (hT.block j hj l hl).1 hkl hfi hfj
  have hpos := Nat.two_pow_pos k
  have hbel := hT.tail j hj l hl i ⟨hin.1, by omega⟩ hne
  rw [hbel] at hk
  contradiction

/-- Two blocks that share a frame are the same. -/
theorem Tiled.eq_of_mem (hT : Tiled T) (hi : i < totalFrame) (hj : j < totalFrame)
    (hk : (T i).order? = some k) (hl : (T j).order? = some l)
    (hfi : Mem f i k) (hfj : Mem f j l) : i = j := by
  by_cases hkl : k ≤ l
  · exact hT.eq_of_mem_le hi hj hk hl hkl hfi hfj
  · exact (hT.eq_of_mem_le hj hi hl hk (by omega) hfj hfi).symm

/-- A block's frames lie in memory. -/
theorem Tiled.mem_lt (hT : Tiled T) (hi : i < totalFrame) (hk : (T i).order? = some k)
    (hf : Mem f i k) : f < totalFrame := by
  have := (hT.block i hi k hk).2.1
  have := hf.2
  omega

/-! ## updates that keep the tiling -/

/-- A head may change what it is the head of, not its order. -/
theorem Tiled.retag (hT : Tiled T) (hk : (T i).order? = some k) (ht : t.order? = some k) :
    Tiled (Function.update T i t) := by
  have hord : ∀ j, (Function.update T i t j).order? = (T j).order? := fun j => by
    by_cases h : j = i
    · subst h; simp [hk, ht]
    · simp [h]
  have hbel : ∀ j, Function.update T i t j = .belonged ↔ T j = .belonged := fun j => by
    by_cases h : j = i
    · subst h
      constructor
      · intro he; rw [Function.update_self] at he; rw [he] at ht; contradiction
      · intro he; rw [he] at hk; contradiction
    · simp [h]
  constructor
  · intro j hj l hl
    rw [hord] at hl
    exact hT.block j hj l hl
  · intro j hj l hl f hf hne
    rw [hord] at hl
    exact (hbel f).mpr (hT.tail j hj l hl f hf hne)
  · intro f hf hb
    obtain ⟨j, l, hj, hl, hm⟩ := hT.owner f hf ((hbel f).mp hb)
    exact ⟨j, l, hj, by rw [hord]; exact hl, hm⟩

/-- A block may be cut into its two halves. -/
theorem Tiled.split (hT : Tiled T) (hi : i < totalFrame) (hk : (T i).order? = some (k + 1))
    (ht : t.order? = some k) (hu : u.order? = some k) :
    Tiled (Function.update (Function.update T i t) (i + 2 ^ k) u) := by
  obtain ⟨hdvd, hle, hord⟩ := hT.block i hi (k + 1) hk
  have hpos := Nat.two_pow_pos k
  have hpow : 2 ^ (k + 1) = 2 ^ k + 2 ^ k := by ring
  have hne : i + 2 ^ k ≠ i := by omega
  have hdvd' : 2 ^ k ∣ i := (Nat.pow_dvd_pow 2 (Nat.le_succ k)).trans hdvd
  -- a head of the new map is one of the halves or an old head elsewhere
  have hother : ∀ j < totalFrame, ∀ l, (T j).order? = some l → j ≠ i →
      ∀ f, Mem f j l → f ≠ i ∧ f ≠ i + 2 ^ k := fun j hj l hl hji f hf => by
    constructor
    · rintro rfl
      exact hji (hT.eq_of_mem hj hi hl hk hf (mem_self _ _))
    · rintro rfl
      exact hji (hT.eq_of_mem hj hi hl hk hf ⟨by omega, by omega⟩)
  have hhead : ∀ j, (Function.update (Function.update T i t) (i + 2 ^ k) u j).order? =
      if j = i ∨ j = i + 2 ^ k then some k else (T j).order? := fun j => by
    by_cases h1 : j = i + 2 ^ k
    · subst h1; simp [hu]
    · by_cases h2 : j = i
      · subst h2; simp [ht]
      · simp [h1, h2]
  have hhalf : ∀ j, j = i ∨ j = i + 2 ^ k → ∀ f, Mem f j k → f ≠ j → T f = .belonged ∧
      f ≠ i ∧ f ≠ i + 2 ^ k := fun j hj f hf hfj => by
    obtain ⟨hfl, hfu⟩ := hf
    have hfi : f ≠ i := by omega
    exact ⟨hT.tail i hi _ hk f ⟨by omega, by omega⟩ hfi, hfi, by omega⟩
  constructor
  · intro j hj l hl
    rw [hhead] at hl
    by_cases hji : j = i ∨ j = i + 2 ^ k
    · rw [if_pos hji] at hl
      obtain rfl := Option.some.inj hl
      cases hji with
      | inl h => subst h; exact ⟨hdvd', by omega, by omega⟩
      | inr h => subst h; exact ⟨Nat.dvd_add hdvd' (Nat.dvd_refl _), by omega, by omega⟩
    · rw [if_neg hji] at hl
      exact hT.block j hj l hl
  · intro j hj l hl f hf hfj
    rw [hhead] at hl
    by_cases hji : j = i ∨ j = i + 2 ^ k
    · rw [if_pos hji] at hl
      obtain rfl := Option.some.inj hl
      obtain ⟨hb, h1, h2⟩ := hhalf j hji f hf hfj
      simp [h1, h2, hb]
    · rw [if_neg hji] at hl
      obtain ⟨h1, h2⟩ := hother j hj l hl (fun h => hji (Or.inl h)) f hf
      simp [h1, h2, hT.tail j hj l hl f hf hfj]
  · intro f hf hb
    have hfb : T f = .belonged ∧ f ≠ i ∧ f ≠ i + 2 ^ k := by
      by_cases h1 : f = i + 2 ^ k
      · subst h1; rw [Function.update_self] at hb; rw [hb] at hu; contradiction
      · by_cases h2 : f = i
        · subst h2
          rw [Function.update_of_ne h1, Function.update_self] at hb
          rw [hb] at ht; contradiction
        · simpa [h1, h2] using hb
    obtain ⟨j, l, hj, hl, hm⟩ := hT.owner f hf hfb.1
    by_cases hji : j = i
    · subst hji
      obtain rfl : k + 1 = l := Option.some.inj (hk.symm.trans hl)
      cases mem_succ.mp hm with
      | inl h => exact ⟨j, k, hj, by rw [hhead]; simp, h⟩
      | inr h => exact ⟨j + 2 ^ k, k, by omega, by rw [hhead]; simp, h⟩
    · refine ⟨j, l, hj, ?_, hm⟩
      have hj2 : j ≠ i + 2 ^ k := fun h => (hother j hj l hl hji j (mem_self j l)).2 h
      rw [hhead, if_neg (by simp [hji, hj2]), hl]

/-- The two halves of a block may be joined. -/
theorem Tiled.merge (hT : Tiled T) (hi : i < totalFrame) (hj : i + 2 ^ k < totalFrame)
    (hdvd : 2 ^ (k + 1) ∣ i) (hk : (T i).order? = some k) (hl : (T (i + 2 ^ k)).order? = some k)
    (hmax : k < maxOrder) (ht : t.order? = some (k + 1)) :
    Tiled (Function.update (Function.update T (i + 2 ^ k) .belonged) i t) := by
  have hpos := Nat.two_pow_pos k
  have hpow : 2 ^ (k + 1) = 2 ^ k + 2 ^ k := by ring
  have hne : i ≠ i + 2 ^ k := by omega
  have hle := (hT.block (i + 2 ^ k) hj k hl).2.1
  have hother : ∀ j < totalFrame, ∀ l, (T j).order? = some l → j ≠ i → j ≠ i + 2 ^ k →
      ∀ f, Mem f j l → f ≠ i ∧ f ≠ i + 2 ^ k := fun j hj' l hl' hji hji' f hf => by
    constructor
    · rintro rfl
      exact hji (hT.eq_of_mem hj' hi hl' hk hf (mem_self _ _))
    · rintro rfl
      exact hji' (hT.eq_of_mem hj' hj hl' hl hf (mem_self _ _))
  have hhead : ∀ j, (Function.update (Function.update T (i + 2 ^ k) .belonged) i t j).order? =
      if j = i then some (k + 1) else if j = i + 2 ^ k then none else (T j).order? := fun j => by
    by_cases h1 : j = i
    · subst h1; simp [ht]
    · by_cases h2 : j = i + 2 ^ k
      · subst h2; simp
      · simp [h1, h2]
  constructor
  · intro j hj' l hl'
    rw [hhead] at hl'
    by_cases h1 : j = i
    · rw [if_pos h1] at hl'
      obtain rfl := Option.some.inj hl'
      subst h1
      exact ⟨hdvd, by omega, by omega⟩
    · rw [if_neg h1] at hl'
      by_cases h2 : j = i + 2 ^ k
      · rw [if_pos h2] at hl'; contradiction
      · rw [if_neg h2] at hl'
        exact hT.block j hj' l hl'
  · intro j hj' l hl' f hf hfj
    rw [hhead] at hl'
    by_cases h1 : j = i
    · rw [if_pos h1] at hl'
      obtain rfl := Option.some.inj hl'
      subst h1
      by_cases h2 : f = j + 2 ^ k
      · simp [h2]
      · have hb : T f = .belonged := by
          cases mem_succ.mp hf with
          | inl h => exact hT.tail j hi k hk f h hfj
          | inr h => exact hT.tail _ hj k hl f h h2
        simp [hfj, h2, hb]
    · rw [if_neg h1] at hl'
      by_cases h2 : j = i + 2 ^ k
      · rw [if_pos h2] at hl'; contradiction
      · rw [if_neg h2] at hl'
        obtain ⟨hf1, hf2⟩ := hother j hj' l hl' h1 h2 f hf
        simp [hf1, hf2, hT.tail j hj' l hl' f hf hfj]
  · intro f hf hb
    have hfi : f ≠ i := fun h => by
      subst h; rw [Function.update_self] at hb; rw [hb] at ht; contradiction
    by_cases hfj : f = i + 2 ^ k
    · exact ⟨i, k + 1, hi, by rw [hhead]; simp, ⟨by omega, by omega⟩⟩
    · have hfb : T f = .belonged := by simpa [hfi, hfj] using hb
      obtain ⟨j, l, hj', hl', hm⟩ := hT.owner f hf hfb
      by_cases h1 : j = i
      · subst h1
        obtain rfl : k = l := Option.some.inj (hk.symm.trans hl')
        exact ⟨j, k + 1, hj', by rw [hhead]; simp, mem_succ.mpr (Or.inl hm)⟩
      · by_cases h2 : j = i + 2 ^ k
        · subst h2
          obtain rfl : k = l := Option.some.inj (hl.symm.trans hl')
          exact ⟨i, k + 1, hi, by rw [hhead]; simp, mem_succ.mpr (Or.inr hm)⟩
        · exact ⟨j, l, hj', by rw [hhead, if_neg h1, if_neg h2, hl'], hm⟩

end RpiKernel
