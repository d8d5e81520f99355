import RpiKernel.Memory.Holding
import RpiKernel.Memory.KmallocRun

/-!
# RpiKernel.Memory.Release

What `kfree`, `free_s` and `free_b` do with a pointer nobody was given.  The
three first turn it into a frame (`blockIndex`): `free_s` then compares the
whole address with the slots of the page, `free_b` looks at the frame alone.
So a wrong pointer is harmless unless its frame is out of range or heads a live
block (`Alloc.Ok.kfree_eq_iff`).
-/

namespace RpiKernel

open Dyadic Dlist Alloc

variable {a a' : Alloc} {T : Nat → Tag} {b i n p : Nat}

/-- The `int block_index` that the three functions compute. -/
def blockIndex (ptr : Nat) : Int := toInt32 (address2index ptr)

/-- Nothing is allocated at `p`. -/
def Alloc.Unallocated (a : Alloc) (p : Nat) : Prop := ∀ n, ¬ a.Region p n

theorem Alloc.Unallocated.slot (h : a.Unallocated p) (n : Nat) : ¬ a.SlotRegion p n :=
  fun hs => h n (Or.inr hs)

/-! ## frames out of range -/

theorem kfree_beyond (h : (totalFrame : Int) ≤ blockIndex p) : kfree p a = some a := by
  unfold blockIndex at h
  unfold kfree
  split_ifs with h0
  · rfl
  · dsimp only
    rw [if_neg (by omega)]

theorem kfree_negative (hp : p ≠ 0) (h : blockIndex p < 0) : kfree p a = none := by
  unfold blockIndex at h
  have hlt : toInt32 (address2index p) < totalFrame := by omega
  unfold kfree
  rw [if_neg hp]
  exact (if_pos hlt).trans (if_pos h)

/-! ## frames in range -/

theorem freeS_null (a : Alloc) : freeS 0 a = some a := if_pos rfl

theorem freeB_null (a : Alloc) : freeB 0 a = some a := if_pos rfl

/-- `slab_free` of an address that is no occupied slot of the page. -/
theorem Alloc.Ok.slabFree_unallocated (h : a.Ok T) (hb : b < totalFrame) (hp : a.IsPage b)
    (hno : ∀ n, ¬ a.SlotRegion p n) : RpiKernel.slabFree b p a = some a := by
  obtain ⟨-, -, c, hok⟩ := h.page b hb hp
  have hpos := (class_bounds hok.class_lt).1
  have hle : slabSize c ≤ frameSize := by
    have hin := slot_inside hok.class_lt (i := 0) (by have := (class_bounds hok.class_lt).2.2; omega)
    omega
  have hsize : ((a.slabs b).slabSize % 2 ^ 64).toNat = slabSize c := by
    rw [hok.slabSize]
    unfold frameSize at hle
    omega
  have hsize' : (a.slabs b).slabSize.toNat = slabSize c := by rw [hok.slabSize]; simp
  unfold RpiKernel.slabFree
  dsimp only
  rw [hsize]
  by_cases hrange : (a.slabs b).startAddress ≤ p ∧
      p < ((a.slabs b).startAddress + frameSize) % 2 ^ 64
  swap
  · exact if_pos hrange
  rw [if_neg (not_not.mpr hrange), if_neg hpos.ne']
  by_cases halign : (p - (a.slabs b).startAddress) % slabSize c ≠ 0
  · exact if_pos halign
  rw [if_neg halign]
  by_cases hindex : (((p - (a.slabs b).startAddress) / slabSize c : Nat) : Int) ≥
      (a.slabs b).totalSlabs
  · exact if_pos hindex
  rw [if_neg hindex]
  refine if_pos (Bool.eq_false_iff.mpr fun hbit => ?_)
  -- the chunk is aligned, in range and its bit is set: a slot after all
  have hdiv := Nat.div_add_mod' (p - (a.slabs b).startAddress) (slabSize c)
  exact hno (slabSize c) ⟨b, (p - (a.slabs b).startAddress) / slabSize c, hb, hp,
    by omega, hbit, by rw [hsize']; omega, hsize'.symm⟩

/-- `free_s` of an address that is no occupied slot. -/
theorem Alloc.Ok.freeS_unallocated (h : a.Ok T) (hf : blockIndex p = b) (hb : b < totalFrame)
    (hno : ∀ n, ¬ a.SlotRegion p n) : freeS p a = some a := by
  by_cases h0 : p = 0
  · exact h0 ▸ freeS_null a
  rw [freeS_eq h0 hf hb]
  split_ifs with hp
  · rw [(h.page b hb hp).2.1]
    exact h.slabFree_unallocated hb hp hno
  · rfl

/-- `free_b` looks at the frame of its pointer only. -/
theorem freeB_congr (hp : p ≠ 0) (hf : blockIndex p = b) (hb : b < totalFrame) :
    freeB p a = freeB (index2address b) a := by
  rw [freeB_eq hp hf hb, freeB_eq (index2address_pos hb) (frame_index2address hb) hb]

/-- `free_b` of a frame that is no slab page: the live block it heads goes. -/
theorem Alloc.Ok.freeB_frame (h : a.Ok T) (hp : p ≠ 0) (hf : blockIndex p = b)
    (hb : b < totalFrame) (hpage : ¬ a.IsPage b) :
    if (a.buddy.frames b).status = allocatedFrame then
      ∃ a', RpiKernel.freeB p a = some a' ∧ a.Released T (index2address b) a'
    else RpiKernel.freeB p a = some a := by
  split_ifs with hst
  · obtain ⟨k, hk⟩ := (h.buddy.rep.allocated_iff hb (h.buddy.notHeld b hb)).mp hst
    rw [freeB_congr hp hf hb, index2address_of_lt hb]
    exact h.freeB ⟨hb, hk, hpage⟩
  · rw [freeB_eq hp hf hb, if_neg hst]

theorem kfree_page (hp : p ≠ 0) (hf : blockIndex p = b) (hb : b < totalFrame)
    (hpage : a.IsPage b) : kfree p a = freeS p a := (kfree_eq hp hf hb).trans (if_pos hpage)

theorem kfree_block (hp : p ≠ 0) (hf : blockIndex p = b) (hb : b < totalFrame)
    (hpage : ¬ a.IsPage b) : kfree p a = freeB p a := (kfree_eq hp hf hb).trans (if_neg hpage)

/-- The frame of a wrong pointer is a slab page, or heads no live block. -/
def Alloc.Shielded (a : Alloc) (b : Nat) : Prop :=
  a.IsPage b ∨ (a.buddy.frames b).status ≠ allocatedFrame

/-- The pointers that `kfree` ignores when nothing is allocated there. -/
def Alloc.Ignores (a : Alloc) (ptr : Nat) : Prop :=
  ptr = 0 ∨ totalFrame ≤ blockIndex ptr ∨ (0 ≤ blockIndex ptr ∧ a.Shielded (blockIndex ptr).toNat)

/-- A released region is gone, so the state has changed. -/
theorem Alloc.Released.ne (h : a.Released T p a') (hr : a.Region p n) : a' ≠ a := fun he =>
  ((h.1 p n).mp (he ▸ hr)).2 rfl

/-- **`kfree` of a wrong pointer**: nothing is accessed out of range and nothing
changes, exactly for the pointers that `kfree` ignores. -/
theorem Alloc.Ok.kfree_eq_iff (h : a.Ok T) (hun : a.Unallocated p) :
    RpiKernel.kfree p a = some a ↔ a.Ignores p := by
  unfold Ignores
  by_cases h0 : p = 0
  · subst h0
    exact iff_of_true (kfree_null a) (Or.inl rfl)
  by_cases hbeyond : (totalFrame : Int) ≤ blockIndex p
  · exact iff_of_true (kfree_beyond hbeyond) (Or.inr (Or.inl hbeyond))
  by_cases hneg : blockIndex p < 0
  · rw [kfree_negative h0 hneg]
    refine iff_of_false (by simp) ?_
    omega
  obtain ⟨b, hb⟩ := Int.eq_ofNat_of_zero_le (not_lt.mp hneg)
  have hlt : b < totalFrame := by omega
  rw [hb, Int.toNat_natCast]
  by_cases hpage : a.IsPage b
  · have hs := h.freeS_unallocated hb hlt hun.slot
    rw [kfree_page h0 hb hlt hpage, hs]
    exact iff_of_true rfl (Or.inr (Or.inr ⟨by omega, Or.inl hpage⟩))
  rw [kfree_block h0 hb hlt hpage]
  have hfree := h.freeB_frame h0 hb hlt hpage
  by_cases hst : (a.buddy.frames b).status = allocatedFrame
  · rw [if_pos hst] at hfree
    obtain ⟨a', ha', hrel⟩ := hfree
    obtain ⟨k, hk⟩ := (h.buddy.rep.allocated_iff hlt (h.buddy.notHeld b hlt)).mp hst
    have hreg : a.Region (index2address b) (2 ^ k * frameSize) :=
      Or.inl (h.block_iff.mpr ⟨b, k, ⟨hlt, hk, hpage⟩, index2address_of_lt hlt, rfl⟩)
    rw [ha']
    refine iff_of_false (fun he => hrel.ne hreg (Option.some.inj he)) ?_
    rintro (he | he | ⟨-, he | he⟩)
    · exact h0 he
    · omega
    · exact hpage he
    · exact he hst
  · rw [if_neg hst] at hfree
    rw [hfree]
    exact iff_of_true rfl (Or.inr (Or.inr ⟨by omega, Or.inr hst⟩))

end RpiKernel
