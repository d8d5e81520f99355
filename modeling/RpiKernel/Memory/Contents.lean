import RpiKernel.Memory.Partition
import RpiKernel.Memory.Release

/-!
# RpiKernel.Memory.Contents

The regions determine the allocator: two settled states with the same regions
and the same reserved frames have the same free blocks, the same slab pages on
each list, and the same bitmaps and counts (`Alloc.Ok.sameContents`).  Only the
order of the lists may differ.  So `kfree` undoes `kmalloc`, by whatever route
the request was served (`Alloc.Ok.kfree_kmalloc`).
-/

namespace RpiKernel

open Dyadic Dlist Alloc

variable {a a' : Alloc} {T T' : Nat → Tag} {e e' : Entry} {b c i k n p size : Nat}

/-! ## entries by address and size -/

theorem slabSize_inj {d : Nat} (hc : c < 9) (hd : d < 9) (he : slabSize c = slabSize d) : c = d := by
  have hall : ∀ c d : Fin 9, slabSize c = slabSize d → c = d := by decide
  exact congrArg Fin.val (hall ⟨c, hc⟩ ⟨d, hd⟩ he)

/-- A slot is smaller than a frame. -/
theorem slabSize_lt (hc : c < 9) : slabSize c < frameSize := by
  have hall : ∀ c : Fin 9, slabSize c < frameSize := by decide
  exact hall ⟨c, hc⟩

theorem Alloc.Ok.slot_class (h : a.Ok T) (he : a.Has T (.slot b c i)) :
    c < 9 ∧ i * slabSize c + slabSize c ≤ frameSize := by
  obtain ⟨hb, hp, ht, hi, -⟩ := he
  have hc := (h.class_of_page hb hp ht).class_lt
  exact ⟨hc, slot_inside hc hi⟩

/-- An entry is known by where it lies and how large it is, in any state. -/
theorem Alloc.Ok.entry_ext (h : a.Ok T) (h' : a'.Ok T') (he : a.Has T e) (he' : a'.Has T' e')
    (hoff : e.offset = e'.offset) (hsize : e.size = e'.size) : e = e' := by
  have hfs : 0 < frameSize := by decide
  cases e with
  | block b k =>
      cases e' with
      | block b' k' =>
          simp only [Entry.offset, Entry.size] at hoff hsize
          have hb : b = b' := Nat.eq_of_mul_eq_mul_right hfs hoff
          have hk := Nat.eq_of_mul_eq_mul_right hfs hsize
          rw [hb, Nat.pow_right_injective (le_refl 2) hk]
      | slot b' c' i' =>
          have hlt := slabSize_lt (h'.slot_class he').1
          have hpos := Nat.mul_le_mul_right frameSize (Nat.two_pow_pos k)
          simp only [Entry.size] at hsize
          omega
  | slot b c i =>
      obtain ⟨hc, hin⟩ := h.slot_class he
      cases e' with
      | block b' k' =>
          have hlt := slabSize_lt hc
          have hpos := Nat.mul_le_mul_right frameSize (Nat.two_pow_pos k')
          simp only [Entry.size] at hsize
          omega
      | slot b' c' i' =>
          obtain ⟨hc', hin'⟩ := h'.slot_class he'
          obtain rfl := slabSize_inj hc hc' hsize
          have hpos := (class_bounds hc).1
          simp only [Entry.offset] at hoff
          have hbb : b = b' := by
            unfold frameSize at hoff hin hin'
            omega
          subst hbb
          rw [Nat.eq_of_mul_eq_mul_right hpos (Nat.add_left_cancel hoff)]

theorem Alloc.Ok.has_mono (h : a.Ok T) (h' : a'.Ok T')
    (hreg : ∀ p n, a.Region p n → a'.Region p n) (he : a.Has T e) : a'.Has T' e := by
  have hr := hreg _ _ (h.region_iff.mpr ⟨e, he, rfl, rfl⟩)
  obtain ⟨e', he', hoff, hsize⟩ := h'.region_iff.mp hr
  have heq := h.entry_ext h' he he' (by omega) hsize
  exact heq ▸ he'

/-! ## pages, live blocks and lists from entries -/

theorem Alloc.Ok.isPage_iff (h : a.Ok T) (hb : b < totalFrame) :
    a.IsPage b ↔ ∃ c i, a.Has T (.slot b c i) := by
  constructor
  · intro hp
    obtain ⟨-, -, c, hok⟩ := h.page b hb hp
    -- at least one bit of a page is set
    obtain ⟨i, hi, hbit⟩ : ∃ i < slotCount c, (a.slabs b).bitmap i = true := by
      by_contra hno
      have hzero : usedSlots (a.slabs b).bitmap (slotCount c) = 0 :=
        Nat.count_iff_forall_not.mpr fun i hi hbit => hno ⟨i, hi, hbit⟩
      have := hok.used_pos
      omega
    exact ⟨c, i, hb, hp, hok.slabType, hi, hbit⟩
  · rintro ⟨c, i, he⟩
    exact he.2.1

theorem Alloc.Ok.live_iff (h : a.Ok T) (hb : b < totalFrame) :
    T b = .live k ↔ a.Has T (.block b k) ∨ (k = 0 ∧ a.IsPage b) := by
  constructor
  · intro hT
    by_cases hp : a.IsPage b
    · have hlive := h.page_live hb hp
      rw [hT] at hlive
      exact Or.inr ⟨Tag.live.inj hlive, hp⟩
    · exact Or.inl ⟨hb, hT, hp⟩
  · intro hr
    cases hr with
    | inl he => exact he.2.1
    | inr hp => exact hp.1 ▸ h.page_live hb hp.2

/-- The page `b` is on the list of class `c`. -/
def Alloc.OnList (a : Alloc) (c b : Nat) : Prop :=
  ∃ xs q, IsSeg (fun i => (a.slabs i).next) (fun i => (a.slabs i).prev) none
    (a.slabStart c) xs q none ∧ b ∈ xs

theorem Alloc.Ok.onList_iff (h : a.Ok T) (hc : c < slabType) :
    a.OnList c b ↔ b < totalFrame ∧ a.IsPage b ∧ (a.slabs b).slabType = c := by
  obtain ⟨ys, r, hs', hmem⟩ := h.lists c hc
  constructor
  · rintro ⟨xs, q, hs, hb⟩
    rw [hs.unique hs'] at hb
    exact (hmem b).mp hb
  · exact fun hb => ⟨ys, r, hs', (hmem b).mpr hb⟩

/-- The descriptor of a page is what its entries say. -/
theorem Alloc.Ok.slabType_iff (h : a.Ok T) (hb : b < totalFrame) :
    a.IsPage b ∧ (a.slabs b).slabType = c ↔ ∃ i, a.Has T (.slot b c i) := by
  constructor
  · rintro ⟨hp, ht⟩
    obtain ⟨d, i, he⟩ := (h.isPage_iff hb).mp hp
    have hdc : (d : Int) = c := he.2.2.1.symm.trans ht
    obtain rfl : d = c := by omega
    exact ⟨i, he⟩
  · rintro ⟨i, he⟩
    exact ⟨he.2.1, he.2.2.1⟩

/-! ## the same contents -/

/-- The same free blocks, slab pages, bitmaps and counts. -/
structure Alloc.SameContents (a a' : Alloc) : Prop where
  free : ∀ i k, FreeBlock a'.buddy i k ↔ FreeBlock a.buddy i k
  page : ∀ b < totalFrame, a'.IsPage b ↔ a.IsPage b
  list : ∀ c < slabType, ∀ b, a'.OnList c b ↔ a.OnList c b
  bitmap : ∀ b < totalFrame, a.IsPage b → (a'.slabs b).bitmap = (a.slabs b).bitmap
  freeSlabs : ∀ b < totalFrame, a.IsPage b → (a'.slabs b).freeSlabs = (a.slabs b).freeSlabs

/-- Two settled page-frame allocators with the same reserved frames and the same
live blocks have the same free blocks. -/
theorem BuddyOk.freeBlock_congr {s s' : Buddy} (h : BuddyOk s T) (h' : BuddyOk s' T')
    (hres : ∀ j < totalFrame, T' j = .reserved ↔ T j = .reserved)
    (hlive : ∀ j < totalFrame, ∀ k, T' j = .live k ↔ T j = .live k) :
    FreeBlock s' i k ↔ FreeBlock s i k := by
  have hcover := h.isCover
  have hcover' := h'.isCover
  have hav : ∀ f < totalFrame,
      (T' f ≠ .reserved ∧ ∀ i k, i < totalFrame → T' i = .live k → ¬ Mem f i k) →
      (T f ≠ .reserved ∧ ∀ i k, i < totalFrame → T i = .live k → ¬ Mem f i k) :=
    fun f hf hun => ⟨mt (hres f hf).mpr hun.1,
      fun i k hi hT => hun.2 i k hi ((hlive i hi k).mpr hT)⟩
  have hmoved : IsCover totalFrame
      (fun f => T f ≠ .reserved ∧ ∀ i k, i < totalFrame → T i = .live k → ¬ Mem f i k)
      (fun i k => i < totalFrame ∧ T' i = .free k) := by
    constructor
    · intro i k hb
      obtain ⟨hdvd, hle, hall⟩ := hcover'.isAvail i k hb
      exact ⟨hdvd, hle, fun f hf => hav f (hf.2.trans_le hle) (hall f hf)⟩
    · exact hcover'.disjoint
    · exact fun f hf hun => hcover'.cover f hf ⟨mt (hres f hf).mp hun.1,
        fun i k hi hT => hun.2 i k hi ((hlive i hi k).mp hT)⟩
    · exact hcover'.noBuddies
  rw [h'.freeBlock_iff, h.freeBlock_iff]
  exact hmoved.unique hcover i k

/-- **Regions determine the allocator**, up to the order of its lists. -/
theorem Alloc.Ok.sameContents (h : a.Ok T) (h' : a'.Ok T')
    (hres : ∀ j, T' j = .reserved ↔ T j = .reserved)
    (hreg : ∀ p n, a'.Region p n ↔ a.Region p n) : a.SameContents a' := by
  have hhas : ∀ e, a'.Has T' e ↔ a.Has T e := fun e =>
    ⟨h'.has_mono h fun p n => (hreg p n).mp, h.has_mono h' fun p n => (hreg p n).mpr⟩
  have hpage : ∀ b < totalFrame, a'.IsPage b ↔ a.IsPage b := fun b hb => by
    rw [h'.isPage_iff hb, h.isPage_iff hb]
    simp only [hhas]
  have hclass : ∀ b < totalFrame, ∀ c : Nat, (a'.IsPage b ∧ (a'.slabs b).slabType = c) ↔
      (a.IsPage b ∧ (a.slabs b).slabType = c) := fun b hb c => by
    rw [h'.slabType_iff hb, h.slabType_iff hb]
    simp only [hhas]
  have hboth : ∀ b < totalFrame, a.IsPage b →
      ∃ c, PageOk (a.slabs b) b c ∧ PageOk (a'.slabs b) b c ∧
        (a'.slabs b).bitmap = (a.slabs b).bitmap := fun b hb hp => by
    obtain ⟨-, -, c, hok⟩ := h.page b hb hp
    obtain ⟨hp', ht'⟩ := (hclass b hb c).mpr ⟨hp, hok.slabType⟩
    have hok' := h'.class_of_page hb hp' ht'
    refine ⟨c, hok, hok', funext fun i => ?_⟩
    by_cases hi : i < slotCount c
    · have hslot := hhas (.slot b c i)
      simp only [Has, hb, hp, hp', ht', hok.slabType, hi, true_and] at hslot
      exact Bool.eq_iff_iff.mpr hslot
    · rw [hok.clear i (by omega), hok'.clear i (by omega)]
  constructor
  · intro i k
    refine h.buddy.freeBlock_congr h'.buddy (fun j _ => hres j) fun j hj k => ?_
    rw [h'.live_iff hj, h.live_iff hj, hhas, hpage j hj]
  · exact hpage
  · intro c hc b
    rw [h'.onList_iff hc, h.onList_iff hc]
    exact and_congr_right fun hb => hclass b hb c
  · intro b hb hp
    obtain ⟨c, -, -, hbit⟩ := hboth b hb hp
    exact hbit
  · intro b hb hp
    obtain ⟨c, hok, hok', hbit⟩ := hboth b hb hp
    have hf := hok.freeSlabs
    have hf' := hok'.freeSlabs
    rw [hbit] at hf'
    omega

/-! ## `kfree` after `kmalloc` -/

/-- Adding a region and removing it again. -/
theorem Alloc.Adds.removes {a'' : Alloc} (h : a.Adds a' p n) (h' : a'.Removes a'' p) (q m : Nat) :
    a''.Region q m ↔ a.Region q m := by
  rw [h' q m, h.region q m]
  have hfresh := h.fresh m
  grind

/-- `kfree` of what an allocation returned restores the contents. -/
theorem Alloc.Ok.kfree_outcome (h : a.Ok T) (hout : a.Outcome T n p a') (hp : p ≠ 0) :
    ∃ a'', RpiKernel.kfree p a' = some a'' ∧ a.SameContents a'' := by
  obtain ⟨-, hadds, T', hok', hres'⟩ := hout.resolve_left fun hfail => hp hfail.1
  have hreg : a'.Region p n := (hadds.region p n).mpr (Or.inr ⟨rfl, rfl⟩)
  obtain ⟨a'', hfree, hrem, T'', hok'', hres''⟩ := hok'.kfree hreg
  exact ⟨a'', hfree, h.sameContents hok'' (fun j => (hres'' j).trans (hres' j)) (hadds.removes hrem)⟩

/-- **`kfree` undoes `kmalloc`.** -/
theorem Alloc.Ok.kfree_kmalloc (h : a.Ok T) (hm : RpiKernel.kmalloc size a = some (p, a'))
    (hp : p ≠ 0) : ∃ a'', RpiKernel.kfree p a' = some a'' ∧ a.SameContents a'' := by
  obtain ⟨q, a₁, hres, hout⟩ := h.kmalloc size
  obtain ⟨rfl, rfl⟩ := Prod.mk.inj (Option.some.inj (hres.symm.trans hm))
  exact h.kfree_outcome hout hp

/-! ## where a new block lies -/

/-- `a'` has the blocks of `a`, and the same reserved frames. -/
structure Alloc.Grows (a a' : Alloc) : Prop where
  keep : ∀ p n, a.Region p n → a'.Region p n
  reserved : ∀ f < totalFrame, (a'.buddy.frames f).status = reservedFrame ↔
    (a.buddy.frames f).status = reservedFrame

theorem Alloc.Grows.refl (a : Alloc) : a.Grows a := ⟨fun _ _ hr => hr, fun _ _ => Iff.rfl⟩

theorem Alloc.Grows.trans {a'' : Alloc} (h : a.Grows a') (h' : a'.Grows a'') : a.Grows a'' :=
  ⟨fun p n hr => h'.keep p n (h.keep p n hr), fun f hf => (h'.reserved f hf).trans (h.reserved f hf)⟩

theorem Alloc.Settled.kmalloc_grows (h : a.Settled) (hm : RpiKernel.kmalloc size a = some (p, a')) :
    a'.Settled ∧ a.Grows a' := by
  obtain ⟨T, hT⟩ := h
  obtain ⟨q, a₁, hres, hout⟩ := hT.kmalloc size
  obtain ⟨rfl, rfl⟩ := Prod.mk.inj (Option.some.inj (hres.symm.trans hm))
  cases hout with
  | inl hnull =>
      obtain ⟨-, rfl⟩ := hnull
      exact ⟨⟨T, hT⟩, .refl _⟩
  | inr hsome =>
      obtain ⟨-, hadds, T', hT', hres'⟩ := hsome
      refine ⟨⟨T', hT'⟩, fun q m hq => (hadds.region q m).mpr (Or.inl hq), fun f hf => ?_⟩
      rw [hT'.buddy.reserved_iff hf, hT.buddy.reserved_iff hf]
      exact hres' f

/-- A free frame starts at `p`. -/
def Alloc.FreePage (a : Alloc) (p : Nat) : Prop :=
  ∃ f < totalFrame, p = index2address f ∧ InFree a.buddy f

/-- A new block of a page or more starts in memory that was free. -/
theorem Alloc.Grows.freePage (hg : a.Grows a') (h : a.Ok T) (h' : a'.Ok T') (hr : a'.Region p n)
    (hnew : ∀ m, ¬ a.Region p m) (hn : frameSize ≤ n) : a.FreePage p := by
  obtain ⟨e, he, rfl, rfl⟩ := h'.region_iff.mp hr
  cases e with
  | slot b c i =>
      have hlt := slabSize_lt (h'.slot_class he).1
      simp only [Entry.size] at hn
      omega
  | block b k =>
      obtain ⟨hb, hlive, -⟩ := he
      -- no other block of `a` shares the first frame of the new one
      have hout {q m : Nat} (hq : a.Region q m) : q + m ≤ buddyMemoryBase + b * frameSize ∨
          buddyMemoryBase + b * frameSize + frameSize ≤ q := by
        have hne : buddyMemoryBase + (Entry.block b k).offset ≠ q := fun heq => hnew m (heq ▸ hq)
        have hdis := h'.region_disjoint hr (hg.keep q m hq) hne
        simp only [Entry.offset] at hdis
        omega
      refine ⟨b, hb, (index2address_of_lt hb).symm, ?_⟩
      cases h.buddy.exists_block hb with
      | inl hres =>
          have hres' := (h'.buddy.reserved_iff hb).mp
            ((hg.reserved b hb).mpr ((h.buddy.reserved_iff hb).mpr hres))
          rw [hlive] at hres'
          contradiction
      | inr hblock =>
          obtain ⟨i, l, hi, hfree | hl, hmem⟩ := hblock
          · exact ⟨i, l, h.buddy.freeBlock_iff.mpr ⟨hi, hfree⟩, hmem⟩
          · have hfs : 0 < frameSize := by decide
            have hlo := Nat.mul_le_mul_right frameSize hmem.1
            have hhi := Nat.mul_le_mul_right frameSize (Nat.succ_le_of_lt hmem.2)
            rw [Nat.succ_mul] at hhi
            cases (h.live_iff hi).mp hl with
            | inl hblk =>
                have hdis := hout (h.region_iff.mpr ⟨_, hblk, rfl, rfl⟩)
                simp only [Entry.offset, Entry.size] at hdis
                rw [Nat.add_mul] at hhi
                omega
            | inr hpage =>
                obtain ⟨rfl, hp⟩ := hpage
                obtain ⟨c, j, hslot⟩ := (h.isPage_iff hi).mp hp
                have hpos := (h.entry_inside hslot).1
                have hin := (h.slot_class hslot).2
                have hdis := hout (h.region_iff.mpr ⟨_, hslot, rfl, rfl⟩)
                obtain rfl : b = i := by
                  have hlt := hmem.2
                  have hle := hmem.1
                  omega
                simp only [Entry.offset, Entry.size] at hdis hpos
                omega

end RpiKernel
