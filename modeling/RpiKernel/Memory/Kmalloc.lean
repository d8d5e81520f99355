import RpiKernel.Memory.Region

/-!
# RpiKernel.Memory.Kmalloc

What `kmalloc` and `kfree` do to the live regions: a request that succeeds
adds one region at a fresh address, releasing a region removes it, and
nothing else changes.  The region of a request is large enough for it as
long as the 32-bit round-up of `size2order` does not wrap
(`le_granted`).
-/

namespace RpiKernel

open Dyadic Dlist Alloc

variable {a a' : Alloc} {T T' : Nat → Tag} {b c d i j k n m p q x size : Nat}

/-! ## the size of a block -/

theorem orderLoop_spec (adjusted n order : Nat) (h : adjusted ≤ 2 ^ (order + n)) :
    adjusted ≤ 2 ^ orderLoop adjusted n order := by
  induction n generalizing order with
  | zero => simpa [orderLoop] using h
  | succ n ih =>
      unfold orderLoop
      split_ifs with hlt
      · exact ih (order + 1) (by rwa [Nat.add_right_comm, Nat.add_assoc])
      · omega

/-- How many bytes `kmalloc(size)` sets aside. -/
def granted (size : Nat) : Nat :=
  if size = 0 then slabSize 0 else 2 ^ size2order size * frameSize

/-- The largest size whose round-up stays below `2 ^ 32`. -/
def maxRequest : Nat := 2 ^ 32 - frameSize

theorem le_granted (h : size ≤ maxRequest) : size ≤ granted size := by
  unfold maxRequest frameSize at h
  unfold granted size2order frameSize
  split_ifs with h0
  · omega
  · have hadj : (size + 4096 - 1) % 2 ^ 32 / 4096 ≤ 2 ^ (0 + 32) := by omega
    have hord := orderLoop_spec _ 32 0 hadj
    have hmul := Nat.mul_le_mul_right 4096 hord
    omega

/-! ## `slab_allocate` -/

/-- The search for a page of class `c` with a clear bit comes to an end. -/
theorem Alloc.Ok.findSlot_seg (h : a.Ok T) {hd pr : Option Nat} {xs : List Nat} {q : Option Nat}
    (hseg : IsSeg (fun i => (a.slabs i).next) (fun i => (a.slabs i).prev) pr hd xs q none)
    (hmem : ∀ b ∈ xs, b < totalFrame ∧ a.IsPage b ∧ (a.slabs b).slabType = c)
    (hn : xs.length ≤ n) :
    findSlot a n hd = some none ∨ ∃ page i, findSlot a n hd = some (some (page, i)) ∧
      page ∈ xs ∧ i < slotCount c ∧ (a.slabs page).bitmap i = false := by
  induction xs generalizing pr hd n with
  | nil =>
      rw [hseg.2]
      left
      cases n <;> rfl
  | cons b xs ih =>
      obtain ⟨rfl, -, hrest⟩ := hseg
      cases n with
      | zero => simp at hn
      | succ n =>
          have hlen : xs.length ≤ n := by simpa using hn
          obtain ⟨hb, hp, ht⟩ := hmem b List.mem_cons_self
          have hok := h.class_of_page hb hp ht
          unfold findSlot
          dsimp only
          by_cases hf : 0 < (a.slabs b).freeSlabs
          · obtain ⟨i, hi, hlt, hbit⟩ := hok.firstClear hf
            rw [if_pos hf, hi]
            exact Or.inr ⟨b, i, rfl, List.mem_cons_self, hlt, hbit⟩
          · rw [if_neg hf]
            cases ih hrest (fun y hy => hmem y (List.mem_cons_of_mem b hy)) hlen with
            | inl hnone => exact Or.inl hnone
            | inr hsome =>
                obtain ⟨page, i, he, hpx, hi⟩ := hsome
                exact Or.inr ⟨page, i, he, List.mem_cons_of_mem b hpx, hi⟩

theorem Alloc.Ok.findSlot (h : a.Ok T) (hc : c < slabType) :
    findSlot a totalFrame (a.slabStart c) = some none ∨
      ∃ page i, findSlot a totalFrame (a.slabStart c) = some (some (page, i)) ∧
        page < totalFrame ∧ a.IsPage page ∧ (a.slabs page).slabType = c ∧ i < slotCount c ∧
        (a.slabs page).bitmap i = false := by
  obtain ⟨xs, q, hseg, hmem⟩ := h.lists c hc
  have hlen : xs.length ≤ totalFrame := by
    have hsub : xs ⊆ List.range totalFrame := fun y hy =>
      List.mem_range.mpr ((hmem y).mp hy).1
    have hle := (hseg.nodup.subperm hsub).length_le
    rwa [List.length_range] at hle
  cases h.findSlot_seg hseg (fun y hy => (hmem y).mp hy) hlen with
  | inl hnone => exact Or.inl hnone
  | inr hsome =>
      obtain ⟨page, i, he, hpx, hi⟩ := hsome
      obtain ⟨hlt, hp, ht⟩ := (hmem page).mp hpx
      exact Or.inr ⟨page, i, he, hlt, hp, ht, hi⟩

/-- Taking a free slot of an existing page. -/
theorem Alloc.Ok.takeSlot (h : a.Ok T) (hb : b < totalFrame) (hp : a.IsPage b)
    (ht : (a.slabs b).slabType = c) (hi : i < slotCount c) (hbit : (a.slabs b).bitmap i = false) :
    (takeSlot b i a).Ok T ∧
      a.Adds (takeSlot b i a) ((a.slabs b).startAddress + i * slabSize c) (slabSize c) := by
  have hok := h.class_of_page hb hp ht
  have hok' : (RpiKernel.takeSlot b i a).Ok T :=
    h.modifySlab hb hp (fun d hd => by
      have hdc : (d : Int) = c := hd.slabType.symm.trans ht
      obtain rfl : d = c := by omega
      exact hd.take hi hbit) rfl rfl
  refine ⟨hok', ?_⟩
  have hnot : ¬ a.Has T (.slot b c i) := fun hh => by
    have := hh.2.2.2.2
    rw [hbit] at this
    contradiction
  have hadds := h.adds hok' hnot fun e' => ?_
  · rw [hok.startAddress, index2address_of_lt hb, Nat.add_assoc]
    exact hadds
  · cases e' with
    | block b' k => simp [Has, IsPage, RpiKernel.takeSlot]
    | slot b' c' i' =>
        by_cases hbb : b' = b
        · subst hbb
          by_cases hii : i' = i
          · subst hii
            have htc : (a.slabs b').slabType = c' ↔ c' = c := by rw [ht]; omega
            simp only [Has, IsPage, RpiKernel.takeSlot, buddy_modifySlab, slabs_modifySlab, if_true,
              Function.update_self, htc, hbit, Entry.slot.injEq]
            constructor
            · rintro ⟨-, -, rfl, -⟩; simp
            · intro hr
              obtain rfl : c' = c := by simpa using hr
              exact ⟨hb, hp, rfl, hi, trivial⟩
          · simp [Has, IsPage, RpiKernel.takeSlot, hii]
        · simp [Has, IsPage, RpiKernel.takeSlot, hbb]

/-- Making a page and taking its first slot. -/
theorem adds_newSlab (h : a.Ok T) (hc : c < 9) (hb : b < totalFrame)
    (hT : T b = .live 0) (hp : ¬ a.IsPage b) {a₀ : Alloc} {T₀ : Nat → Tag} (h₀ : a₀.Ok T₀)
    (hhas : ∀ e, a.Has T e ↔ a₀.Has T₀ e ∨ e = .block b 0) (hnot : ¬ a₀.Has T₀ (.block b 0)) :
    a₀.Adds (newSlab c b a) (index2address b) (slabSize c) := by
  have hok' := h.newSlab hc hb hT hp
  have hc' : c < slabType := by unfold slabType; omega
  have hne : a.slabStart c ≠ some b := fun hs => hp (h.start_page hc' hs).2.1
  have hsl := slabs_newSlab hne
  have hcount := (class_bounds hc).2.2
  have hnew : ¬ a₀.Has T₀ (.slot b c 0) := fun hh =>
    hp (((hhas _).mpr (Or.inl hh)).2.1)
  have hadds := h₀.adds hok' hnew fun e' => ?_
  · rw [index2address_of_lt hb]
    simpa [Entry.offset, Entry.size] using hadds
  · cases e' with
    | block b' k =>
        have hold := hhas (.block b' k)
        by_cases hbb : b' = b
        · subst hbb
          have hn0 : ¬ a₀.Has T₀ (.block b' k) := fun hh => by
            have hk := (hold.mpr (Or.inl hh)).2.1
            rw [hT] at hk
            exact hnot (Tag.live.inj hk ▸ hh)
          simp [Has, isPage_newSlab] at hn0 ⊢
          exact hn0
        · have hpb : (newSlab c b a).IsPage b' ↔ a.IsPage b' := by simp [isPage_newSlab, hbb]
          simp only [Has, Entry.block.injEq, hbb, false_and, or_false] at hold
          simp only [Has, hpb, reduceCtorEq, or_false]
          exact hold
    | slot b' c' i' =>
        have hold := hhas (.slot b' c' i')
        simp only [reduceCtorEq, or_false] at hold
        rw [← hold]
        by_cases hbb : b' = b
        · subst hbb
          have hbit : ∀ i', Function.update (fun _ => false) 0 true i' = true ↔ i' = 0 := fun i' => by
            by_cases hi : i' = 0
            · subst hi; simp
            · simp [hi]
          simp only [Has, isPage_newSlab, hsl, if_true, hbit, true_or, true_and, hp, false_and,
            and_false, false_or, Entry.slot.injEq, hb]
          constructor
          · rintro ⟨ht, -, hi⟩; exact ⟨by omega, hi⟩
          · rintro ⟨rfl, rfl⟩; exact ⟨rfl, by omega, rfl⟩
        · have hpb : (newSlab c b a).IsPage b' ↔ a.IsPage b' := by simp [isPage_newSlab, hbb]
          have hdata : ((newSlab c b a).slabs b').slabType = (a.slabs b').slabType ∧
              ((newSlab c b a).slabs b').bitmap = (a.slabs b').bitmap := by
            rw [hsl, if_neg hbb]
            split_ifs <;> exact ⟨rfl, rfl⟩
          simp [Has, hpb, hdata.1, hdata.2, hbb]

/-- The page-frame allocator hands out a block. -/
theorem Alloc.Ok.gains {s : Buddy} (h : a.Ok T) (hs : BuddyOk s T') (hss : SameSlab a.buddy s)
    (hg : Gains T T' b k) (hb : b < totalFrame) (hp : ¬ a.IsPage b) :
    (a.setBuddy s).Ok T' ∧ ¬ (a.setBuddy s).IsPage b ∧ T' b = .live k ∧
      ¬ a.Has T (.block b k) ∧ ∀ e, (a.setBuddy s).Has T' e ↔ a.Has T e ∨ e = .block b k := by
  have hpage : ∀ j, (a.setBuddy s).IsPage j ↔ a.IsPage j := fun j => by
    unfold IsPage
    rw [buddy_setBuddy, (hss j).2]
  refine ⟨?_, mt (hpage b).mp hp, (hg.live b k).mpr (Or.inr ⟨rfl, rfl⟩),
    fun hh => hg.fresh k hh.2.1, fun e => ?_⟩
  · exact h.setBuddy hs hss fun j hj hpj => (hg.live j 0).mpr (Or.inl (h.page_live hj hpj))
  · cases e with
    | block j l =>
        simp only [Has, hpage, hg.live, Entry.block.injEq]
        constructor
        · rintro ⟨hj, hl, hpj⟩
          exact hl.imp (fun hl => ⟨hj, hl, hpj⟩) id
        · intro hr
          cases hr with
          | inl hr => exact ⟨hr.1, Or.inl hr.2.1, hr.2.2⟩
          | inr hr => obtain ⟨rfl, rfl⟩ := hr; exact ⟨hb, Or.inr ⟨rfl, rfl⟩, hp⟩
    | slot j c i => simp [Has, hpage]

/-- The two outcomes of an allocation: nothing happens, or a region of `n`
bytes is added at the returned address. -/
def Alloc.Outcome (a : Alloc) (T : Nat → Tag) (n : Nat) (p : Nat) (a' : Alloc) : Prop :=
  (p = 0 ∧ a' = a) ∨
    (p ≠ 0 ∧ a.Adds a' p n ∧ ∃ T', a'.Ok T' ∧ ∀ j, T' j = .reserved ↔ T j = .reserved)

theorem index2address_pos (hb : b < totalFrame) : index2address b ≠ 0 := by
  rw [index2address_of_lt hb]
  unfold buddyMemoryBase
  omega

/-- `malloc_s` of a size that class `c` holds. -/
theorem Alloc.Ok.mallocS (h : a.Ok T) (hcl : findClass size = some c) (hc : c < 9) :
    ∃ p a', mallocS size a = some (p, a') ∧ a.Outcome T (slabSize c) p a' := by
  have hc' : c < slabType := by unfold slabType; omega
  unfold RpiKernel.mallocS slabAllocate
  rw [hcl]
  dsimp only
  cases h.findSlot hc' with
  | inr hsome =>
      -- an existing page has a free slot
      obtain ⟨page, i, he, hb, hp, ht, hi, hbit⟩ := hsome
      obtain ⟨hok', hadds⟩ := h.takeSlot hb hp ht hi hbit
      have hst := (h.class_of_page hb hp ht).startAddress
      have hin := slot_inside hc hi
      have hlt : (a.slabs page).startAddress + i * slabSize c < 2 ^ 64 := by
        rw [hst, index2address_of_lt hb]
        unfold buddyMemoryBase
        unfold frameSize at hin ⊢
        unfold totalFrame at hb
        omega
      have hpos : (a.slabs page).startAddress ≠ 0 := by
        rw [hst]
        exact index2address_pos hb
      rw [he]
      dsimp only
      rw [Nat.mod_eq_of_lt hlt]
      exact ⟨_, _, rfl, Or.inr ⟨by omega, hadds, T, hok', fun _ => Iff.rfl⟩⟩
  | inl hnone =>
      -- a new page is needed
      rw [hnone]
      dsimp only
      have hss := sameSlab_buddyAllocate 0 a.buddy
      cases h.buddy.buddyAllocate 0 with
      | inl hfail =>
          rw [hfail.1]
          exact ⟨0, a, rfl, Or.inl ⟨rfl, rfl⟩⟩
      | inr hsucc =>
          obtain ⟨b, m, T', hres, hb, -, hfree, hs, hg⟩ := hsucc
          have hp : ¬ a.IsPage b := fun hp => by
            rw [h.page_live hb hp] at hfree
            contradiction
          cases hr : RpiKernel.buddyAllocate 0 a.buddy with
          | mk r s =>
              rw [hr] at hres hs hss
              dsimp only at hres hs hss
              subst hres
              obtain ⟨hok, hp', hT', hnot, hhas⟩ := h.gains hs hss hg hb hp
              exact ⟨_, _, rfl, Or.inr ⟨index2address_pos hb,
                adds_newSlab hok hc hb hT' hp' h hhas hnot,
                T', hok.newSlab hc hb hT' hp', hg.reserved⟩⟩

/-- `malloc_b`. -/
theorem Alloc.Ok.mallocB (h : a.Ok T) (size : Nat) :
    a.Outcome T (2 ^ size2order size * frameSize) (mallocB size a).1 (mallocB size a).2 := by
  have hss := sameSlab_buddyAllocate (size2order size) a.buddy
  unfold RpiKernel.mallocB
  cases h.buddy.buddyAllocate (size2order size) with
  | inl hfail =>
      rw [hfail.1]
      exact Or.inl ⟨rfl, rfl⟩
  | inr hsucc =>
      obtain ⟨b, m, T', hres, hb, -, hfree, hs, hg⟩ := hsucc
      have hp : ¬ a.IsPage b := fun hp => by
        rw [h.page_live hb hp] at hfree
        contradiction
      cases hr : RpiKernel.buddyAllocate (size2order size) a.buddy with
      | mk r s =>
          rw [hr] at hres hs hss
          dsimp only at hres hs hss
          subst hres
          obtain ⟨hok, -, -, hnot, hhas⟩ := h.gains hs hss hg hb hp
          have hadds := h.adds hok hnot hhas
          simp only [Entry.offset, Entry.size] at hadds
          rw [← index2address_of_lt hb] at hadds
          exact Or.inr ⟨index2address_pos hb, hadds, T', hok, hg.reserved⟩

/-- `malloc_b` succeeds as long as a large enough block is free. -/
theorem Alloc.Ok.mallocB_ne_zero (h : a.Ok T) (hi : i < totalFrame) (hfree : T i = .free m)
    (hm : size2order size ≤ m) : (RpiKernel.mallocB size a).1 ≠ 0 := by
  unfold RpiKernel.mallocB
  cases h.buddy.buddyAllocate (size2order size) with
  | inl hfail => exact absurd hfree (hfail.2 i hi m hm)
  | inr hsucc =>
      obtain ⟨b, -, -, hres, hb, -⟩ := hsucc
      cases hr : RpiKernel.buddyAllocate (size2order size) a.buddy with
      | mk r s =>
          rw [hr] at hres
          dsimp only at hres
          subst hres
          exact index2address_pos hb

/-- **`kmalloc`** returns, and either nothing happens or one region is
added. -/
theorem Alloc.Ok.kmalloc (h : a.Ok T) (size : Nat) :
    ∃ p a', kmalloc size a = some (p, a') ∧ a.Outcome T (granted size) p a' := by
  unfold RpiKernel.kmalloc granted
  have hlast : slabSize (slabType - 1) = 0 := rfl
  rw [hlast]
  by_cases h0 : size = 0
  · subst h0
    rw [if_pos le_rfl, if_pos rfl]
    exact h.mallocS rfl (by omega)
  · rw [if_neg (by omega), if_neg h0]
    exact ⟨_, _, rfl, h.mallocB size⟩

/-! ## `kfree` -/

/-- What a release does: the region at `p` goes, the reserved frames stay. -/
def Alloc.Released (a : Alloc) (T : Nat → Tag) (p : Nat) (a' : Alloc) : Prop :=
  a.Removes a' p ∧ ∃ T', a'.Ok T' ∧ ∀ j, T' j = .reserved ↔ T j = .reserved

/-- The frame that `kfree` computes for an entry. -/
theorem Alloc.Ok.frame_of_entry {e : Entry} (h : a.Ok T) (he : a.Has T e) :
    toInt32 (address2index (buddyMemoryBase + e.offset)) = e.frame := by
  obtain ⟨hb, hT⟩ := h.entry_live he
  obtain ⟨hsz, h1, h2⟩ := h.entry_inside he
  have hmem := h.entry_mem (x := e.offset) he le_rfl (by omega)
  have hord : (T e.frame).order? = some e.order := by rw [hT]; rfl
  have hlt := h.buddy.tiled.mem_lt hb hord hmem
  rw [frame_of_address]
  · cases e with
    | block b k =>
        simp only [Entry.offset, Entry.frame]
        rw [Nat.mul_div_cancel _ (by decide)]
    | slot b c i => rw [mem_zero.mp hmem]
  · unfold memorySize
    have hfs : 0 < frameSize := by decide
    exact (Nat.div_lt_iff_lt_mul hfs).mp hlt

/-- `free_b` of an address in frame `b`. -/
theorem freeB_eq (hp : p ≠ 0) (hf : toInt32 (address2index p) = b) (hb : b < totalFrame) :
    freeB p a = if (a.buddy.frames b).status = allocatedFrame then
      some (a.setBuddy (buddyFree b a.buddy)) else some a := by
  unfold freeB
  rw [if_neg hp, hf]
  dsimp only
  rw [if_pos (by omega), if_neg (by omega), Int.toNat_natCast]

/-- `free_s` of an address in frame `b`. -/
theorem freeS_eq (hp : p ≠ 0) (hf : toInt32 (address2index p) = b) (hb : b < totalFrame) :
    freeS p a = if (a.buddy.frames b).isSlabPage then
      match (a.buddy.frames b).slabPtr with
      | some page => slabFree page p a
      | none => some a
    else some a := by
  have hlt : (b : Int) < totalFrame := by omega
  have hpos : ¬ (b : Int) < 0 := by omega
  unfold freeS
  rw [if_neg hp, hf]
  exact (if_pos hlt).trans (if_neg hpos)

/-- `kfree` of an address in frame `b`. -/
theorem kfree_eq (hp : p ≠ 0) (hf : toInt32 (address2index p) = b) (hb : b < totalFrame) :
    kfree p a = if (a.buddy.frames b).isSlabPage then freeS p a else freeB p a := by
  unfold kfree
  rw [if_neg hp, hf]
  dsimp only
  rw [if_pos (by omega), if_neg (by omega), Int.toNat_natCast]

theorem base_add_ne_zero (x : Nat) : buddyMemoryBase + x ≠ 0 := by
  unfold buddyMemoryBase
  omega

/-- Giving a live block back. -/
theorem Alloc.Ok.freeB (h : a.Ok T) (he : a.Has T (.block b k)) :
    ∃ a', freeB (buddyMemoryBase + (Entry.block b k).offset) a = some a' ∧
      a.Released T (buddyMemoryBase + (Entry.block b k).offset) a' := by
  obtain ⟨hb, hT, hp⟩ := he
  obtain ⟨T', hs, hl⟩ := h.buddy.buddyFree_live hb hT
  have hss := sameSlab_buddyFree b a.buddy
  have hst : (a.buddy.frames b).status = allocatedFrame :=
    (h.buddy.rep.allocated_iff hb (h.buddy.notHeld b hb)).mpr ⟨k, hT⟩
  have hpage : ∀ j, (a.setBuddy (buddyFree b a.buddy)).IsPage j ↔ a.IsPage j := fun j => by
    unfold IsPage
    rw [buddy_setBuddy, (hss j).2]
  have hok' : (a.setBuddy (buddyFree b a.buddy)).Ok T' := h.setBuddy hs hss fun j hj hpj =>
    (hl.live j 0).mpr ⟨h.page_live hj hpj, fun hjb => hp (hjb ▸ hpj)⟩
  have hrem := h.removes hok' (e := .block b k) ⟨hb, hT, hp⟩ fun e' => ?_
  · refine ⟨a.setBuddy (buddyFree b a.buddy), ?_, hrem, T', hok', hl.reserved⟩
    have hframe := h.frame_of_entry (e := .block b k) ⟨hb, hT, hp⟩
    rw [freeB_eq (base_add_ne_zero _) hframe hb]
    exact if_pos hst
  · cases e' with
    | block j l =>
        simp only [Has, hpage, hl.live, ne_eq, Entry.block.injEq]
        constructor
        · rintro ⟨hj, ⟨hTj, hjb⟩, hpj⟩
          exact ⟨⟨hj, hTj, hpj⟩, fun he => hjb he.1⟩
        · rintro ⟨⟨hj, hTj, hpj⟩, hne⟩
          refine ⟨hj, ⟨hTj, fun hjb => hne ⟨hjb, ?_⟩⟩, hpj⟩
          rw [hjb, hT] at hTj
          exact (Tag.live.inj hTj).symm
    | slot j c i => simp [Has, hpage]

/-- Giving a slot back, with the page if it was the last one. -/
theorem Alloc.Ok.slabFree (h : a.Ok T) (he : a.Has T (.slot b c i)) :
    ∃ a', slabFree b (buddyMemoryBase + (Entry.slot b c i).offset) a = some a' ∧
      a.Released T (buddyMemoryBase + (Entry.slot b c i).offset) a' := by
  obtain ⟨hb, hp, ht, hi, hbit⟩ := he
  have hok := h.class_of_page hb hp ht
  have hin := slot_inside hok.class_lt hi
  have hpos := (class_bounds hok.class_lt).1
  have hT := h.page_live hb hp
  have hoff : buddyMemoryBase + (Entry.slot b c i).offset - (a.slabs b).startAddress =
      i * slabSize c := by
    rw [hok.startAddress, index2address_of_lt hb]
    simp only [Entry.offset]
    omega
  have hrange : (a.slabs b).startAddress ≤ buddyMemoryBase + (Entry.slot b c i).offset ∧
      buddyMemoryBase + (Entry.slot b c i).offset <
        ((a.slabs b).startAddress + frameSize) % 2 ^ 64 := by
    rw [hok.startAddress, index2address_of_lt hb]
    simp only [Entry.offset]
    unfold buddyMemoryBase
    unfold frameSize at hin ⊢
    unfold totalFrame at hb
    omega
  have hsize : ((a.slabs b).slabSize % 2 ^ 64).toNat = slabSize c := by
    rw [hok.slabSize]
    unfold frameSize at hin
    omega
  unfold RpiKernel.slabFree
  dsimp only
  rw [if_neg (not_not.mpr hrange), hsize, hoff, if_neg (by omega),
    if_neg (by rw [Nat.mul_mod_left]; simp), Nat.mul_div_cancel _ hpos,
    if_neg (by rw [hok.totalSlabs]; omega), if_neg (by simp [hbit]), slabs_modifySlab, if_pos rfl]
  dsimp only
  have hclr := usedSlots_clear hi hbit
  by_cases hlast : (a.slabs b).freeSlabs + 1 = (a.slabs b).totalSlabs
  · -- the last slot: the page goes back to the page-frame allocator
    rw [if_pos hlast]
    obtain ⟨a', T', hrel, hok', hl, hpage, hdata⟩ := h.releaseSlab (f := fun p =>
      { p with bitmap := Function.update p.bitmap i false, freeSlabs := p.freeSlabs + 1 })
      hb hp rfl rfl rfl rfl (frame_index2address hb)
    have hnone : ∀ j < slotCount c, j ≠ i → (a.slabs b).bitmap j = false := fun j hj hji => by
      have hzero : usedSlots (Function.update (a.slabs b).bitmap i false) (slotCount c) = 0 := by
        have := hok.freeSlabs
        have := hok.totalSlabs
        omega
      have hj0 := Nat.count_iff_forall_not.mp hzero j hj
      rw [Function.update_of_ne hji] at hj0
      simpa using hj0
    refine ⟨a', hrel, h.removes hok' (e := .slot b c i) ⟨hb, hp, ht, hi, hbit⟩ fun e' => ?_,
      T', hok', hl.reserved⟩
    cases e' with
    | block j l =>
        simp only [Has, hpage, hl.live, ne_eq, reduceCtorEq, not_false_eq_true, and_true]
        by_cases hjb : j = b
        · subst hjb
          simp [hp]
        · simp [hjb]
    | slot j d m =>
        by_cases hjb : j = b
        · subst hjb
          simp only [Has, hpage, ne_eq, not_true_eq_false, false_and, and_false, false_iff,
            Entry.slot.injEq, true_and]
          rintro ⟨⟨-, -, htd, hm, hbm⟩, hne⟩
          have hdc : (d : Int) = c := htd.symm.trans ht
          obtain rfl : d = c := by omega
          rw [hnone m hm fun hmi => hne ⟨rfl, hmi⟩] at hbm
          exact Bool.false_ne_true hbm
        · have hd := hdata j hjb
          have hst : (a'.slabs j).slabType = (a.slabs j).slabType ∧
              (a'.slabs j).bitmap = (a.slabs j).bitmap := by
            rw [hd]
            exact ⟨rfl, rfl⟩
          simp [Has, hpage, hst.1, hst.2, hjb]
  · rw [if_neg hlast]
    have hok' := h.modifySlab (f := fun p =>
        { p with bitmap := Function.update p.bitmap i false, freeSlabs := p.freeSlabs + 1 })
      hb hp (fun d hd => by
        have hdc : (d : Int) = c := hd.slabType.symm.trans ht
        obtain rfl : d = c := by omega
        exact hd.give hi hbit hlast) rfl rfl
    refine ⟨_, rfl, h.removes hok' (e := .slot b c i) ⟨hb, hp, ht, hi, hbit⟩ fun e' => ?_,
      T, hok', fun _ => Iff.rfl⟩
    cases e' with
    | block j l => simp [Has, IsPage]
    | slot j d m =>
        by_cases hjb : j = b
        · subst hjb
          by_cases hmi : m = i
          · subst hmi
            have htd : (a.slabs j).slabType = d ↔ d = c := by rw [ht]; omega
            simp only [Has, IsPage, buddy_modifySlab, slabs_modifySlab, if_true,
              Function.update_self, htd, Bool.false_eq_true, and_false, false_iff, ne_eq,
              Entry.slot.injEq, true_and, and_true]
            rintro ⟨⟨-, -, hdc, -⟩, hne⟩
            exact hne hdc
          · simp [Has, IsPage, hmi]
        · simp [Has, IsPage, hjb]

/-- **`kfree`** of a live pointer returns and removes its region. -/
theorem Alloc.Ok.kfree (h : a.Ok T) (hr : a.Region p n) :
    ∃ a', kfree p a = some a' ∧ a.Released T p a' := by
  obtain ⟨e, he, rfl, rfl⟩ := h.region_iff.mp hr
  cases e with
  | block b k =>
      have hframe : toInt32 (address2index (buddyMemoryBase + (Entry.block b k).offset)) = b :=
        h.frame_of_entry he
      have hpage : ¬ (a.buddy.frames b).isSlabPage = true := he.2.2
      rw [kfree_eq (base_add_ne_zero _) hframe he.1, if_neg hpage]
      exact h.freeB he
  | slot b c i =>
      have hframe : toInt32 (address2index (buddyMemoryBase + (Entry.slot b c i).offset)) = b :=
        h.frame_of_entry he
      have hpage : (a.buddy.frames b).isSlabPage = true := he.2.1
      have hptr := (h.page b he.1 he.2.1).2.1
      rw [kfree_eq (base_add_ne_zero _) hframe he.1, if_pos hpage,
        freeS_eq (base_add_ne_zero _) hframe he.1, if_pos hpage, hptr]
      exact h.slabFree he

/-! ## `init_allocator` -/

/-- `init_allocator` settles the allocator, with nothing live. -/
theorem initAllocator_ok (a : Alloc) (boot : BootInfo) :
    ∃ T, (initAllocator a boot).Ok T ∧ (∀ p n, ¬ (initAllocator a boot).Region p n) ∧
      (∀ j l, T j ≠ .live l) ∧
      ∀ j, T j = .reserved ↔
        ((reserveAll a.buddy boot.reservations).frames j).status = reservedFrame := by
  obtain ⟨T, hok, hnl, hres⟩ := buddyInit_ok (reserveAll a.buddy boot.reservations)
  have hslab : ∀ b < totalFrame, ((initAllocator a boot).buddy.frames b).slabPtr = none ∧
      ((initAllocator a boot).buddy.frames b).isSlabPage = false := fun b hb => by
    rw [initAllocator_eq, buddy_slabInit, buddy_setBuddy]
    exact buddyInit_slab _ hb
  have hnp : ∀ b < totalFrame, ¬ (initAllocator a boot).IsPage b := fun b hb hp => by
    unfold IsPage at hp
    rw [(hslab b hb).2] at hp
    exact Bool.false_ne_true hp
  have hinit : (initAllocator a boot).Ok T := by
    constructor
    · rw [initAllocator_eq, buddy_slabInit, buddy_setBuddy]
      exact hok
    · exact fun b hb hp => absurd hp (hnp b hb)
    · exact fun b hb _ => ⟨(hslab b hb).1, slabs_slabInit _ hb⟩
    · intro c hc
      refine ⟨[], none, ⟨rfl, slabStart_slabInit _ hc⟩, fun b => ?_⟩
      · simp only [List.not_mem_nil, false_iff]
        exact fun hh => hnp b hh.1 hh.2.1
  refine ⟨T, hinit, fun p n hr => ?_, hnl, hres⟩
  obtain ⟨e, he, -, -⟩ := hinit.region_iff.mp hr
  exact hnl _ _ (hinit.entry_live he).2

end RpiKernel
