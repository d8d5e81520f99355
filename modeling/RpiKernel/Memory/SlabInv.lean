import RpiKernel.Memory.Slab
import Mathlib.Data.Nat.Count

/-!
# RpiKernel.Memory.SlabInv

The invariant of the whole allocator (`Alloc.Ok`): the page-frame
allocator is settled, every slab page is a live block of order 0 on the
list of its class, and its free count agrees with its bitmap.  The lemmas
here follow one edit each: taking a slot, giving one back, making a page
and releasing one.
-/

namespace RpiKernel

open Dyadic Dlist Alloc

variable {a a' : Alloc} {T T' : Nat → Tag} {b c d i j k n : Nat}

/-! ## pages -/

/-- How many slots a page of class `c` has. -/
def slotCount (c : Nat) : Nat := frameSize / slabSize c

/-- How many of the first `n` bits are set. -/
def usedSlots (bitmap : Nat → Bool) (n : Nat) : Nat := Nat.count (fun i => bitmap i = true) n

theorem class_bounds (hc : c < 9) :
    0 < slabSize c ∧ slotCount c * slabSize c = frameSize ∧ 1 < slotCount c := by
  have hall : ∀ c : Fin 9,
      0 < slabSize c ∧ slotCount c * slabSize c = frameSize ∧ 1 < slotCount c := by decide
  exact hall ⟨c, hc⟩

theorem usedSlots_le (bitmap : Nat → Bool) (n : Nat) : usedSlots bitmap n ≤ n := Nat.count_le _

theorem usedSlots_none : usedSlots (fun _ => false) n = 0 := by
  unfold usedSlots
  simp

theorem usedSlots_update_ge (bitmap : Nat → Bool) (v : Bool) (hi : n ≤ i) :
    usedSlots (Function.update bitmap i v) n = usedSlots bitmap n := by
  have hne : ∀ j < n, Function.update bitmap i v j = bitmap j := fun j hj =>
    Function.update_of_ne (by omega) ..
  unfold usedSlots
  apply Nat.le_antisymm
  · exact Nat.count_mono_left fun j hj hb => by rwa [hne j hj] at hb
  · exact Nat.count_mono_left fun j hj hb => by rwa [hne j hj]

/-- Setting a clear bit. -/
theorem usedSlots_set {bitmap : Nat → Bool} (hi : i < n) (hb : bitmap i = false) :
    usedSlots (Function.update bitmap i true) n = usedSlots bitmap n + 1 := by
  induction n with
  | zero => omega
  | succ n ih =>
      unfold usedSlots at ih ⊢
      rw [Nat.count_succ, Nat.count_succ]
      by_cases hin : i = n
      · subst hin
        have := usedSlots_update_ge bitmap true (le_refl i)
        unfold usedSlots at this
        simp [this, hb]
      · rw [ih (by omega), Function.update_of_ne (Ne.symm hin)]
        omega

/-- Clearing a set bit. -/
theorem usedSlots_clear {bitmap : Nat → Bool} (hi : i < n) (hb : bitmap i = true) :
    usedSlots (Function.update bitmap i false) n + 1 = usedSlots bitmap n := by
  have h0 : Function.update bitmap i false i = false := Function.update_self ..
  have h := usedSlots_set hi h0
  rw [Function.update_idem, ← hb, Function.update_eq_self] at h
  exact h.symm

/-- A page with fewer set bits than slots has a clear one. -/
theorem firstClear_spec (bitmap : Nat → Bool) (n i : Nat) :
    match firstClear bitmap n i with
    | some j => i ≤ j ∧ j < i + n ∧ bitmap j = false
    | none => ∀ j, i ≤ j → j < i + n → bitmap j = true := by
  induction n generalizing i with
  | zero => simp only [firstClear]; intro j h1 h2; omega
  | succ n ih =>
      unfold firstClear
      by_cases hb : bitmap i = true
      · rw [if_pos hb]
        have h := ih (i + 1)
        cases hf : firstClear bitmap n (i + 1) with
        | none =>
            rw [hf] at h
            dsimp only at h ⊢
            intro j h1 h2
            by_cases hj : j = i
            · exact hj ▸ hb
            · exact h j (by omega) (by omega)
        | some j =>
            rw [hf] at h
            dsimp only at h ⊢
            exact ⟨by omega, by omega, h.2.2⟩
      · rw [if_neg hb]
        exact ⟨le_rfl, by omega, by simpa using hb⟩

/-- The descriptor of a slab page of class `c` in frame `b`. -/
structure PageOk (p : SlabT) (b c : Nat) : Prop where
  class_lt : c < 9
  available : p.available = 0
  slabType : p.slabType = c
  slabSize : p.slabSize = slabSize c
  startAddress : p.startAddress = index2address b
  totalSlabs : p.totalSlabs = slotCount c
  freeSlabs : p.freeSlabs + usedSlots p.bitmap (slotCount c) = slotCount c
  used_pos : 0 < usedSlots p.bitmap (slotCount c)
  clear : ∀ i, slotCount c ≤ i → p.bitmap i = false

/-- Two descriptors that differ in their links only. -/
def SlabT.SameData (p p' : SlabT) : Prop := p' = { p with next := p'.next, prev := p'.prev }

theorem PageOk.sameData {p p' : SlabT} (h : PageOk p b c) (hs : p.SameData p') :
    PageOk p' b c := by
  rw [hs]
  exact ⟨h.1, h.2, h.3, h.4, h.5, h.6, h.7, h.8, h.9⟩

/-- A bit of a page and the count of free slots, changed together. -/
theorem PageOk.setBit {p : SlabT} {x : Bool} {n : Int} (h : PageOk p b c) (hi : i < slotCount c)
    (hcount : n + usedSlots (Function.update p.bitmap i x) (slotCount c) = slotCount c)
    (hpos : 0 < usedSlots (Function.update p.bitmap i x) (slotCount c)) :
    PageOk { p with bitmap := Function.update p.bitmap i x, freeSlabs := n } b c := by
  constructor
  · exact h.class_lt
  · exact h.available
  · exact h.slabType
  · exact h.slabSize
  · exact h.startAddress
  · exact h.totalSlabs
  · exact hcount
  · exact hpos
  · intro j hj
    dsimp only
    rw [Function.update_of_ne (by omega)]
    exact h.clear j hj

/-- Setting a clear bit of a page. -/
theorem PageOk.take {p : SlabT} (h : PageOk p b c) (hi : i < slotCount c)
    (hb : p.bitmap i = false) :
    PageOk { p with bitmap := Function.update p.bitmap i true, freeSlabs := p.freeSlabs - 1 }
      b c := by
  have hset := usedSlots_set hi hb
  have hfree := h.freeSlabs
  refine h.setBit hi ?_ ?_
  · omega
  · omega

/-- Clearing a set bit of a page that has another one. -/
theorem PageOk.give {p : SlabT} (h : PageOk p b c) (hi : i < slotCount c)
    (hb : p.bitmap i = true) (hmore : p.freeSlabs + 1 ≠ p.totalSlabs) :
    PageOk { p with bitmap := Function.update p.bitmap i false, freeSlabs := p.freeSlabs + 1 }
      b c := by
  have hclr := usedSlots_clear hi hb
  have hfree := h.freeSlabs
  have htot := h.totalSlabs
  refine h.setBit hi ?_ ?_
  · omega
  · omega

/-- A page can take another slot exactly when its free count is positive. -/
theorem PageOk.firstClear {p : SlabT} (h : PageOk p b c) (hf : 0 < p.freeSlabs) :
    ∃ i, firstClear p.bitmap p.totalSlabs.toNat 0 = some i ∧ i < slotCount c ∧
      p.bitmap i = false := by
  have htot : p.totalSlabs.toNat = slotCount c := by rw [h.totalSlabs]; simp
  have hspec := firstClear_spec p.bitmap (slotCount c) 0
  rw [htot]
  cases hr : RpiKernel.firstClear p.bitmap (slotCount c) 0 with
  | some i =>
      rw [hr] at hspec
      exact ⟨i, rfl, by have := hspec.2.1; omega, hspec.2.2⟩
  | none =>
      rw [hr] at hspec
      have hall : usedSlots p.bitmap (slotCount c) = slotCount c := by
        unfold usedSlots
        refine Nat.count_iff_forall.mpr fun j hj => ?_
        exact hspec j (Nat.zero_le j) (by omega)
      have := h.freeSlabs
      omega

/-! ## the invariant -/

/-- Frame `b` holds a slab page. -/
def Alloc.IsPage (a : Alloc) (b : Nat) : Prop := (a.buddy.frames b).isSlabPage = true

/-- The list of class `c` links the pages of that class. -/
def SlabListOk (a : Alloc) (c : Nat) : Prop :=
  ∃ xs q, IsSeg (fun i => (a.slabs i).next) (fun i => (a.slabs i).prev) none
      (a.slabStart c) xs q none ∧
    ∀ b, b ∈ xs ↔ b < totalFrame ∧ a.IsPage b ∧ (a.slabs b).slabType = c

/-- The invariant of the allocator between two calls. -/
structure Alloc.Ok (a : Alloc) (T : Nat → Tag) : Prop where
  buddy : BuddyOk a.buddy T
  page : ∀ b < totalFrame, a.IsPage b →
    T b = .live 0 ∧ (a.buddy.frames b).slabPtr = some b ∧ ∃ c, PageOk (a.slabs b) b c
  other : ∀ b < totalFrame, ¬ a.IsPage b →
    (a.buddy.frames b).slabPtr = none ∧ a.slabs b = .blank
  lists : ∀ c < slabType, SlabListOk a c

/-- The page-frame allocator may change underneath, as long as the slab
pages stay live. -/
theorem Alloc.Ok.setBuddy {s : Buddy} (h : a.Ok T) (hs : BuddyOk s T') (hss : SameSlab a.buddy s)
    (hlive : ∀ b < totalFrame, a.IsPage b → T' b = .live 0) : (a.setBuddy s).Ok T' := by
  have hpage : ∀ b, (a.setBuddy s).IsPage b ↔ a.IsPage b := fun b => by
    unfold IsPage
    rw [buddy_setBuddy, (hss b).2]
  constructor
  · exact hs
  · intro b hb hp
    obtain ⟨-, hptr, hok⟩ := h.page b hb ((hpage b).mp hp)
    exact ⟨hlive b hb ((hpage b).mp hp), by rw [buddy_setBuddy, (hss b).1, hptr], hok⟩
  · intro b hb hp
    obtain ⟨hptr, hblank⟩ := h.other b hb (mt (hpage b).mpr hp)
    exact ⟨by rw [buddy_setBuddy, (hss b).1, hptr], hblank⟩
  · intro c hc
    obtain ⟨xs, q, hseg, hmem⟩ := h.lists c hc
    exact ⟨xs, q, hseg, fun b => by rw [hpage]; exact hmem b⟩

/-- An edit of a descriptor that keeps its links and class. -/
theorem SlabListOk.modifySlab {f : SlabT → SlabT} (h : SlabListOk a c)
    (hnext : (f (a.slabs b)).next = (a.slabs b).next)
    (hprev : (f (a.slabs b)).prev = (a.slabs b).prev)
    (htype : (f (a.slabs b)).slabType = (a.slabs b).slabType) :
    SlabListOk (a.modifySlab b f) c := by
  obtain ⟨xs, q, hseg, hmem⟩ := h
  refine ⟨xs, q, hseg.congr (fun y _ => ?_) (fun y _ => ?_), fun y => ?_⟩
  · by_cases hy : y = b
    · subst hy; simp [hnext]
    · simp [hy]
  · by_cases hy : y = b
    · subst hy; simp [hprev]
    · simp [hy]
  · rw [hmem]
    by_cases hy : y = b
    · subst hy; simp [htype, Alloc.IsPage]
    · simp [hy, Alloc.IsPage]

/-- An edit of one page's bitmap and count. -/
theorem Alloc.Ok.modifySlab {f : SlabT → SlabT} (h : a.Ok T) (hb : b < totalFrame)
    (hp : a.IsPage b) (hf : ∀ c, PageOk (a.slabs b) b c → PageOk (f (a.slabs b)) b c)
    (hnext : (f (a.slabs b)).next = (a.slabs b).next)
    (hprev : (f (a.slabs b)).prev = (a.slabs b).prev) : (a.modifySlab b f).Ok T := by
  obtain ⟨hT, hptr, c, hok⟩ := h.page b hb hp
  have htype : (f (a.slabs b)).slabType = (a.slabs b).slabType := by
    rw [(hf c hok).slabType, hok.slabType]
  constructor
  · exact h.buddy
  · intro d hd hpd
    obtain ⟨hT', hptr', c', hok'⟩ := h.page d hd hpd
    refine ⟨hT', hptr', c', ?_⟩
    by_cases hdb : d = b
    · subst hdb
      simpa using hf c' hok'
    · simpa [hdb] using hok'
  · intro d hd hpd
    have hdb : d ≠ b := by
      rintro rfl
      exact hpd hp
    obtain ⟨hptr', hblank⟩ := h.other d hd hpd
    exact ⟨hptr', by simpa [hdb] using hblank⟩
  · exact fun d hd => (h.lists d hd).modifySlab hnext hprev htype

theorem Alloc.Ok.page_live (h : a.Ok T) (hb : b < totalFrame) (hp : a.IsPage b) :
    T b = .live 0 := (h.page b hb hp).1

/-- Writing the slab fields of a descriptor that is not free. -/
theorem BuddyOk.modify_slab {s : Buddy} {g : BuddyT → BuddyT} (h : BuddyOk s T)
    (hT : ∀ k, T b ≠ .free k)
    (hg : ∀ d, (g d).status = d.status ∧ (g d).index = d.index ∧
      (g d).allocatedOrder = d.allocatedOrder) (hb : b < totalFrame) :
    BuddyOk (s.modify b g) T := by
  obtain ⟨hst, hidx, hord⟩ := hg (s.frames b)
  have htag : TagOk (g (s.frames b)) (T b) := by
    have hok := h.rep.tag b hb
    cases ht : T b <;> simp only [ht, TagOk, hst, hord] at hok ⊢ <;> exact hok
  have hrep := h.rep.modify (g := g) hT hT hidx htag
  rw [Function.update_eq_self] at hrep
  exact ⟨hrep, h.tiled, h.noBuddies, h.notHeld, h.notUninit⟩

/-! ## making a page -/

/-- The descriptors after `newSlab`: the new page, and the old head of its
list, which now has a predecessor. -/
theorem slabs_newSlab (hne : a.slabStart c ≠ some b) (j : Nat) :
    (newSlab c b a).slabs j =
      if j = b then
        { available := 0, slabType := c, slabSize := slabSize c
          startAddress := index2address b, totalSlabs := slotCount c
          freeSlabs := (slotCount c : Int) - 1
          bitmap := Function.update (fun _ => false) 0 true, next := a.slabStart c, prev := none }
      else if a.slabStart c = some j then { a.slabs j with prev := some b }
      else a.slabs j := by
  unfold newSlab takeSlot slotCount
  by_cases hj : j = b
  · subst hj
    simp [hne]
  · simp [hj]

theorem slabStart_newSlab (c b d : Nat) (a : Alloc) :
    (newSlab c b a).slabStart d = if d = c then some b else a.slabStart d := by
  simp [newSlab, takeSlot]

theorem buddy_newSlab (c b : Nat) (a : Alloc) :
    (newSlab c b a).buddy = a.buddy.modify b fun f =>
      { f with slabPtr := some b, isSlabPage := true } := by
  simp [newSlab, takeSlot]

theorem isPage_newSlab : (newSlab c b a).IsPage j ↔ j = b ∨ a.IsPage j := by
  unfold Alloc.IsPage
  rw [buddy_newSlab]
  by_cases hj : j = b <;> simp [hj]

/-- The descriptor that `newSlab` fills in. -/
theorem pageOk_newSlab {p : SlabT} (hc : c < 9) (ha : p.available = 0) (ht : p.slabType = c)
    (hs : p.slabSize = slabSize c) (hst : p.startAddress = index2address b)
    (hto : p.totalSlabs = slotCount c) (hf : p.freeSlabs = (slotCount c : Int) - 1)
    (hbm : p.bitmap = Function.update (fun _ => false) 0 true) : PageOk p b c := by
  have hcount := (class_bounds hc).2.2
  have hused : usedSlots p.bitmap (slotCount c) = 1 := by
    rw [hbm, usedSlots_set (by omega) rfl, usedSlots_none]
  constructor
  · exact hc
  · exact ha
  · exact ht
  · exact hs
  · exact hst
  · exact hto
  · rw [hf, hused]
    omega
  · omega
  · intro i hi
    rw [hbm, Function.update_of_ne (by omega)]

theorem Alloc.Ok.start_page (h : a.Ok T) (hc : c < slabType) (hs : a.slabStart c = some b) :
    b < totalFrame ∧ a.IsPage b ∧ (a.slabs b).slabType = c := by
  obtain ⟨xs, q, hseg, hmem⟩ := h.lists c hc
  rw [hs] at hseg
  exact (hmem b).mp hseg.mem_head

/-- Turning a live frame into a slab page. -/
theorem Alloc.Ok.newSlab (h : a.Ok T) (hc : c < 9) (hb : b < totalFrame) (hT : T b = .live 0)
    (hp : ¬ a.IsPage b) : (newSlab c b a).Ok T := by
  have hc' : c < RpiKernel.slabType := by unfold RpiKernel.slabType; omega
  have hne : a.slabStart c ≠ some b := fun hs => hp (h.start_page hc' hs).2.1
  have hsl := slabs_newSlab hne
  constructor
  · rw [buddy_newSlab]
    exact h.buddy.modify_slab (by simp [hT]) (by simp) hb
  · intro d hd hpd
    by_cases hdb : d = b
    · subst hdb
      refine ⟨hT, by simp [buddy_newSlab], c, ?_⟩
      rw [hsl, if_pos rfl]
      exact pageOk_newSlab hc rfl rfl rfl rfl rfl rfl rfl
    · have hpd' : a.IsPage d := by
        rw [isPage_newSlab] at hpd
        exact hpd.resolve_left hdb
      obtain ⟨hT', hptr, c', hok⟩ := h.page d hd hpd'
      refine ⟨hT', by simpa [buddy_newSlab, hdb] using hptr, c', ?_⟩
      rw [hsl, if_neg hdb]
      split_ifs
      · exact ⟨hok.1, hok.2, hok.3, hok.4, hok.5, hok.6, hok.7, hok.8, hok.9⟩
      · exact hok
  · intro d hd hpd
    rw [isPage_newSlab, not_or] at hpd
    obtain ⟨hptr, hblank⟩ := h.other d hd hpd.2
    refine ⟨by simpa [buddy_newSlab, hpd.1] using hptr, ?_⟩
    rw [hsl, if_neg hpd.1, if_neg, hblank]
    exact fun hs => hpd.2 (h.start_page hc' hs).2.1
  · intro d hd
    obtain ⟨xs, q, hseg, hmem⟩ := h.lists d hd
    have hbx : b ∉ xs := fun hx => hp ((hmem b).mp hx).2.1
    have hyb : ∀ y ∈ xs, y ≠ b := fun y hy he => hbx (he ▸ hy)
    have htype : ∀ j, j ≠ b → ((RpiKernel.newSlab c b a).slabs j).slabType =
        (a.slabs j).slabType := fun j hj => by
      rw [hsl, if_neg hj]
      split_ifs <;> rfl
    by_cases hdc : d = c
    · subst hdc
      have hpush := hseg.pushFront (x := b)
        (fun j => ((RpiKernel.newSlab d b a).slabs j).next)
        (fun j => ((RpiKernel.newSlab d b a).slabs j).prev) hbx
        (by simp [hsl]) (by simp [hsl])
        (fun y hy => by
          by_cases hs : a.slabStart d = some y <;> simp [hsl, hyb y hy, hs])
        (fun y hy => by
          by_cases hs : a.slabStart d = some y <;> simp [hsl, hyb y hy, hs])
      refine ⟨b :: xs, _, by rw [slabStart_newSlab, if_pos rfl]; exact hpush, fun j => ?_⟩
      rw [List.mem_cons, hmem, isPage_newSlab]
      by_cases hj : j = b
      · subst hj; simp [hsl, hb]
      · simp [htype j hj, hj]
    · -- the head of list `c` is not on list `d`
      have hxc : ∀ y ∈ xs, a.slabStart c ≠ some y := fun y hy he => by
        have h1 := (h.start_page hc' he).2.2
        rw [((hmem y).mp hy).2.2] at h1
        omega
      refine ⟨xs, q, ?_, fun j => ?_⟩
      · rw [slabStart_newSlab, if_neg hdc]
        refine hseg.congr (fun y hy => ?_) (fun y hy => ?_) <;> simp [hsl, hyb y hy, hxc y hy]
      · rw [hmem, isPage_newSlab]
        by_cases hj : j = b
        · subst hj
          have : (c : Int) ≠ d := by omega
          simp [hsl, hp, this]
        · rw [htype j hj]
          simp [hj]

/-! ## releasing a page -/

/-- The descriptors after a page is dropped from its list. -/
theorem SlabListOk.slabs_dropSlab (h : SlabListOk a c) (hb : b < totalFrame)
    (hp : a.IsPage b) (ht : (a.slabs b).slabType = c) (j : Nat) :
    (dropSlab b c a).slabs j =
      if j = b then .blank
      else
        let d := if (a.slabs b).prev = some j then
            { a.slabs j with next := (a.slabs b).next } else a.slabs j
        if (a.slabs b).next = some j then { d with prev := (a.slabs b).prev } else d := by
  obtain ⟨xs, q, hseg, hmem⟩ := h
  unfold dropSlab
  by_cases hhd : a.slabStart c = some b
  · rw [hhd] at hseg
    have hpb : (a.slabs b).prev = none := hseg.prev_head
    simp [hhd, hpb]
  · have hpb : (a.slabs b).prev.isSome := hseg.prev_isSome ((hmem b).mpr ⟨hb, hp, ht⟩) hhd
    simp [hhd, hpb]

theorem slabStart_dropSlab (b c d : Nat) (a : Alloc) :
    (dropSlab b c a).slabStart d =
      if d = c ∧ a.slabStart c = some b then (a.slabs b).next else a.slabStart d := by
  unfold dropSlab
  by_cases hhd : a.slabStart c = some b
  · simp [hhd]
  · by_cases hp : (a.slabs b).prev.isSome <;> simp [hhd, hp]

/-- Dropping a page does not touch the frames. -/
theorem dropSlab_setBuddy (b c : Nat) (a : Alloc) (s : Buddy) :
    dropSlab b c (a.setBuddy s) = (dropSlab b c a).setBuddy s := by
  have hmod : ∀ (a : Alloc) (p : Option Nat) (f : SlabT → SlabT),
      (a.setBuddy s).modifySlab? p f = (a.modifySlab? p f).setBuddy s := fun a p f => by
    cases p <;> rfl
  have hset : ∀ (a : Alloc) (h : Option Nat),
      (a.setBuddy s).setStart c h = (a.setStart c h).setBuddy s := fun _ _ => rfl
  have hone : ∀ (a : Alloc) (f : SlabT → SlabT),
      (a.setBuddy s).modifySlab b f = (a.modifySlab b f).setBuddy s := fun _ _ => rfl
  unfold dropSlab
  simp only [slabs_setBuddy, slabStart_setBuddy, hset, hmod, hone]
  split_ifs <;> rfl

/-- The neighbours of a page are pages of its class. -/
theorem SlabListOk.neighbour (h : SlabListOk a c) (hb : b < totalFrame) (hp : a.IsPage b)
    (ht : (a.slabs b).slabType = c) (hj : (a.slabs b).next = some j ∨ (a.slabs b).prev = some j) :
    a.IsPage j ∧ (a.slabs j).slabType = c := by
  obtain ⟨xs, q, hseg, hmem⟩ := h
  have hbx : b ∈ xs := (hmem b).mpr ⟨hb, hp, ht⟩
  cases hj with
  | inl hn => exact ((hmem j).mp (hseg.mem_next hbx hn)).2
  | inr hpr => exact ((hmem j).mp (hseg.mem_prev hbx hpr)).2

/-- Dropping a page changes the other descriptors in their links only. -/
theorem SlabListOk.sameData_dropSlab (h : SlabListOk a c) (hb : b < totalFrame) (hp : a.IsPage b)
    (ht : (a.slabs b).slabType = c) (hj : j ≠ b) :
    (a.slabs j).SameData ((dropSlab b c a).slabs j) := by
  rw [h.slabs_dropSlab hb hp ht, if_neg hj]
  dsimp only
  split_ifs <;> rfl

/-- A list after a page of class `c` is dropped. -/
theorem SlabListOk.dropSlab (h : SlabListOk a c) (hd : SlabListOk a d) (hb : b < totalFrame)
    (hp : a.IsPage b) (ht : (a.slabs b).slabType = c) :
    ∃ xs q, IsSeg (fun i => ((dropSlab b c a).slabs i).next)
        (fun i => ((dropSlab b c a).slabs i).prev) none ((dropSlab b c a).slabStart d) xs q none ∧
      ∀ j, j ∈ xs ↔ j ≠ b ∧ j < totalFrame ∧ a.IsPage j ∧ (a.slabs j).slabType = d := by
  have hsl := h.slabs_dropSlab hb hp ht
  obtain ⟨xs, q, hseg, hmem⟩ := hd
  by_cases hdc : d = c
  · subst hdc
    have hbx : b ∈ xs := (hmem b).mpr ⟨hb, hp, ht⟩
    have hs' := hseg.erase (fun j => ((RpiKernel.dropSlab b d a).slabs j).next)
      (fun j => ((RpiKernel.dropSlab b d a).slabs j).prev) hbx
      (fun y _ hy => by
        rw [hsl, if_neg hy]
        by_cases h1 : (a.slabs b).prev = some y <;>
          by_cases h2 : (a.slabs b).next = some y <;> simp [h1, h2])
      (fun y _ hy => by
        rw [hsl, if_neg hy]
        by_cases h1 : (a.slabs b).prev = some y <;>
          by_cases h2 : (a.slabs b).next = some y <;> simp [h1, h2])
    refine ⟨xs.erase b, if q = some b then (a.slabs b).prev else q, ?_,
      fun j => by rw [hseg.nodup.mem_erase_iff, hmem]⟩
    rw [slabStart_dropSlab]
    simpa using hs'
  · have hne : ∀ y ∈ xs, y ≠ b ∧ (a.slabs b).next ≠ some y ∧ (a.slabs b).prev ≠ some y :=
      fun y hy => by
        have hyt := ((hmem y).mp hy).2.2
        refine ⟨fun he => ?_, fun he => ?_, fun he => ?_⟩
        · rw [he, ht] at hyt
          omega
        · have := (h.neighbour hb hp ht (Or.inl he)).2
          omega
        · have := (h.neighbour hb hp ht (Or.inr he)).2
          omega
    refine ⟨xs, q, ?_, fun j => ?_⟩
    · rw [slabStart_dropSlab, if_neg (fun he => hdc he.1)]
      refine hseg.congr (fun y hy => ?_) (fun y hy => ?_) <;>
        simp [hsl, (hne y hy).1, (hne y hy).2.1, (hne y hy).2.2]
    · rw [hmem]
      constructor
      · intro hj
        refine ⟨fun he => ?_, hj⟩
        have := hj.2.2
        rw [he, ht] at this
        omega
      · exact fun hj => hj.2

/-- Releasing a page whose last slot has just been cleared. -/
theorem Alloc.Ok.releaseSlab {f : SlabT → SlabT} (h : a.Ok T) (hb : b < totalFrame)
    (hp : a.IsPage b) (hnext : (f (a.slabs b)).next = (a.slabs b).next)
    (hprev : (f (a.slabs b)).prev = (a.slabs b).prev)
    (htype : (f (a.slabs b)).slabType = (a.slabs b).slabType)
    (hstart : (f (a.slabs b)).startAddress = (a.slabs b).startAddress)
    (haddr : toInt32 (address2index (index2address b)) = b) :
    ∃ a' T', releaseSlab b (a.modifySlab b f) = some a' ∧ a'.Ok T' ∧ Loses T T' b ∧
      (∀ j, a'.IsPage j ↔ j ≠ b ∧ a.IsPage j) ∧
      ∀ j, j ≠ b → (a.slabs j).SameData (a'.slabs j) := by
  obtain ⟨hT, hptr, c, hok⟩ := h.page b hb hp
  have hc : c < RpiKernel.slabType := by
    have := hok.class_lt
    unfold RpiKernel.slabType
    omega
  -- the page-frame allocator takes the frame back
  have hmod : BuddyOk (a.buddy.modify b fun f => { f with slabPtr := none, isSlabPage := false }) T :=
    h.buddy.modify_slab (by simp [hT]) (by simp) hb
  obtain ⟨T', hT', hloses⟩ := hmod.buddyFree_live hb hT
  have hss := sameSlab_buddyFree b
    (a.buddy.modify b fun f => { f with slabPtr := none, isSlabPage := false })
  -- and the page leaves its list
  have hlists : ∀ d < RpiKernel.slabType, SlabListOk (a.modifySlab b f) d := fun d hd =>
    (h.lists d hd).modifySlab hnext hprev htype
  have hp2 : (a.modifySlab b f).IsPage b := hp
  have ht2 : ((a.modifySlab b f).slabs b).slabType = c := by simp [htype, hok.slabType]
  have hsame : ∀ j, j ≠ b → (a.slabs j).SameData
      ((RpiKernel.dropSlab b c (a.modifySlab b f)).slabs j) := fun j hj => by
    have := (hlists c hc).sameData_dropSlab hb hp2 ht2 hj
    simpa [hj] using this
  have hrel : RpiKernel.releaseSlab b (a.modifySlab b f) =
      some (RpiKernel.dropSlab b c ((a.modifySlab b f).setBuddy (buddyFree b
        (a.buddy.modify b fun f => { f with slabPtr := none, isSlabPage := false })))) := by
    unfold RpiKernel.releaseSlab
    have hst : ((a.modifySlab b f).slabs b).startAddress = index2address b := by
      simp [hstart, hok.startAddress]
    rw [hst, ht2]
    dsimp only
    rw [haddr, if_pos ⟨by omega, by omega, by omega, by omega⟩]
    simp
  rw [dropSlab_setBuddy] at hrel
  have hpage : ∀ j, ((RpiKernel.dropSlab b c (a.modifySlab b f)).setBuddy (buddyFree b
      (a.buddy.modify b fun f => { f with slabPtr := none, isSlabPage := false }))).IsPage j ↔
      j ≠ b ∧ a.IsPage j := fun j => by
    unfold IsPage
    rw [buddy_setBuddy, (hss j).2]
    by_cases hj : j = b <;> simp [hj]
  refine ⟨_, T', hrel, ?_, hloses, hpage, hsame⟩
  constructor
  · exact hT'
  · intro j hj hpj
    obtain ⟨hjb, hpj'⟩ := (hpage j).mp hpj
    obtain ⟨hTj, hptrj, d, hokj⟩ := h.page j hj hpj'
    refine ⟨(hloses.live j 0).mpr ⟨hTj, hjb⟩, ?_, d, hokj.sameData (hsame j hjb)⟩
    rw [buddy_setBuddy, (hss j).1]
    simpa [hjb] using hptrj
  · intro j hj hpj
    rw [hpage, not_and] at hpj
    by_cases hjb : j = b
    · subst hjb
      refine ⟨by rw [buddy_setBuddy, (hss j).1]; simp, ?_⟩
      rw [slabs_setBuddy, (hlists c hc).slabs_dropSlab hb hp2 ht2, if_pos rfl]
    · obtain ⟨hptrj, hblank⟩ := h.other j hj (hpj hjb)
      refine ⟨by rw [buddy_setBuddy, (hss j).1]; simpa [hjb] using hptrj, ?_⟩
      have hnn : ∀ q, q = ((a.modifySlab b f).slabs b).next ∨
          q = ((a.modifySlab b f).slabs b).prev → q ≠ some j := fun q hq hqj => by
        rw [hqj] at hq
        exact hpj hjb ((hlists c hc).neighbour hb hp2 ht2
          (hq.imp (fun he => he.symm) (fun he => he.symm))).1
      rw [slabs_setBuddy, (hlists c hc).slabs_dropSlab hb hp2 ht2, if_neg hjb]
      dsimp only
      rw [if_neg (hnn _ (Or.inl rfl)), if_neg (hnn _ (Or.inr rfl))]
      simpa [hjb] using hblank
  · intro d hd
    obtain ⟨xs, q, hseg, hmem⟩ := (hlists c hc).dropSlab (hlists d hd) hb hp2 ht2
    refine ⟨xs, q, hseg, fun j => ?_⟩
    rw [hmem, hpage]
    by_cases hjb : j = b
    · simp [hjb]
    · have htj : ((RpiKernel.dropSlab b c (a.modifySlab b f)).slabs j).slabType =
          (a.slabs j).slabType := by rw [hsame j hjb]
      simp [hjb, htj, IsPage]

end RpiKernel
