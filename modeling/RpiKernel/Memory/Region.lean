import RpiKernel.Memory.SlabInv

/-!
# RpiKernel.Memory.Region

The live allocations of the allocator.  An `Entry` is a live block that is
no slab page, or an occupied slot of a slab page; `Alloc.Region a p n` says
that the allocator holds `n` bytes at the address `p` for somebody.  Under
the invariant entries are disjoint, lie in the managed frames and avoid the
reserved ones.
-/

namespace RpiKernel

open Dyadic Dlist Alloc

variable {a a' : Alloc} {T T' : Nat → Tag} {b c d i j k n m p q x : Nat}

/-! ## entries -/

/-- A live block of order `k`, or slot `i` of a page of class `c`. -/
inductive Entry where
  | block (b k : Nat)
  | slot (b c i : Nat)

/-- Where the memory of an entry starts, counted from the start of the
managed memory. -/
def Entry.offset : Entry → Nat
  | .block b _ => b * frameSize
  | .slot b c i => b * frameSize + i * slabSize c

def Entry.size : Entry → Nat
  | .block _ k => 2 ^ k * frameSize
  | .slot _ c _ => slabSize c

/-- The frames around an entry: a whole block, or the frame of its page. -/
def Entry.order : Entry → Nat
  | .block _ k => k
  | .slot .. => 0

def Entry.frame : Entry → Nat
  | .block b _ => b
  | .slot b _ _ => b

/-- The entry is live. -/
def Alloc.Has (a : Alloc) (T : Nat → Tag) : Entry → Prop
  | .block b k => b < totalFrame ∧ T b = .live k ∧ ¬ a.IsPage b
  | .slot b c i => b < totalFrame ∧ a.IsPage b ∧ (a.slabs b).slabType = c ∧ i < slotCount c ∧
      (a.slabs b).bitmap i = true

variable {e e' : Entry}

theorem Alloc.Ok.class_of_page (h : a.Ok T) (hb : b < totalFrame) (hp : a.IsPage b)
    (ht : (a.slabs b).slabType = c) : PageOk (a.slabs b) b c := by
  obtain ⟨-, -, d, hok⟩ := h.page b hb hp
  have hdc : (d : Int) = c := hok.slabType.symm.trans ht
  obtain rfl : d = c := by omega
  exact hok

/-- The frame of an entry is the head of a live block around it. -/
theorem Alloc.Ok.entry_live (h : a.Ok T) (he : a.Has T e) :
    e.frame < totalFrame ∧ T e.frame = .live e.order := by
  cases e with
  | block b k => exact ⟨he.1, he.2.1⟩
  | slot b c i => exact ⟨he.1, h.page_live he.1 he.2.1⟩

theorem slot_inside (hc : c < 9) (hi : i < slotCount c) :
    i * slabSize c + slabSize c ≤ frameSize := by
  have hcount := (class_bounds hc).2.1
  have hle : (i + 1) * slabSize c ≤ slotCount c * slabSize c := Nat.mul_le_mul_right _ hi
  rw [hcount, Nat.add_mul, Nat.one_mul] at hle
  exact hle

/-- An entry lies in the frames around it. -/
theorem Alloc.Ok.entry_inside (h : a.Ok T) (he : a.Has T e) :
    0 < e.size ∧ e.frame * frameSize ≤ e.offset ∧
      e.offset + e.size ≤ (e.frame + 2 ^ e.order) * frameSize := by
  cases e with
  | block b k =>
      have hpos := Nat.two_pow_pos k
      have hfs : 0 < frameSize := by decide
      refine ⟨Nat.mul_pos hpos hfs, le_refl _, ?_⟩
      simp only [Entry.offset, Entry.size, Entry.frame, Entry.order]
      rw [Nat.add_mul]
  | slot b c i =>
      obtain ⟨hb, hp, ht, hi, -⟩ := he
      have hc := (h.class_of_page hb hp ht).class_lt
      have hin := slot_inside hc hi
      have hpos := (class_bounds hc).1
      simp only [Entry.offset, Entry.size, Entry.frame, Entry.order]
      refine ⟨hpos, Nat.le_add_right _ _, ?_⟩
      rw [Nat.add_mul, pow_zero, Nat.one_mul]
      omega

/-- The frame of each byte of an entry lies in the block around it. -/
theorem Alloc.Ok.entry_mem (h : a.Ok T) (he : a.Has T e) (hlo : e.offset ≤ x)
    (hhi : x < e.offset + e.size) : Mem (x / frameSize) e.frame e.order := by
  obtain ⟨-, h1, h2⟩ := h.entry_inside he
  have hfs : 0 < frameSize := by decide
  constructor
  · exact (Nat.le_div_iff_mul_le hfs).mpr (by omega)
  · exact (Nat.div_lt_iff_lt_mul hfs).mpr (by omega)

/-- Two entries that share a byte are the same. -/
theorem Alloc.Ok.entry_unique (h : a.Ok T) (he : a.Has T e) (he' : a.Has T e')
    (hlo : e.offset ≤ x) (hhi : x < e.offset + e.size)
    (hlo' : e'.offset ≤ x) (hhi' : x < e'.offset + e'.size) : e = e' := by
  obtain ⟨hb, hT⟩ := h.entry_live he
  obtain ⟨hb', hT'⟩ := h.entry_live he'
  have hframe : e.frame = e'.frame := h.buddy.tiled.eq_of_mem hb hb' (by rw [hT]; rfl)
    (by rw [hT']; rfl) (h.entry_mem he hlo hhi) (h.entry_mem he' hlo' hhi')
  cases e with
  | block b k =>
      cases e' with
      | block b' k' =>
          simp only [Entry.frame] at hframe
          subst hframe
          have hkk : Tag.live k = Tag.live k' := he.2.1.symm.trans he'.2.1
          rw [Tag.live.inj hkk]
      | slot b' c' i' =>
          simp only [Entry.frame] at hframe
          subst hframe
          exact absurd he'.2.1 he.2.2
  | slot b c i =>
      cases e' with
      | block b' k' =>
          simp only [Entry.frame] at hframe
          subst hframe
          exact absurd he.2.1 he'.2.2
      | slot b' c' i' =>
          simp only [Entry.frame] at hframe
          subst hframe
          obtain ⟨-, hp, ht, hi, -⟩ := he
          obtain ⟨-, -, ht', hi', -⟩ := he'
          have hcc : (c : Int) = c' := ht.symm.trans ht'
          obtain rfl : c = c' := by omega
          have hpos := (class_bounds (h.class_of_page hb hp ht).class_lt).1
          simp only [Entry.offset, Entry.size] at hlo hhi hlo' hhi'
          -- both slots contain the same offset of the page
          have hii : i = i' := by
            by_contra hne
            cases Nat.lt_or_gt_of_ne hne with
            | inl hlt =>
                have : (i + 1) * slabSize c ≤ i' * slabSize c := Nat.mul_le_mul_right _ hlt
                rw [Nat.add_mul, Nat.one_mul] at this
                omega
            | inr hgt =>
                have : (i' + 1) * slabSize c ≤ i * slabSize c := Nat.mul_le_mul_right _ hgt
                rw [Nat.add_mul, Nat.one_mul] at this
                omega
          rw [hii]

/-! ## regions -/

/-- A live block of `kmalloc` that is not a slab page. -/
def Alloc.BlockRegion (a : Alloc) (p n : Nat) : Prop :=
  ∃ b k : Nat, b < totalFrame ∧ (a.buddy.frames b).status = allocatedFrame ∧
    (a.buddy.frames b).allocatedOrder = (k : Int) ∧ ¬ a.IsPage b ∧
    p = index2address b ∧ n = 2 ^ k * frameSize

/-- A slot of a slab page whose bit is set. -/
def Alloc.SlotRegion (a : Alloc) (p n : Nat) : Prop :=
  ∃ b i : Nat, b < totalFrame ∧ a.IsPage b ∧ (i : Int) < (a.slabs b).totalSlabs ∧
    (a.slabs b).bitmap i = true ∧
    p = (a.slabs b).startAddress + i * (a.slabs b).slabSize.toNat ∧
    n = (a.slabs b).slabSize.toNat

/-- The allocator holds `n` bytes at `p`. -/
def Alloc.Region (a : Alloc) (p n : Nat) : Prop := a.BlockRegion p n ∨ a.SlotRegion p n

theorem Alloc.Ok.block_iff (h : a.Ok T) : a.BlockRegion p n ↔
    ∃ b k, a.Has T (.block b k) ∧ p = buddyMemoryBase + (Entry.block b k).offset ∧
      n = (Entry.block b k).size := by
  constructor
  · rintro ⟨b, k, hb, hst, hord, hp, rfl, rfl⟩
    obtain ⟨l, hl⟩ := (h.buddy.rep.allocated_iff hb (h.buddy.notHeld b hb)).mp hst
    have htag := h.buddy.rep.tag b hb
    rw [hl] at htag
    have hlk : (l : Int) = k := htag.2.symm.trans hord
    obtain rfl : l = k := by omega
    exact ⟨b, l, ⟨hb, hl, hp⟩, index2address_of_lt hb, rfl⟩
  · rintro ⟨b, k, ⟨hb, hT, hp⟩, rfl, rfl⟩
    have htag := h.buddy.rep.tag b hb
    rw [hT] at htag
    exact ⟨b, k, hb, htag.1, htag.2, hp, (index2address_of_lt hb).symm, rfl⟩

theorem Alloc.Ok.slot_iff (h : a.Ok T) : a.SlotRegion p n ↔
    ∃ b c i, a.Has T (.slot b c i) ∧ p = buddyMemoryBase + (Entry.slot b c i).offset ∧
      n = (Entry.slot b c i).size := by
  constructor
  · rintro ⟨b, i, hb, hp, hi, hbit, rfl, rfl⟩
    obtain ⟨-, -, c, hok⟩ := h.page b hb hp
    have hsz : (a.slabs b).slabSize.toNat = slabSize c := by rw [hok.slabSize]; simp
    have hi' : i < slotCount c := by
      have := hok.totalSlabs
      omega
    refine ⟨b, c, i, ⟨hb, hp, hok.slabType, hi', hbit⟩, ?_, hsz⟩
    rw [hok.startAddress, hsz, index2address_of_lt hb, Nat.add_assoc]
    rfl
  · rintro ⟨b, c, i, ⟨hb, hp, ht, hi, hbit⟩, rfl, rfl⟩
    have hok := h.class_of_page hb hp ht
    have hsz : (a.slabs b).slabSize.toNat = slabSize c := by rw [hok.slabSize]; simp
    refine ⟨b, i, hb, hp, by rw [hok.totalSlabs]; omega, hbit, ?_, hsz.symm⟩
    rw [hok.startAddress, hsz, index2address_of_lt hb, Nat.add_assoc]
    rfl

/-- The regions are the entries, by address and size. -/
theorem Alloc.Ok.region_iff (h : a.Ok T) : a.Region p n ↔
    ∃ e, a.Has T e ∧ p = buddyMemoryBase + e.offset ∧ n = e.size := by
  unfold Region
  rw [h.block_iff, h.slot_iff]
  constructor
  · intro hr
    cases hr with
    | inl hr => obtain ⟨b, k, hr⟩ := hr; exact ⟨_, hr⟩
    | inr hr => obtain ⟨b, c, i, hr⟩ := hr; exact ⟨_, hr⟩
  · rintro ⟨e, hr⟩
    cases e with
    | block b k => exact Or.inl ⟨b, k, hr⟩
    | slot b c i => exact Or.inr ⟨b, c, i, hr⟩

/-- Two regions at different addresses do not overlap. -/
theorem Alloc.Ok.region_disjoint (h : a.Ok T) (hp : a.Region p n) (hq : a.Region q m)
    (hpq : p ≠ q) : p + n ≤ q ∨ q + m ≤ p := by
  obtain ⟨e, he, rfl, rfl⟩ := h.region_iff.mp hp
  obtain ⟨e', he', rfl, rfl⟩ := h.region_iff.mp hq
  by_contra hover
  have hsz := (h.entry_inside he).1
  have hsz' := (h.entry_inside he').1
  have heq : e = e' := by
    by_cases hle : e.offset ≤ e'.offset
    · exact h.entry_unique (x := e'.offset) he he' hle (by omega) le_rfl (by omega)
    · exact h.entry_unique (x := e.offset) he he' le_rfl (by omega) (by omega) (by omega)
  exact hpq (by rw [heq])

/-- A region is determined by its address. -/
theorem Alloc.Ok.region_size (h : a.Ok T) (hn : a.Region p n) (hm : a.Region p m) : n = m := by
  obtain ⟨e, he, rfl, rfl⟩ := h.region_iff.mp hn
  obtain ⟨e', he', hoff, rfl⟩ := h.region_iff.mp hm
  have hsz := (h.entry_inside he).1
  have hsz' := (h.entry_inside he').1
  have heq : e = e' :=
    h.entry_unique (x := e.offset) he he' le_rfl (by omega) (by omega) (by omega)
  rw [heq]

/-- A region lies in the managed frames and avoids the reserved ones. -/
theorem Alloc.Ok.region_managed (h : a.Ok T) (hp : a.Region p n) :
    0 < n ∧ buddyMemoryBase ≤ p ∧ p + n ≤ buddyMemoryBase + memorySize ∧
      ∀ x, p ≤ buddyMemoryBase + x → buddyMemoryBase + x < p + n →
        (a.buddy.frames (x / frameSize)).status ≠ reservedFrame := by
  obtain ⟨e, he, rfl, rfl⟩ := h.region_iff.mp hp
  obtain ⟨hsz, h1, h2⟩ := h.entry_inside he
  obtain ⟨hb, hT⟩ := h.entry_live he
  have hord : (T e.frame).order? = some e.order := by rw [hT]; rfl
  have hle := (h.buddy.tiled.block _ hb _ hord).2.1
  have hend : (e.frame + 2 ^ e.order) * frameSize ≤ memorySize := Nat.mul_le_mul_right _ hle
  refine ⟨hsz, Nat.le_add_right _ _, by omega, fun x hlo hhi hres => ?_⟩
  have hmem := h.entry_mem (x := x) he (by omega) (by omega)
  have hlt := h.buddy.tiled.mem_lt hb hord hmem
  exact h.buddy.tiled.not_reserved hb hord hmem ((h.buddy.reserved_iff hlt).mp hres)

/-- What an allocation does to the regions. -/
structure Alloc.Adds (a a' : Alloc) (p n : Nat) : Prop where
  fresh : ∀ m, ¬ a.Region p m
  region : ∀ q m, a'.Region q m ↔ a.Region q m ∨ (q = p ∧ m = n)

/-- What a release does to the regions. -/
def Alloc.Removes (a a' : Alloc) (p : Nat) : Prop :=
  ∀ q m, a'.Region q m ↔ a.Region q m ∧ q ≠ p

theorem Alloc.Ok.adds (h : a.Ok T) (h' : a'.Ok T') (hnot : ¬ a.Has T e)
    (hhas : ∀ e', a'.Has T' e' ↔ a.Has T e' ∨ e' = e) :
    a.Adds a' (buddyMemoryBase + e.offset) e.size := by
  have hnew : a'.Has T' e := (hhas e).mpr (Or.inr rfl)
  constructor
  · intro m hm
    obtain ⟨e', he', hoff, -⟩ := h.region_iff.mp hm
    have hold : a'.Has T' e' := (hhas e').mpr (Or.inl he')
    have hsz := (h'.entry_inside hnew).1
    have hsz' := (h'.entry_inside hold).1
    have heq : e = e' :=
      h'.entry_unique (x := e.offset) hnew hold le_rfl (by omega) (by omega) (by omega)
    exact hnot (heq ▸ he')
  · intro q m
    rw [h.region_iff, h'.region_iff]
    constructor
    · rintro ⟨e', he', hq, hm⟩
      cases (hhas e').mp he' with
      | inl hold => exact Or.inl ⟨e', hold, hq, hm⟩
      | inr heq => subst heq; exact Or.inr ⟨hq, hm⟩
    · intro hr
      cases hr with
      | inl hr =>
          obtain ⟨e', he', hr⟩ := hr
          exact ⟨e', (hhas e').mpr (Or.inl he'), hr⟩
      | inr hr => exact ⟨e, hnew, hr.1, hr.2⟩

theorem Alloc.Ok.removes (h : a.Ok T) (h' : a'.Ok T') (he : a.Has T e)
    (hhas : ∀ e', a'.Has T' e' ↔ a.Has T e' ∧ e' ≠ e) :
    a.Removes a' (buddyMemoryBase + e.offset) := by
  intro q m
  rw [h.region_iff, h'.region_iff]
  have hsz := (h.entry_inside he).1
  constructor
  · rintro ⟨e', he', rfl, rfl⟩
    obtain ⟨hold, hne⟩ := (hhas e').mp he'
    refine ⟨⟨e', hold, rfl, rfl⟩, fun hoff => hne ?_⟩
    have hsz' := (h.entry_inside hold).1
    exact h.entry_unique (x := e.offset) hold he (by omega) (by omega) le_rfl (by omega)
  · rintro ⟨⟨e', he', rfl, rfl⟩, hne⟩
    exact ⟨e', (hhas e').mpr ⟨he', fun heq => hne (by rw [heq])⟩, rfl, rfl⟩

end RpiKernel
