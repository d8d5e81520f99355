import RpiKernel.Lib.Words

/-!
# RpiKernel.Boot.StartupAllocator

The allocator that the kernel starts with, `s_allocator`, over any run of requests.

A block begins `0x10` behind `htop_ptr`, where its header has been, but `htop_ptr` only goes on by the size
rounded down to a multiple of `0x10`, and one header.  That is enough for the blocks themselves
(`sAllocatorAll_disjoint`), and for the next header just when the size is at most 8 above a
multiple (`sAllocatorAll_apart_iff`).
-/

namespace RpiKernel

open Bytes

/-! ## the code -/

/-- `htop_ptr`, and memory. -/
structure StartupHeap where
  htopPtr : Nat
  mem : Nat → UInt8

/-- `s_allocator`: the pointer returned, and the heap. -/
def sAllocator (size : Nat) (h : StartupHeap) : Nat × StartupHeap :=
  let r := (h.htopPtr + 0x10) % 2 ^ 64
  let size := (0x10 + size - size % 0x10) % 2 ^ 32
  let mem := storeBytes ((r + (2 ^ 64 - 0x8)) % 2 ^ 64) (le32 size) h.mem
  (r, { htopPtr := (h.htopPtr + size) % 2 ^ 64, mem := mem })

/-- What a request got: the pointer returned, and the size asked for. -/
structure StartupBlock where
  r : Nat
  size : Nat

/-- Requests, one after the other. -/
def sAllocatorAll : List Nat → StartupHeap → List StartupBlock × StartupHeap
  | [], h => ([], h)
  | size :: sizes, h =>
      let (r, h) := sAllocator size h
      let (blocks, h) := sAllocatorAll sizes h
      (⟨r, size⟩ :: blocks, h)

/-- The requests of `init_allocator`: `buddy_frame_array`, `free_frame_lists`, `slab_frame_array`
and `slab_start_list`. -/
def initAllocatorSizes : List Nat := [48 * 0x3C000, 8 * (20 + 1), 112 * 0x3C000, 8 * 10]

namespace StartupBlock

/-- The region `[r, r + size)`. -/
def Covers (b : StartupBlock) (a : Nat) : Prop := b.r ≤ a ∧ a < b.r + b.size

/-- The bytes of the header word, at `r - 8`. -/
def Header (b : StartupBlock) (a : Nat) : Prop :=
  (b.r + (2 ^ 64 - 0x8)) % 2 ^ 64 ≤ a ∧ a < (b.r + (2 ^ 64 - 0x8)) % 2 ^ 64 + 4

/-- Two blocks have no byte in common. -/
def Disjoint (b c : StartupBlock) : Prop := ∀ a, b.Covers a → ¬ c.Covers a

/-- A block, and one that is returned later: neither the block nor the header of the later one
reaches into the earlier. -/
def Apart (b c : StartupBlock) : Prop := b.Disjoint c ∧ ∀ a, b.Covers a → ¬ c.Header a

end StartupBlock

/-- Every block that is asked for ends inside of the address space. -/
def InAddressSpace : Nat → List Nat → Prop
  | _, [] => True
  | htop, size :: sizes =>
      htop + 0x10 + size ≤ 2 ^ 64 ∧ InAddressSpace (htop + (0x10 + size - size % 0x10)) sizes

/-! ## one request -/

variable {size : Nat} {sizes : List Nat} {h : StartupHeap}

/-- After a request, for those behind it. -/
theorem sAllocator_next (hsizes : ∀ size' ∈ size :: sizes, size' < 2 ^ 32 - 0x10)
    (hfit : InAddressSpace h.htopPtr (size :: sizes)) (hne : sizes ≠ []) :
    (sAllocator size h).2.htopPtr = h.htopPtr + (0x10 + size - size % 0x10) ∧
      (∀ size' ∈ sizes, size' < 2 ^ 32 - 0x10) ∧ InAddressSpace (sAllocator size h).2.htopPtr sizes := by
  obtain ⟨hsize, hsizes⟩ := List.forall_mem_cons.1 hsizes
  have htop : (sAllocator size h).2.htopPtr = h.htopPtr + (0x10 + size - size % 0x10) := by
    obtain ⟨next, sizes, rfl⟩ := List.exists_cons_of_ne_nil hne
    have hnext := hfit.2.1
    simp only [sAllocator]
    rw [Nat.mod_eq_of_lt (show 0x10 + size - size % 0x10 < 2 ^ 32 by omega), Nat.mod_eq_of_lt (by omega)]
  exact ⟨htop, hsizes, htop ▸ hfit.2⟩

/-- The block of a request. -/
theorem sAllocator_covers (hfit : h.htopPtr + 0x10 + size ≤ 2 ^ 64) (a : Nat) :
    StartupBlock.Covers ⟨(sAllocator size h).1, size⟩ a ↔
      h.htopPtr + 0x10 ≤ a ∧ a < h.htopPtr + 0x10 + size := by
  simp only [StartupBlock.Covers, sAllocator]
  -- an empty block may stand at the very end, where its pointer is 0
  rcases Nat.lt_or_ge (h.htopPtr + 0x10) (2 ^ 64) with hlt | hge
  · rw [Nat.mod_eq_of_lt hlt]
  · omega

/-- The header of a request. -/
theorem sAllocator_header (hfit : h.htopPtr + 0x10 + size ≤ 2 ^ 64) (a : Nat) :
    StartupBlock.Header ⟨(sAllocator size h).1, size⟩ a ↔ h.htopPtr + 8 ≤ a ∧ a < h.htopPtr + 12 := by
  simp only [StartupBlock.Header, sAllocator]
  omega

/-! ## a run of requests -/

theorem ne_nil_of_mem_blocks {c : StartupBlock} (hc : c ∈ (sAllocatorAll sizes h).1) : sizes ≠ [] := by
  rintro rfl
  simp [sAllocatorAll] at hc

/-- All blocks and headers lie behind `htop_ptr`. -/
theorem sAllocatorAll_behind (hsizes : ∀ size ∈ sizes, size < 2 ^ 32 - 0x10)
    (hfit : InAddressSpace h.htopPtr sizes) {c : StartupBlock} (hc : c ∈ (sAllocatorAll sizes h).1) :
    (∀ a, c.Covers a → h.htopPtr + 0x10 ≤ a) ∧ ∀ a, c.Header a → h.htopPtr + 8 ≤ a := by
  induction sizes generalizing h with
  | nil => simp [sAllocatorAll] at hc
  | cons size sizes ih =>
      simp only [sAllocatorAll, List.mem_cons] at hc
      cases hc with
      | inl hc =>
          subst hc
          simp only [sAllocator_covers hfit.1, sAllocator_header hfit.1]
          exact ⟨fun a ha => ha.1, fun a ha => ha.1⟩
      | inr hc =>
          obtain ⟨htop, hsizes, hfit⟩ := sAllocator_next hsizes hfit (ne_nil_of_mem_blocks hc)
          have hlater := ih hsizes hfit hc
          rw [htop] at hlater
          exact ⟨fun a ha => by have := hlater.1 a ha; omega, fun a ha => by have := hlater.2 a ha; omega⟩

/-- All blocks lie in front of where the sizes and headers add up to. -/
theorem sAllocatorAll_ends (hsizes : ∀ size ∈ sizes, size < 2 ^ 32 - 0x10)
    (hfit : InAddressSpace h.htopPtr sizes) {c : StartupBlock} (hc : c ∈ (sAllocatorAll sizes h).1) {a : Nat}
    (ha : c.Covers a) : a < h.htopPtr + (sizes.map (0x10 + ·)).sum := by
  induction sizes generalizing h with
  | nil => simp [sAllocatorAll] at hc
  | cons size sizes ih =>
      rw [List.map_cons, List.sum_cons]
      simp only [sAllocatorAll, List.mem_cons] at hc
      cases hc with
      | inl hc =>
          subst hc
          have hend := ((sAllocator_covers hfit.1 a).1 ha).2
          omega
      | inr hc =>
          obtain ⟨htop, hsizes, hfit⟩ := sAllocator_next hsizes hfit (ne_nil_of_mem_blocks hc)
          have hlater := ih hsizes hfit hc
          rw [htop] at hlater
          omega

/-- A block and the blocks of the requests behind it. -/
theorem sAllocator_later (hsizes : ∀ size' ∈ size :: sizes, size' < 2 ^ 32 - 0x10)
    (hfit : InAddressSpace h.htopPtr (size :: sizes)) {c : StartupBlock}
    (hc : c ∈ (sAllocatorAll sizes (sAllocator size h).2).1) :
    StartupBlock.Disjoint ⟨(sAllocator size h).1, size⟩ c ∧
      (size % 0x10 ≤ 8 → StartupBlock.Apart ⟨(sAllocator size h).1, size⟩ c) := by
  obtain ⟨htop, hsizes, hrest⟩ := sAllocator_next hsizes hfit (ne_nil_of_mem_blocks hc)
  have hlater := sAllocatorAll_behind hsizes hrest hc
  rw [htop] at hlater
  have hdisjoint : StartupBlock.Disjoint ⟨(sAllocator size h).1, size⟩ c := by
    intro a ha hca
    have hb := (sAllocator_covers hfit.1 a).1 ha
    have hle := hlater.1 a hca
    omega
  refine ⟨hdisjoint, fun hmod => ⟨hdisjoint, fun a ha hca => ?_⟩⟩
  have hb := (sAllocator_covers hfit.1 a).1 ha
  have hle := hlater.2 a hca
  omega

/-- The next header is inside of a block whose size is more than 8 above a multiple of `0x10`. -/
theorem sAllocator_apart {next : Nat} (hsizes : ∀ size' ∈ size :: next :: sizes, size' < 2 ^ 32 - 0x10)
    (hfit : InAddressSpace h.htopPtr (size :: next :: sizes))
    (hapart : StartupBlock.Apart ⟨(sAllocator size h).1, size⟩
      ⟨(sAllocator next (sAllocator size h).2).1, next⟩) : size % 0x10 ≤ 8 := by
  by_contra hmod
  obtain ⟨htop, -, hrest⟩ := sAllocator_next hsizes hfit (List.cons_ne_nil _ _)
  refine hapart.2 (h.htopPtr + (0x10 + size - size % 0x10) + 8) ?_ ?_
  · rw [sAllocator_covers hfit.1]
    omega
  · rw [sAllocator_header hrest.1, htop]
    omega

/-- **Blocks do not overlap**, whatever the sizes are. -/
theorem sAllocatorAll_disjoint (hsizes : ∀ size ∈ sizes, size < 2 ^ 32 - 0x10)
    (hfit : InAddressSpace h.htopPtr sizes) : (sAllocatorAll sizes h).1.Pairwise StartupBlock.Disjoint := by
  induction sizes generalizing h with
  | nil => exact List.Pairwise.nil
  | cons size sizes ih =>
      refine List.pairwise_cons.2 ⟨fun c hc => (sAllocator_later hsizes hfit hc).1, ?_⟩
      cases sizes with
      | nil => exact List.Pairwise.nil
      | cons next sizes =>
          obtain ⟨-, hsizes, hrest⟩ := sAllocator_next hsizes hfit (List.cons_ne_nil _ _)
          exact ih hsizes hrest

/-- **Headers of later requests.**  No later header falls inside of a block, and no later block
does, if and only if all sizes but the last are at most 8 above a multiple of `0x10`. -/
theorem sAllocatorAll_apart_iff (hsizes : ∀ size ∈ sizes, size < 2 ^ 32 - 0x10)
    (hfit : InAddressSpace h.htopPtr sizes) :
    (sAllocatorAll sizes h).1.Pairwise StartupBlock.Apart ↔ ∀ size ∈ sizes.dropLast, size % 0x10 ≤ 8 := by
  induction sizes generalizing h with
  | nil => simp [sAllocatorAll]
  | cons size sizes ih =>
      cases sizes with
      | nil => simp [sAllocatorAll]
      | cons next sizes =>
          obtain ⟨-, hlater, hrest⟩ := sAllocator_next hsizes hfit (List.cons_ne_nil _ _)
          rw [List.dropLast_cons_of_ne_nil (List.cons_ne_nil _ _), List.forall_mem_cons, ← ih hlater hrest]
          refine List.pairwise_cons.trans (and_congr_left fun _ => ⟨fun hall => ?_, fun hmod c hc => ?_⟩)
          · exact sAllocator_apart hsizes hfit (hall _ (List.mem_cons_self ..))
          · exact (sAllocator_later hsizes hfit hc).2 hmod

/-- The requests of `init_allocator` fit. -/
theorem initAllocatorSizes_apart :
    (sAllocatorAll initAllocatorSizes ⟨0xffff000000100000, fun _ => 0⟩).1.Pairwise StartupBlock.Apart :=
  (sAllocatorAll_apart_iff (by decide) (by simp [initAllocatorSizes, InAddressSpace])).2 (by decide)

/-- **Two requests of twelve bytes**: the second header is inside of the first block. -/
theorem sAllocatorAll_twelve :
    (sAllocatorAll [12, 12] ⟨0x1000, fun _ => 0⟩).1 = [⟨0x1010, 12⟩, ⟨0x1020, 12⟩] ∧
      StartupBlock.Covers ⟨0x1010, 12⟩ 0x1018 ∧ StartupBlock.Header ⟨0x1020, 12⟩ 0x1018 ∧
      ¬ (sAllocatorAll [12, 12] ⟨0x1000, fun _ => 0⟩).1.Pairwise StartupBlock.Apart := by
  have hblocks : (sAllocatorAll [12, 12] ⟨0x1000, fun _ => 0⟩).1 = [⟨0x1010, 12⟩, ⟨0x1020, 12⟩] := rfl
  have hcovers : StartupBlock.Covers ⟨0x1010, 12⟩ 0x1018 := by simp [StartupBlock.Covers]
  have hheader : StartupBlock.Header ⟨0x1020, 12⟩ 0x1018 := by simp [StartupBlock.Header]
  refine ⟨hblocks, hcovers, hheader, fun hall => ?_⟩
  rw [hblocks, List.pairwise_pair] at hall
  exact hall.2 _ hcovers hheader

end RpiKernel
