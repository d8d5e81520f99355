import RpiKernel.Boot.DeviceTree
import RpiKernel.Boot.StartupAllocator
import RpiKernel.Memory.KmallocRun

/-!
# RpiKernel.Boot.ReservedMemory

What `init_allocator` keeps away from `kmalloc`.

`dtb_find_and_store_reserved_memory` reads the memory reservation block of the device tree, pairs of
big-endian double words up to a pair of zeros (`RsvmapAt`).  Whatever calls follow, no live allocation has
a byte in one of its regions, in the device tree, in the arrays of the allocator, or in what the
boot code uses (`allocHistory_spares`).
-/

namespace RpiKernel

open Bytes Runs

/-! ## the code -/

/-- The loop of `dtb_find_and_store_reserved_memory` in at most `n` rounds, from `reverse_entry` on. -/
def reservedMemoryLoop (mem : Nat → UInt8) : Nat → Nat → Buddy → Option Buddy
  | 0, _, _ => none
  | n + 1, reverseEntry, s =>
      let address := loadDword mem reverseEntry
      let size := loadDword mem (reverseEntry + 8)
      if address ≠ 0 ∨ size ≠ 0 then
        let start := physToVirt (utilsChangeEndian64 address)
        let fin := (utilsChangeEndian64 size + start) % 2 ^ 64
        reservedMemoryLoop mem n (reverseEntry + 16) (memoryReserve start fin s)
      else some s

/-- `dtb_find_and_store_reserved_memory`. -/
def dtbFindAndStoreReservedMemory (mem : Nat → UInt8) (dtbBase n : Nat) (s : Buddy) : Option Buddy :=
  if fdtWord mem dtbBase ≠ fdtMagicNumber then some s
  else
    (reservedMemoryLoop mem n (dtbBase + fdtWord mem (dtbBase + 16)) s).map fun s =>
      memoryReserve dtbBase ((dtbBase + fdtWord mem (dtbBase + 4)) % 2 ^ 64) s

/-- `init_allocator` behind its own allocations, from the device tree in memory and the limits of
the ramdisk. -/
def initAllocatorAt (mem : Nat → UInt8) (dtbBase cpioDefaultStart cpioDefaultEnd n : Nat) (a : Alloc) :
    Option Alloc :=
  (dtbFindAndStoreReservedMemory mem dtbBase n (clearFrames a.buddy)).map fun s =>
    slabInit (a.setBuddy (buddyInit (memoryReserve cpioDefaultStart cpioDefaultEnd
      (memoryReserve 0xffff00003bf80000 0xffff00003c000000
        (memoryReserve 0xffff000000080000 0xffff000006000000
          (memoryReserve 0xffff000000001000 0xffff000000005000 s))))))

/-! ## the memory reservation block -/

/-- The regions of a memory reservation block at `p`, addresses and sizes. -/
inductive RsvmapAt (mem : Nat → UInt8) : Nat → List (Nat × Nat) → Prop
  | nil {p : Nat} : HoldsAt mem p (be64 0 ++ be64 0) → RsvmapAt mem p []
  | cons {p address size : Nat} {entries : List (Nat × Nat)} : address < 2 ^ 64 → size < 2 ^ 64 →
      address ≠ 0 ∨ size ≠ 0 → HoldsAt mem p (be64 address ++ be64 size) → RsvmapAt mem (p + 16) entries →
      RsvmapAt mem p ((address, size) :: entries)

/-- The device tree at `dtbBase`, as far as its reservations go. -/
structure ReservesAt (mem : Nat → UInt8) (dtbBase totalsize : Nat) (entries : List (Nat × Nat)) : Prop where
  magic : WordAt mem dtbBase fdtMagicNumber
  total : WordAt mem (dtbBase + 4) totalsize
  rsvmap : ∃ offMemRsvmap, WordAt mem (dtbBase + 16) offMemRsvmap ∧ RsvmapAt mem (dtbBase + offMemRsvmap) entries

/-- The limits that are passed to `memory_reserve` for a region. -/
def reservedRange (e : Nat × Nat) : Nat × Nat :=
  (physToVirt e.1, (e.2 + physToVirt e.1) % 2 ^ 64)

variable {mem : Nat → UInt8} {dtbBase totalsize cpioStart cpioEnd p : Nat} {entries rs : List (Nat × Nat)}
  {s : Buddy} {a : Alloc} {h h' : AllocHistory}

/-- The loop reserves the regions in order. -/
theorem RsvmapAt.loop (hat : RsvmapAt mem p entries) (s : Buddy) : ∃ n, reservedMemoryLoop mem n p s =
    some ((entries.map reservedRange).foldl (fun s r => memoryReserve r.1 r.2 s) s) := by
  induction hat generalizing s with
  | @nil p hzero =>
      obtain ⟨haddress, hsize⟩ := holdsAt_append.1 hzero
      have h₀ := (loadDword_eq_zero_iff (by decide) haddress).2 rfl
      have h₁ := (loadDword_eq_zero_iff (by decide) hsize).2 rfl
      refine ⟨1, ?_⟩
      simp only [reservedMemoryLoop]
      rw [h₀, show p + 8 = p + (be64 0).length from rfl, h₁, if_neg (by decide)]
      rfl
  | @cons p address size entries haddress hsize hne hheld _ ih =>
      obtain ⟨hat₀, hat₁⟩ := holdsAt_append.1 hheld
      have hmore : loadDword mem p ≠ 0 ∨ loadDword mem (p + 8) ≠ 0 :=
        hne.imp (mt (loadDword_eq_zero_iff haddress hat₀).1) (mt (loadDword_eq_zero_iff hsize hat₁).1)
      obtain ⟨n, hn⟩ := ih (memoryReserve (reservedRange (address, size)).1 (reservedRange (address, size)).2 s)
      refine ⟨n + 1, ?_⟩
      simp only [reservedMemoryLoop]
      rw [if_pos hmore, utilsChangeEndian64_be64 haddress hat₀,
        show p + 8 = p + (be64 address).length from rfl, utilsChangeEndian64_be64 hsize hat₁, List.map_cons,
        List.foldl_cons, ← hn, reservedRange]

/-- What is reserved for the device tree. -/
def dtbRanges (dtbBase totalsize : Nat) (entries : List (Nat × Nat)) : List (Nat × Nat) :=
  entries.map reservedRange ++ [(dtbBase, (dtbBase + totalsize) % 2 ^ 64)]

/-- The reservations of `init_allocator`, one by one. -/
theorem reservations_foldl (reserve : Nat → Nat → Buddy → Buddy) (xs ys : List (Nat × Nat)) (s : Buddy)
    (p₁ q₁ p₂ q₂ p₃ q₃ p₄ q₄ : Nat) :
    (xs ++ ys ++ [(p₁, q₁), (p₂, q₂), (p₃, q₃), (p₄, q₄)]).foldl (fun s r => reserve r.1 r.2 s) s =
      reserve p₄ q₄ (reserve p₃ q₃ (reserve p₂ q₂ (reserve p₁ q₁
        (ys.foldl (fun s r => reserve r.1 r.2 s) (xs.foldl (fun s r => reserve r.1 r.2 s) s))))) := by
  simp only [List.foldl_append, List.foldl_cons, List.foldl_nil]

/-- `init_allocator` as it is with the reservations in a list. -/
theorem ReservesAt.boots (hat : ReservesAt mem dtbBase totalsize entries) (cpioStart cpioEnd : Nat)
    (a : Alloc) : ∃ n, initAllocatorAt mem dtbBase cpioStart cpioEnd n a =
      some (initAllocator a ⟨dtbRanges dtbBase totalsize entries, cpioStart, cpioEnd⟩) := by
  obtain ⟨off, hoff, hentries⟩ := hat.rsvmap
  obtain ⟨n, hn⟩ := hentries.loop (clearFrames a.buddy)
  refine ⟨n, ?_⟩
  rw [initAllocatorAt, dtbFindAndStoreReservedMemory, if_neg (not_not.2 hat.magic.read), hoff.read, hn,
    hat.total.read, initAllocator_eq, reserveAll, BootInfo.reservations, dtbRanges,
    reservations_foldl memoryReserve, List.foldl_cons, List.foldl_nil, Option.map_some, Option.map_some]

/-! ## what a reservation keeps -/

/-- The byte at `x` is in the range. -/
def InRange (x : Nat) (r : Nat × Nat) : Prop := r.1 ≤ x ∧ x < r.2

/-- The last address whose frame has an `int` for an index is behind the range. -/
def Indexable (r : Nat × Nat) : Prop := buddyMemoryBase ≤ r.1 ∧ r.2 ≤ buddyMemoryBase + 2 ^ 42

/-- A frame that is reserved stays so. -/
theorem memoryReserve_keeps (r : Nat × Nat) {f : Nat} (hs : (s.frames f).status = reservedFrame) :
    ((memoryReserve r.1 r.2 s).frames f).status = reservedFrame := by
  rw [memoryReserve, reserveLoop_status]
  split
  · rfl
  · exact hs

/-- The frame of a byte in the range. -/
theorem memoryReserve_marks {r : Nat × Nat} {z : Nat} (hr : Indexable r) (hz : z < memorySize)
    (hin : InRange (buddyMemoryBase + z) r) (s : Buddy) :
    ((memoryReserve r.1 r.2 s).frames (z / frameSize)).status = reservedFrame := by
  obtain ⟨x, hx⟩ := Nat.exists_eq_add_of_le hr.1
  obtain ⟨y, hy⟩ := Nat.exists_eq_add_of_le (show buddyMemoryBase ≤ r.2 from by have := hin.2; omega)
  have hin' : x ≤ z ∧ z < y := by
    obtain ⟨h₀, h₁⟩ := hin
    omega
  have hyr := hr.2
  have hbegin : toInt32 (address2index r.1) = ((x / frameSize : Nat) : Int) := by
    have haddr : address2index r.1 = x / frameSize := by
      rw [hx]
      unfold address2index buddyMemoryBase frameSize
      omega
    rw [haddr]
    exact toInt32_of_lt (by unfold frameSize; omega)
  have hend : toInt32 (address2index ((r.2 + frameSize - 1) % 2 ^ 64)) =
      (((y + (frameSize - 1)) / frameSize : Nat) : Int) := by
    have haddr : address2index ((r.2 + frameSize - 1) % 2 ^ 64) = (y + (frameSize - 1)) / frameSize := by
      rw [hy]
      unfold address2index buddyMemoryBase frameSize
      omega
    rw [haddr]
    exact toInt32_of_lt (by unfold frameSize; omega)
  rw [memoryReserve_eq hbegin hend, reserveLoop_status, if_pos]
  clear hbegin hend hx hy hin hyr hr
  unfold memorySize at hz
  unfold frameSize at hz ⊢
  omega

theorem reservations_keep (rs : List (Nat × Nat)) {f : Nat} (hs : (s.frames f).status = reservedFrame) :
    ((rs.foldl (fun s r => memoryReserve r.1 r.2 s) s).frames f).status = reservedFrame := by
  induction rs generalizing s with
  | nil => exact hs
  | cons r rs ih =>
      rw [List.foldl_cons]
      exact ih (memoryReserve_keeps r hs)

/-- Of all the reservations each keeps its bytes. -/
theorem reserveAll_marks {r : Nat × Nat} {z : Nat} (hmem : r ∈ rs) (hr : Indexable r) (hz : z < memorySize)
    (hin : InRange (buddyMemoryBase + z) r) (s : Buddy) :
    ((reserveAll s rs).frames (z / frameSize)).status = reservedFrame := by
  obtain ⟨before, after, rfl⟩ := List.append_of_mem hmem
  rw [reserveAll, List.foldl_append, List.foldl_cons]
  exact reservations_keep after (memoryReserve_marks hr hz hin _)

/-- The reserved frames are the same after a call. -/
theorem AllocHistory.Ok.call_reserved (hok : h.Ok) {c : AllocCall} (hs : h.call c = some h') {f : Nat}
    (hf : f < totalFrame) : (h'.alloc.buddy.frames f).status = reservedFrame ↔
      (h.alloc.buddy.frames f).status = reservedFrame := by
  obtain ⟨T, hT⟩ := hok.settled
  have hsame : ∀ {T' : Nat → Tag}, h'.alloc.Ok T' → (∀ j, T' j = .reserved ↔ T j = .reserved) →
      ((h'.alloc.buddy.frames f).status = reservedFrame ↔ (h.alloc.buddy.frames f).status = reservedFrame) :=
    fun hT' hres => by rw [hT'.buddy.reserved_iff hf, hT.buddy.reserved_iff hf, hres f]
  cases c with
  | kmalloc size =>
      obtain ⟨p, a, hres, hout⟩ := hT.kmalloc size
      simp only [AllocHistory.call, hres] at hs
      obtain rfl := Option.some.inj hs
      cases hout with
      | inl hfail => rw [hfail.2]
      | inr hsucc =>
          obtain ⟨-, -, T', hT', hkeep⟩ := hsucc
          exact hsame hT' hkeep
  | kfree ptr =>
      have hp : ptr ∈ h.live.map Prod.fst := by
        by_contra hnp
        simp only [AllocHistory.call, if_neg hnp] at hs
        contradiction
      obtain ⟨e, he, rfl⟩ := List.mem_map.mp hp
      obtain ⟨n, -, hr⟩ := hok.region e he
      obtain ⟨a, hres, -, T', hT', hkeep⟩ := hT.kfree hr
      simp only [AllocHistory.call, if_pos hp, hres] at hs
      obtain rfl := Option.some.inj hs
      exact hsame hT' hkeep

/-- In all states of a history the reserved frames are the same. -/
theorem AllocHistory.Ok.reach (hok : h.Ok) (hr : Reach AllocHistory.call (fun _ c => c.Small) h h') : h'.Ok ∧
    ∀ f < totalFrame, (h'.alloc.buddy.frames f).status = reservedFrame ↔
      (h.alloc.buddy.frames f).status = reservedFrame := by
  induction hr with
  | init => exact ⟨hok, fun _ _ => Iff.rfl⟩
  | step c _ hc hs ih => exact ⟨ih.1.call hc hs, fun f hf => (ih.1.call_reserved hs hf).trans (ih.2 f hf)⟩

/-- A live allocation has no byte in a reserved frame. -/
theorem AllocHistory.Ok.not_reserved (hok : h.Ok) {e : Nat × Nat} (he : e ∈ h.live) {z : Nat}
    (hlo : e.1 ≤ buddyMemoryBase + z) (hhi : buddyMemoryBase + z < e.1 + e.2) :
    z < memorySize ∧ (h.alloc.buddy.frames (z / frameSize)).status ≠ reservedFrame := by
  obtain ⟨-, hend, hfree⟩ := hok.safe.managed e he
  exact ⟨by omega, hfree z hlo hhi⟩

/-- A live allocation has no byte in a range that was reserved. -/
theorem allocHistory_avoids {info : BootInfo} (hr : Reach AllocHistory.call (fun _ c => c.Small) (.boot a info) h)
    {e r : Nat × Nat} (he : e ∈ h.live) (hmem : r ∈ info.reservations) (hidx : Indexable r) {z : Nat}
    (hlo : e.1 ≤ buddyMemoryBase + z) (hhi : buddyMemoryBase + z < e.1 + e.2) :
    ¬ InRange (buddyMemoryBase + z) r := by
  intro hin
  obtain ⟨hok, hsame⟩ := (AllocHistory.boot_ok a info).reach hr
  obtain ⟨hz, hfree⟩ := hok.not_reserved he hlo hhi
  have hf : z / frameSize < totalFrame := by
    unfold memorySize frameSize at hz
    unfold frameSize
    omega
  obtain ⟨T, hT, -, -, hres⟩ := initAllocator_ok a info
  have hboot : (AllocHistory.boot a info).alloc = initAllocator a info := rfl
  rw [hboot] at hsame
  exact hfree ((hsame _ hf).2 ((hT.buddy.reserved_iff hf).2 ((hres _).2 (reserveAll_marks hmem hidx hz hin _))))

/-! ## the result -/

/-- The regions that are in use before the first allocation, but for the memory reservation block: the
device tree, the page tables that the kernel boots with, the kernel image with the heap, the
stack and the ramdisk. -/
def bootRanges (dtbBase totalsize cpioStart cpioEnd : Nat) : List (Nat × Nat) :=
  [(dtbBase, dtbBase + totalsize), (0xffff000000001000, 0xffff000000005000),
    (0xffff000000080000, 0xffff000006000000), (0xffff00003bf80000, 0xffff00003c000000), (cpioStart, cpioEnd)]

/-- The limits of a region of the memory reservation block. -/
theorem reservedRange_eq {e : Nat × Nat} (he : e.1 + e.2 ≤ 2 ^ 42) :
    reservedRange e = (buddyMemoryBase + e.1, buddyMemoryBase + e.1 + e.2) := by
  unfold reservedRange physToVirt buddyMemoryBase
  refine Prod.ext ?_ ?_ <;> simp only <;> omega

/-- All of these are reserved. -/
theorem bootRanges_reserved (hentries : ∀ e ∈ entries, e.1 + e.2 ≤ 2 ^ 42)
    (hdtb : Indexable (dtbBase, dtbBase + totalsize)) {r : Nat × Nat}
    (hr : (∃ e ∈ entries, r = (buddyMemoryBase + e.1, buddyMemoryBase + e.1 + e.2)) ∨
      r ∈ bootRanges dtbBase totalsize cpioStart cpioEnd) :
    r ∈ BootInfo.reservations ⟨dtbRanges dtbBase totalsize entries, cpioStart, cpioEnd⟩ := by
  have hmod : (dtbBase + totalsize) % 2 ^ 64 = dtbBase + totalsize := by
    have hend := hdtb.2
    unfold buddyMemoryBase at hend
    exact Nat.mod_eq_of_lt (by omega)
  unfold BootInfo.reservations dtbRanges
  rw [hmod]
  cases hr with
  | inl hr =>
      obtain ⟨e, he, rfl⟩ := hr
      rw [← reservedRange_eq (hentries e he)]
      exact List.mem_append_left _ (List.mem_append_left _ (List.mem_map_of_mem he))
  | inr hr =>
      rw [List.append_assoc]
      exact List.mem_append_right _ hr

/-- The arrays of the allocator are in the heap. -/
theorem initAllocator_blocks {heapStart : Nat}
    (hlimit : heapStart + (initAllocatorSizes.map (0x10 + ·)).sum ≤ 0xffff000006000000) {b : StartupBlock}
    (hb : b ∈ (sAllocatorAll initAllocatorSizes ⟨heapStart, mem⟩).1) {x : Nat} (hx : b.Covers x) :
    heapStart ≤ x ∧ x < 0xffff000006000000 := by
  have hsizes : ∀ size ∈ initAllocatorSizes, size < 2 ^ 32 - 0x10 := by decide
  have hfit : InAddressSpace heapStart initAllocatorSizes := by
    simp only [initAllocatorSizes, List.map_cons, List.map_nil, List.sum_cons, List.sum_nil] at hlimit
    simp only [initAllocatorSizes, InAddressSpace, and_true]
    omega
  have hbegin := (sAllocatorAll_behind hsizes hfit hb).1 x hx
  have hend := sAllocatorAll_ends hsizes hfit hb hx
  dsimp only at hbegin hend
  omega

/-- **Reserved memory.**  Let there be a device tree, whose regions and the tree itself end in the first
`2 ^ 42` bytes as the ramdisk does, and a kernel image that leaves room for the arrays of the
allocator below the heap limit.  Then `init_allocator` returns, and after any calls of
`kmalloc` and `kfree` no live allocation has a byte that was in use before. -/
theorem allocHistory_spares {heapStart : Nat} (hat : ReservesAt mem dtbBase totalsize entries)
    (hentries : ∀ e ∈ entries, e.1 + e.2 ≤ 2 ^ 42) (hdtb : Indexable (dtbBase, dtbBase + totalsize))
    (hcpio : Indexable (cpioStart, cpioEnd)) (hheap : 0xffff000000080000 ≤ heapStart)
    (hlimit : heapStart + (initAllocatorSizes.map (0x10 + ·)).sum ≤ 0xffff000006000000) (a : Alloc) :
    ∃ n boot, initAllocatorAt mem dtbBase cpioStart cpioEnd n a = some boot ∧
      ∀ h, Reach AllocHistory.call (fun _ c => c.Small) ⟨boot, []⟩ h → ∀ e ∈ h.live, ∀ x,
        e.1 ≤ x → x < e.1 + e.2 →
          (∀ e ∈ entries, ¬ InRange x (buddyMemoryBase + e.1, buddyMemoryBase + e.1 + e.2)) ∧
          (∀ r ∈ bootRanges dtbBase totalsize cpioStart cpioEnd, ¬ InRange x r) ∧
          ∀ b ∈ (sAllocatorAll initAllocatorSizes ⟨heapStart, mem⟩).1, ¬ b.Covers x := by
  obtain ⟨n, hn⟩ := hat.boots cpioStart cpioEnd a
  refine ⟨n, _, hn, fun h hr e he x hlo hhi => ?_⟩
  have hmanaged := (((AllocHistory.boot_ok a _).reach hr).1.safe.managed e he).1
  obtain ⟨z, rfl⟩ := Nat.exists_eq_add_of_le (hmanaged.trans hlo)
  have havoid := fun r hmem hidx => allocHistory_avoids (r := r) hr he
    (bootRanges_reserved hentries hdtb hmem) hidx hlo hhi
  have hboot : ∀ r ∈ bootRanges dtbBase totalsize cpioStart cpioEnd, ¬ InRange (buddyMemoryBase + z) r := by
    refine fun r hmem => havoid r (.inr hmem) ?_
    simp only [bootRanges, List.mem_cons, List.not_mem_nil, or_false] at hmem
    rcases hmem with rfl | rfl | rfl | rfl | rfl
    · exact hdtb
    · exact ⟨by decide, by decide⟩
    · exact ⟨by decide, by decide⟩
    · exact ⟨by decide, by decide⟩
    · exact hcpio
  refine ⟨fun e he => havoid _ (.inl ⟨e, he, rfl⟩) ⟨Nat.le_add_right _ _, ?_⟩, hboot, fun b hb hx => ?_⟩
  · have hend := hentries e he
    dsimp only
    omega
  · obtain ⟨hbegin, hend⟩ := initAllocator_blocks hlimit hb hx
    exact hboot (0xffff000000080000, 0xffff000006000000) (by simp [bootRanges]) ⟨hheap.trans hbegin, hend⟩

/-- A header and a memory reservation block with the first page. -/
def rsvmapBlob : List UInt8 :=
  be32 fdtMagicNumber ++ be32 72 ++ be32 0 ++ be32 0 ++ be32 40 ++ List.replicate 20 0 ++
    (be64 0 ++ be64 0x1000) ++ (be64 0 ++ be64 0)

/-- Memory with that in it. -/
def rsvmapMemory (x : Nat) : UInt8 := rsvmapBlob.getD (x - 0xffff000008200000) 0

theorem rsvmapMemory_reserves : ReservesAt rsvmapMemory 0xffff000008200000 72 [(0, 0x1000)] := by
  refine ⟨⟨by decide, ?_⟩, ⟨by decide, ?_⟩, 40, ⟨by decide, ?_⟩,
    .cons (by decide) (by decide) (by decide) ?_ (.nil ?_)⟩
  all_goals
    unfold HoldsAt
    decide +kernel

/-- No allocation reaches into that page. -/
theorem allocHistory_spares_page : ∃ n boot, initAllocatorAt rsvmapMemory 0xffff000008200000 0xffff000008000000
      0xffff000008001000 n zeroAlloc = some boot ∧
    ∀ h, Reach AllocHistory.call (fun _ c => c.Small) ⟨boot, []⟩ h → ∀ e ∈ h.live, ∀ x, e.1 ≤ x →
      x < e.1 + e.2 → ¬ InRange x (buddyMemoryBase + 0, buddyMemoryBase + 0 + 0x1000) := by
  have hcpio : Indexable (0xffff000008000000, 0xffff000008001000) := ⟨by decide, by decide⟩
  obtain ⟨n, boot, hboot, hspares⟩ := allocHistory_spares rsvmapMemory_reserves (by decide)
    ⟨by decide, by decide⟩ hcpio (show 0xffff000000080000 ≤ 0xffff000000100000 by decide) (by decide) zeroAlloc
  exact ⟨n, boot, hboot, fun h hr e he x hlo hhi => (hspares h hr e he x hlo hhi).1 _ (List.mem_singleton_self _)⟩

end RpiKernel
