import RpiKernel.Memory.BuddyRun

/-!
# RpiKernel.Memory.Slab

The slab allocator, `kmalloc` and `kfree` of `memory.c`, over the
page-frame allocator.

Pointers into `slab_frame_array` are page indices (`SLAB_NULL` is `none`).
Where the C program would leave its tables or never come back, a
definition returns `none`; `RpiKernel.Memory.Kmalloc` shows that no call on
a live pointer does.  Masking interrupts has no effect on the allocator
and is left out.
-/

namespace RpiKernel

/-! ## constants and state -/

def slabType : Nat := 10

/-- `slab_sizes[SLAB_TYPE]`: nine initialisers for ten entries, so the last
one is 0. -/
def slabSizes : List Nat := [8, 16, 32, 64, 128, 256, 512, 1024, 2048, 0]

def slabSize (i : Nat) : Nat := slabSizes.getD i 0

/-- `slab_t`.  Entry `i` of `bitmap` is bit `i % 8` of byte `i / 8`. -/
structure SlabT where
  available : Int
  slabType : Int
  slabSize : Int
  startAddress : Nat
  totalSlabs : Int
  freeSlabs : Int
  bitmap : Nat → Bool
  next : Option Nat
  prev : Option Nat

/-- What `slab_init` and the release of a page store into a descriptor. -/
def SlabT.blank : SlabT where
  available := 1
  slabType := -1
  slabSize := -1
  startAddress := 2 ^ 64 - 1
  totalSlabs := -1
  freeSlabs := -1
  bitmap := fun _ => false
  next := none
  prev := none

/-- The whole allocator. -/
structure Alloc where
  buddy : Buddy
  slabs : Nat → SlabT
  slabStart : Nat → Option Nat

namespace Alloc

/-- An assignment to fields of `slab_frame_array[i]`. -/
def modifySlab (a : Alloc) (i : Nat) (f : SlabT → SlabT) : Alloc :=
  { a with slabs := Function.update a.slabs i (f (a.slabs i)) }

/-- An assignment through a pointer that is tested against `SLAB_NULL`. -/
def modifySlab? (a : Alloc) (p : Option Nat) (f : SlabT → SlabT) : Alloc :=
  match p with
  | some i => a.modifySlab i f
  | none => a

/-- `slab_start_list[c] = h`. -/
def setStart (a : Alloc) (c : Nat) (h : Option Nat) : Alloc :=
  { a with slabStart := Function.update a.slabStart c h }

def setBuddy (a : Alloc) (s : Buddy) : Alloc := { a with buddy := s }

@[simp] theorem slabs_modifySlab (a : Alloc) (i : Nat) (f : SlabT → SlabT) (j : Nat) :
    (a.modifySlab i f).slabs j = if j = i then f (a.slabs j) else a.slabs j := by
  by_cases h : j = i
  · subst h; simp [modifySlab]
  · simp [modifySlab, h]

@[simp] theorem slabStart_modifySlab (a : Alloc) (i : Nat) (f : SlabT → SlabT) :
    (a.modifySlab i f).slabStart = a.slabStart := rfl

@[simp] theorem buddy_modifySlab (a : Alloc) (i : Nat) (f : SlabT → SlabT) :
    (a.modifySlab i f).buddy = a.buddy := rfl

@[simp] theorem slabs_modifySlab? (a : Alloc) (p : Option Nat) (f : SlabT → SlabT) (j : Nat) :
    (a.modifySlab? p f).slabs j = if p = some j then f (a.slabs j) else a.slabs j := by
  cases p with
  | none => simp [modifySlab?]
  | some i => simp [modifySlab?, eq_comm]

@[simp] theorem slabStart_modifySlab? (a : Alloc) (p : Option Nat) (f : SlabT → SlabT) :
    (a.modifySlab? p f).slabStart = a.slabStart := by
  cases p <;> rfl

@[simp] theorem buddy_modifySlab? (a : Alloc) (p : Option Nat) (f : SlabT → SlabT) :
    (a.modifySlab? p f).buddy = a.buddy := by
  cases p <;> rfl

@[simp] theorem slabs_setStart (a : Alloc) (c : Nat) (h : Option Nat) :
    (a.setStart c h).slabs = a.slabs := rfl

@[simp] theorem buddy_setStart (a : Alloc) (c : Nat) (h : Option Nat) :
    (a.setStart c h).buddy = a.buddy := rfl

@[simp] theorem slabStart_setStart (a : Alloc) (c : Nat) (h : Option Nat) (d : Nat) :
    (a.setStart c h).slabStart d = if d = c then h else a.slabStart d := by
  simp [setStart, Function.update_apply]

@[simp] theorem slabs_setBuddy (a : Alloc) (s : Buddy) : (a.setBuddy s).slabs = a.slabs := rfl

@[simp] theorem slabStart_setBuddy (a : Alloc) (s : Buddy) :
    (a.setBuddy s).slabStart = a.slabStart := rfl

@[simp] theorem buddy_setBuddy (a : Alloc) (s : Buddy) : (a.setBuddy s).buddy = s := rfl

end Alloc

/-! ## `slab_init` and `init_allocator` -/

/-- `slab_init()`. -/
def slabInit (a : Alloc) : Alloc where
  buddy := a.buddy
  slabs i := if i < totalFrame then .blank else a.slabs i
  slabStart c := if c < slabType then none else a.slabStart c

@[simp] theorem buddy_slabInit (a : Alloc) : (slabInit a).buddy = a.buddy := rfl

theorem slabs_slabInit (a : Alloc) {i : Nat} (hi : i < totalFrame) :
    (slabInit a).slabs i = .blank := if_pos hi

theorem slabStart_slabInit (a : Alloc) {c : Nat} (hc : c < slabType) :
    (slabInit a).slabStart c = none := if_pos hc

/-- The ranges whose limits the boot environment decides: the entries that
`dtb_find_and_store_reserved_memory` passes to `memory_reserve`, and the
initial ramdisk. -/
structure BootInfo where
  dtbReserved : List (Nat × Nat)
  cpioDefaultStart : Nat
  cpioDefaultEnd : Nat

/-- The reservations of `init_allocator`, in order: the device tree's, the
boot page tables, the kernel image with its heap, the stack, the ramdisk. -/
def BootInfo.reservations (boot : BootInfo) : List (Nat × Nat) :=
  boot.dtbReserved ++
    [(0xffff000000001000, 0xffff000000005000), (0xffff000000080000, 0xffff000006000000),
      (0xffff00003bf80000, 0xffff00003c000000), (boot.cpioDefaultStart, boot.cpioDefaultEnd)]

/-- `init_allocator()`, from whatever the four arrays hold. -/
def initAllocator (a : Alloc) (boot : BootInfo) : Alloc :=
  slabInit (a.setBuddy (buddyInit (reserveAll a.buddy boot.reservations)))

theorem initAllocator_eq (a : Alloc) (boot : BootInfo) : initAllocator a boot =
    slabInit (a.setBuddy (buddyInit (reserveAll a.buddy boot.reservations))) := rfl

/-! ## `slab_allocate` -/

/-- The first class whose size is large enough. -/
def findClass (size : Nat) : Option Nat :=
  (List.range slabType).find? fun i => size ≤ slabSize i

/-- `size2chunk(request_size)`: the size of that class, or -1. -/
def size2chunk (requestSize : Nat) : Int :=
  match (List.range slabType).find? fun i => slabSize i ≥ requestSize with
  | some i => slabSize i
  | none => -1

/-- `for (i = 0; i < total_slabs; i++)`: the first clear bit from `i` on,
with `n` left. -/
def firstClear (bitmap : Nat → Bool) : Nat → Nat → Option Nat
  | 0, _ => none
  | n + 1, i => if bitmap i then firstClear bitmap n (i + 1) else some i

/-- `while (slab_page != SLAB_NULL)`: the first page with a clear bit, and
the bit; `none` if `n` steps do not reach the end of the list. -/
def findSlot (a : Alloc) : Nat → Option Nat → Option (Option (Nat × Nat))
  | _, none => some none
  | 0, some _ => none
  | n + 1, some page =>
      let p := a.slabs page
      if 0 < p.freeSlabs then
        match firstClear p.bitmap p.totalSlabs.toNat 0 with
        | some i => some (some (page, i))
        | none => findSlot a n p.next
      else findSlot a n p.next

/-- Set bit `i` of a page and count it. -/
def takeSlot (page i : Nat) (a : Alloc) : Alloc :=
  a.modifySlab page fun p =>
    { p with bitmap := Function.update p.bitmap i true, freeSlabs := p.freeSlabs - 1 }

/-- The part of `slab_allocate` that turns the frame `block` into the first
page of class `c`. -/
def newSlab (c block : Nat) (a : Alloc) : Alloc :=
  let a := a.setBuddy (a.buddy.modify block fun f =>
    { f with slabPtr := some block, isSlabPage := true })
  let total : Int := frameSize / slabSize c
  let a := a.modifySlab block fun _ =>
    { available := 0, slabType := c, slabSize := slabSize c
      startAddress := index2address block, totalSlabs := total, freeSlabs := total
      bitmap := fun _ => false, prev := none, next := a.slabStart c }
  let a := a.modifySlab? (a.slabStart c) fun p => { p with prev := some block }
  takeSlot block 0 (a.setStart c (some block))

/-- `slab_allocate(size)`; a result `none` inside is `-1`. -/
def slabAllocate (size : Nat) (a : Alloc) : Option (Option Nat × Alloc) :=
  match findClass size with
  | none => some (none, a)
  | some c =>
      match findSlot a totalFrame (a.slabStart c) with
      | none => none
      | some (some (page, i)) =>
          some (some (((a.slabs page).startAddress + i * slabSize c) % 2 ^ 64), takeSlot page i a)
      | some none =>
          match buddyAllocate 0 a.buddy with
          | (none, s) => some (none, a.setBuddy s)
          | (some block, s) =>
              some (some (index2address block), newSlab c block (a.setBuddy s))

/-! ## `slab_free` -/

/-- Unlink a page from the list of its class and clear its descriptor; a
page that is neither first nor has a predecessor is left as it is. -/
def dropSlab (page c : Nat) (a : Alloc) : Alloc :=
  let next := (a.slabs page).next
  let prev := (a.slabs page).prev
  if a.slabStart c = some page then
    ((a.setStart c next).modifySlab? next fun p => { p with prev := none }).modifySlab page
      fun _ => .blank
  else if prev.isSome then
    ((a.modifySlab? prev fun p => { p with next := next }).modifySlab? next
      fun p => { p with prev := prev }).modifySlab page fun _ => .blank
  else a

/-- Give an empty page back to the page-frame allocator. -/
def releaseSlab (page : Nat) (a : Alloc) : Option Alloc :=
  let block := toInt32 (address2index (a.slabs page).startAddress)
  let c := (a.slabs page).slabType
  if 0 ≤ block ∧ block < totalFrame ∧ 0 ≤ c ∧ c < slabType then
    let s := a.buddy.modify block.toNat fun f => { f with slabPtr := none, isSlabPage := false }
    some (dropSlab page c.toNat (a.setBuddy (buddyFree block.toNat s)))
  else none

/-- `slab_free(slab_page, address)` for a page that is not `SLAB_NULL`. -/
def slabFree (page address : Nat) (a : Alloc) : Option Alloc :=
  let p := a.slabs page
  if ¬ (p.startAddress ≤ address ∧ address < (p.startAddress + frameSize) % 2 ^ 64) then some a
  else
    let offset := address - p.startAddress
    let size := (p.slabSize % 2 ^ 64).toNat
    if size = 0 then none
    else if offset % size ≠ 0 then some a
    else
      let index := offset / size
      if (index : Int) ≥ p.totalSlabs then some a
      else if p.bitmap index = false then some a
      else
        let a := a.modifySlab page fun p =>
          { p with bitmap := Function.update p.bitmap index false, freeSlabs := p.freeSlabs + 1 }
        if (a.slabs page).freeSlabs = (a.slabs page).totalSlabs then releaseSlab page a
        else some a

/-! ## `malloc_b`, `free_b`, `malloc_s`, `free_s` -/

/-- `while ((unsigned int)(1 << order) < adjusted_size)`, `n` steps left. -/
def orderLoop (adjustedSize : Nat) : Nat → Nat → Nat
  | 0, order => order
  | n + 1, order =>
      if 2 ^ order < adjustedSize then orderLoop adjustedSize n (order + 1) else order

/-- `size2order(request_size)`: the sum is an `unsigned int`. -/
def size2order (requestSize : Nat) : Nat :=
  if requestSize = 0 then 0
  else orderLoop ((requestSize + frameSize - 1) % 2 ^ 32 / frameSize) 32 0

/-- `malloc_b(size)`; the pointer 0 is `NULL`. -/
def mallocB (size : Nat) (a : Alloc) : Nat × Alloc :=
  match buddyAllocate (size2order size) a.buddy with
  | (none, s) => (0, a.setBuddy s)
  | (some block, s) => (index2address block, a.setBuddy s)

/-- `free_b(ptr)`. -/
def freeB (ptr : Nat) (a : Alloc) : Option Alloc :=
  if ptr = 0 then some a
  else
    let block := toInt32 (address2index ptr)
    if block < totalFrame then
      if block < 0 then none
      else if (a.buddy.frames block.toNat).status = allocatedFrame then
        some (a.setBuddy (buddyFree block.toNat a.buddy))
      else some a
    else some a

/-- `malloc_s(size)`. -/
def mallocS (size : Nat) (a : Alloc) : Option (Nat × Alloc) :=
  match slabAllocate size a with
  | none => none
  | some (none, a) => some (0, a)
  | some (some address, a) => some (address, a)

/-- `free_s(ptr)`. -/
def freeS (ptr : Nat) (a : Alloc) : Option Alloc :=
  if ptr = 0 then some a
  else
    let block := toInt32 (address2index ptr)
    if block < totalFrame then
      if block < 0 then none
      else if (a.buddy.frames block.toNat).isSlabPage then
        match (a.buddy.frames block.toNat).slabPtr with
        | some page => slabFree page ptr a
        | none => some a
      else some a
    else some a

/-! ## `kmalloc` and `kfree` -/

/-- `kmalloc(size)`.  `slab_sizes[SLAB_TYPE - 1]` is 0, so only requests
for no bytes reach the slab allocator. -/
def kmalloc (size : Nat) (a : Alloc) : Option (Nat × Alloc) :=
  if size ≤ slabSize (slabType - 1) then mallocS size a else some (mallocB size a)

/-- `kfree(ptr)`. -/
def kfree (ptr : Nat) (a : Alloc) : Option Alloc :=
  if ptr = 0 then some a
  else
    let block := toInt32 (address2index ptr)
    if block < totalFrame then
      if block < 0 then none
      else if (a.buddy.frames block.toNat).isSlabPage then freeS ptr a
      else freeB ptr a
    else some a

end RpiKernel
