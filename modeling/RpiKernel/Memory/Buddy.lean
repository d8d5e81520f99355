import RpiKernel.Lib.Dlist
import RpiKernel.Lib.Dyadic
import Mathlib.Logic.Function.Basic

/-!
# RpiKernel.Memory.Buddy

The page-frame allocator of `memory.c`: frame descriptors (`buddy_t`), the
free lists, `memory_reserve`, `buddy_init`, `buddy_allocate`, `buddy_free`.

Pointers into `buddy_frame_array` are frame indices (`BUDDY_NULL` is
`none`); the array and the list heads are functions, so an assignment is
`Buddy.modify` or `Buddy.setList`.  Every loop of the source is a
structural recursion on the number of iterations it has left.  The log
output (`printflag`, `uart_sendline`) has no effect on the state and is
left out.
-/

namespace RpiKernel

open Dyadic

/-! ## constants of `memory.h` -/

def frameSize : Nat := 4096
def totalFrame : Nat := 0x3C000
def maxOrder : Nat := 20
def belongedFrame : Int := -1
def allocatedFrame : Int := -2
def reservedFrame : Int := -3
def uninitFrame : Int := -4

/-- `BUDDY_MEMORY_BASE`, that is `PHYS_TO_VIRT(0x0)`. -/
def buddyMemoryBase : Nat := 0xffff000000000000

/-- A value stored into a C `int`. -/
def toInt32 (n : Nat) : Int := Int.bmod n (2 ^ 32)

/-! ## state -/

/-- `buddy_t`, the descriptor of one page frame. -/
structure BuddyT where
  status : Int
  index : Nat
  next : Option Nat
  prev : Option Nat
  allocatedOrder : Int
  slabPtr : Option Nat
  isSlabPage : Bool

/-- `buddy_frame_array` and `free_frame_lists`. -/
structure Buddy where
  frames : Nat → BuddyT
  freeLists : Nat → Option Nat

namespace Buddy

/-- An assignment to fields of `buddy_frame_array[i]`. -/
def modify (s : Buddy) (i : Nat) (f : BuddyT → BuddyT) : Buddy :=
  { s with frames := Function.update s.frames i (f (s.frames i)) }

/-- An assignment through a pointer that is tested against `BUDDY_NULL`. -/
def modify? (s : Buddy) (p : Option Nat) (f : BuddyT → BuddyT) : Buddy :=
  match p with
  | some i => s.modify i f
  | none => s

/-- `free_frame_lists[k] = h`. -/
def setList (s : Buddy) (k : Nat) (h : Option Nat) : Buddy :=
  { s with freeLists := Function.update s.freeLists k h }

@[simp] theorem frames_modify (s : Buddy) (i : Nat) (f : BuddyT → BuddyT) (j : Nat) :
    (s.modify i f).frames j = if j = i then f (s.frames j) else s.frames j := by
  by_cases h : j = i
  · subst h; simp [modify]
  · simp [modify, h]

@[simp] theorem freeLists_modify (s : Buddy) (i : Nat) (f : BuddyT → BuddyT) :
    (s.modify i f).freeLists = s.freeLists := rfl

@[simp] theorem frames_modify? (s : Buddy) (p : Option Nat) (f : BuddyT → BuddyT) (j : Nat) :
    (s.modify? p f).frames j = if p = some j then f (s.frames j) else s.frames j := by
  cases p with
  | none => simp [modify?]
  | some i => simp [modify?, eq_comm]

@[simp] theorem freeLists_modify? (s : Buddy) (p : Option Nat) (f : BuddyT → BuddyT) :
    (s.modify? p f).freeLists = s.freeLists := by
  cases p <;> rfl

@[simp] theorem frames_setList (s : Buddy) (k : Nat) (h : Option Nat) :
    (s.setList k h).frames = s.frames := rfl

@[simp] theorem freeLists_setList (s : Buddy) (k : Nat) (h : Option Nat) (l : Nat) :
    (s.setList k h).freeLists l = if l = k then h else s.freeLists l := by
  simp [setList, Function.update_apply]

end Buddy

/-! ## linking and unlinking free blocks -/

/-- Make `i` the first block of the free list of `order`: the statements
that `buddy_init`, `buddy_allocate` and `buddy_free` share. -/
def pushFree (i order : Nat) (s : Buddy) : Buddy :=
  ((s.modify i fun f => { f with status := order, next := s.freeLists order, prev := none }).modify?
    (s.freeLists order) fun f => { f with prev := some i }).setList order (some i)

/-- Unlink the free block `b` from the list of `order`, as `buddy_free`
does: the head and the interior are separate cases. -/
def unlinkFree (b order : Nat) (s : Buddy) : Buddy :=
  let next := (s.frames b).next
  let prev := (s.frames b).prev
  if s.freeLists order = some b then
    (s.setList order next).modify? next fun f => { f with prev := none }
  else if prev.isSome then
    (s.modify? prev fun f => { f with next := next }).modify? next fun f => { f with prev := prev }
  else s

/-! ## `memory_reserve` and `buddy_init` -/

/-- `address2index`, on 64-bit addresses. -/
def address2index (address : Nat) : Nat :=
  (address + (2 ^ 64 - buddyMemoryBase)) % 2 ^ 64 / frameSize

/-- `index2address`, on 64-bit values. -/
def index2address (blockIndex : Nat) : Nat :=
  (buddyMemoryBase + blockIndex * frameSize) % 2 ^ 64

/-- The loop of `memory_reserve`, `n` frames from `i` on. -/
def reserveLoop : Nat → Int → Buddy → Buddy
  | 0, _, s => s
  | n + 1, i, s =>
      let s := if 0 ≤ i ∧ i < totalFrame then
          s.modify i.toNat fun f => { f with status := reservedFrame }
        else s
      reserveLoop n (i + 1) s

/-- `memory_reserve(begin_address, end_address)`. -/
def memoryReserve (beginAddress endAddress : Nat) (s : Buddy) : Buddy :=
  let beginBlockIndex := toInt32 (address2index beginAddress)
  let endBlockIndex := toInt32 (address2index ((endAddress + frameSize - 1) % 2 ^ 64))
  reserveLoop (endBlockIndex - beginBlockIndex).toNat beginBlockIndex s

/-- First loop of `init_allocator` over the frames: every frame starts
uninitialised.  The fields it leaves alone are whatever the memory holds. -/
def clearFrames (s : Buddy) : Buddy :=
  { s with frames := fun i =>
      if i < totalFrame then
        { s.frames i with status := uninitFrame, index := i, next := none, prev := none }
      else s.frames i }

/-- First two loops of `buddy_init`: empty lists, fields reset, and every
frame that is not reserved uninitialised. -/
def resetFrames (s : Buddy) : Buddy where
  freeLists k := if k ≤ maxOrder then none else s.freeLists k
  frames i :=
    if i < totalFrame then
      { status := if (s.frames i).status ≠ reservedFrame then uninitFrame else (s.frames i).status
        index := i, next := none, prev := none, allocatedOrder := -1
        slabPtr := none, isSlabPage := false }
    else s.frames i

/-- The `all_free` test of `buddy_init` on `n` frames from `i` on. -/
def allUninit (s : Buddy) (i : Nat) : Nat → Bool
  | 0 => true
  | n + 1 => (s.frames i).status == uninitFrame && allUninit s (i + 1) n

/-- `for (j = 1; j < block_size; j++) ... status = BELONGED_FRAME`. -/
def markBelonged (i : Nat) : Nat → Buddy → Buddy
  | 0, s => s
  | n + 1, s => markBelonged (i + 1) n (s.modify i fun f => { f with status := belongedFrame })

/-- Body of the scan of `buddy_init`: make a block of `order` at `i` if all
its frames are still uninitialised. -/
def initBlock (order i : Nat) (s : Buddy) : Buddy :=
  if (s.frames i).status ≠ uninitFrame then s
  else if i + 2 ^ order > totalFrame then s
  else if allUninit s i (2 ^ order) then
    markBelonged (i + 1) (2 ^ order - 1) (pushFree i order s)
  else s

/-- `for (i = 0; i < TOTAL_FRAME; i += block_size)`, `n` steps from `i` on. -/
def initScan (order : Nat) : Nat → Nat → Buddy → Buddy
  | 0, _, s => s
  | n + 1, i, s => initScan order n (i + 2 ^ order) (initBlock order i s)

/-- The scans of `buddy_init`, from `MAX_ORDER` down to order 0. -/
def initOrders : Nat → Buddy → Buddy
  | 0, s => s
  | order + 1, s =>
      initOrders order (initScan order ((totalFrame + 2 ^ order - 1) / 2 ^ order) 0 s)

/-- `buddy_init()`. -/
def buddyInit (s : Buddy) : Buddy := initOrders (maxOrder + 1) (resetFrames s)

/-! ## `buddy_allocate` -/

/-- The search `for (i = order; i <= MAX_ORDER; i++)` for a non-empty list,
with `n` lists left. -/
def firstOrder (s : Buddy) : Nat → Nat → Option Nat
  | 0, _ => none
  | n + 1, i => if (s.freeLists i).isSome then some i else firstOrder s n (i + 1)

/-- `while (current_order > order)`: give the upper halves back. -/
def splitLoop (order block : Nat) : Nat → Buddy → Buddy
  | 0, s => s
  | current + 1, s =>
      if order ≤ current then
        splitLoop order block current (pushFree (buddy block current) current s)
      else s

/-- Take the first block of list `i`, cut it down to `order` and mark it. -/
def allocateAt (order i : Nat) (s : Buddy) : Option Nat × Buddy :=
  match s.freeLists i with
  | none => (none, s)
  | some b =>
      let block := (s.frames b).index
      let next := (s.frames b).next
      let s := (s.setList i next).modify? next fun f => { f with prev := none }
      let s := splitLoop order block i s
      (some block, s.modify block fun f =>
        { f with status := allocatedFrame, next := none, prev := none, allocatedOrder := order })

/-- `buddy_allocate(order)`; `none` is the result `-1`. -/
def buddyAllocate (order : Nat) (s : Buddy) : Option Nat × Buddy :=
  if order > maxOrder then (none, s)
  else match firstOrder s (maxOrder + 1 - order) order with
    | none => (none, s)
    | some i => allocateAt order i s

/-! ## `buddy_free` -/

/-- The upper half of a merged block becomes an ordinary frame. -/
def clearUpper (i : Nat) (s : Buddy) : Buddy :=
  s.modify i fun f =>
    { f with status := belongedFrame, next := none, prev := none, allocatedOrder := -1 }

/-- The merge loop of `buddy_free`, with `n` orders left below
`MAX_ORDER`; returns the final order and block. -/
def mergeLoop : Nat → Nat → Nat → Buddy → Nat × Nat × Buddy
  | 0, order, block, s => (order, block, s)
  | n + 1, order, block, s =>
      let b := buddy block order
      if order < maxOrder ∧ b < totalFrame ∧ (s.frames b).status = order then
        let s := unlinkFree b order s
        if b < block then mergeLoop n (order + 1) b (clearUpper block s)
        else mergeLoop n (order + 1) block (clearUpper b s)
      else (order, block, s)

/-- `buddy_free(block_index)`. -/
def buddyFree (block : Nat) (s : Buddy) : Buddy :=
  if (s.frames block).status ≠ allocatedFrame then s
  else
    let order := (s.frames block).allocatedOrder.toNat
    let s := s.modify block fun f => { f with status := order }
    let (order, block, s) := mergeLoop (maxOrder - order) order block s
    pushFree block order s

end RpiKernel
