import RpiKernel.Mmu.PageTable
import RpiKernel.Sched.Thread
import RpiKernel.Vfs.Node

/-!
# RpiKernel.Process.Kernel

The state of the kernel as its processes see it: the scheduler and the
allocator, the rest of every `thread_t`, and kernel memory.

Kernel memory is kept by use: page tables are words, the contents of areas
and stacks are bytes, file handles and area records are records at their
addresses.  A pointer is its address and 0 is `NULL`.  The kernel maps the
physical addresses below `kernelMapSize`; what happens after an access
outside of it, or through `NULL`, is not followed (`none`).
-/

namespace RpiKernel

/-! ## constants -/

/-- `USTACK_SIZE`, `KSTACK_SIZE`, `SIGNAL_MAX` and `MAX_FD`. -/
def ustackSize : Nat := 0x4000
def kstackSize : Nat := 0x4000
def signalMax : Nat := 64
def maxFd : Nat := 16

/-- `USER_KERNEL_BASE`, `USER_STACK_BASE`, `USER_SIGNAL_WRAPPER_VA` and
`USER_SIGNAL_STKSTART_VA`. -/
def userKernelBase : Nat := 0
def userStackBase : Nat := 0xfffffffff000
def userSignalWrapperVa : Nat := 0xffffffff9000
def userSignalStkstartVa : Nat := 0xffffffff8000

/-- Physical memory up to here is mapped for the kernel. -/
def kernelMapSize : Nat := 0x7f000000

/-- `sizeof(vm_area_struct_t)`. -/
def vmaBytes : Nat := 56

/-! ## threads -/

/-- `vm_area_struct_t`; `addr` is where the record is, and the list is a
list. -/
structure Vma where
  addr : Nat
  virtAddr : Nat
  physAddr : Nat
  areaSize : Nat
  rwx : Nat
  isAlloced : Bool
deriving Repr, DecidableEq

/-- `thread_context_t`; `x i` is register `x19 + i`. -/
structure ThreadContext where
  x : Nat → Nat
  fp : Nat
  lr : Nat
  sp : Nat
  pgd : Nat

/-- What `Thread` leaves out of a `thread_t`. -/
structure Process where
  context : ThreadContext
  data : Nat
  datasize : Nat
  userSp : Nat
  kernelSp : Nat
  signalSp : Nat
  signalHandler : Nat → Nat
  sigcount : Nat → Int
  currSignalHandler : Nat
  signalIsChecking : Bool
  signalSavedContext : ThreadContext
  vmaList : List Vma
  currWorkingDir : List Char
  fileDescriptorsTable : Nat → Nat

/-- The kernel.  `defaultHandler` and `handlerWrapper` are where the linker put
`signal_default_handler` and `signal_handler_wrapper`.  `misc` and `oom` are
not in the source: the blocks in use outside of threads, and whether `kmalloc`
has ever returned `NULL`. -/
structure Kernel extends TableMem where
  bytes : Nat → UInt8
  sched : Sched
  procs : Nat → Process
  files : Nat → FileHandle
  defaultHandler : Nat
  handlerWrapper : Nat
  misc : List (Nat × Nat)
  oom : Bool

/-- A piece of kernel code: its result and the state after it, `none` when it
does not come back or is not followed further. -/
abbrev KernelM (α : Type) := StateT Kernel Option α

namespace Kernel

/-! ## memory -/

/-- `n` bytes at `p` are in the kernel's map. -/
def Mapped (p n : Nat) : Prop :=
  n = 0 ∨ (0xffff000000000000 ≤ p ∧ p + n ≤ 0xffff000000000000 + kernelMapSize)

instance (p n : Nat) : Decidable (Mapped p n) := inferInstanceAs (Decidable (_ ∨ _))

/-- `kmalloc(size)`; its argument has 32 bits. -/
def kmalloc (size : Nat) : KernelM Nat := fun k =>
  (RpiKernel.kmalloc (size % 2 ^ 32) k.alloc).map fun r =>
    (r.1, { k with alloc := r.2, oom := k.oom || r.1 == 0 })

/-- `kmalloc(size)` for a record that is written at once. -/
def kmallocRecord (size : Nat) : KernelM Nat := do
  let p ← kmalloc size
  if p = 0 then failure
  return p

/-- `kfree(ptr)`. -/
def kfree (ptr : Nat) : KernelM Unit := fun k =>
  (RpiKernel.kfree ptr k.alloc).map fun a => ((), { k with alloc := a })

/-- Stores `f i` at `p + i` for every `i < n`. -/
def store (p n : Nat) (f : Nat → UInt8) : KernelM Unit := do
  if ¬ Mapped p n then failure
  modify fun k => { k with bytes := fun x => if p ≤ x ∧ x < p + n then f (x - p) else k.bytes x }

/-- The bytes after the first `n` bytes at `src` were copied to `dst`, one
after the other. -/
def copied (dst src : Nat) (mem : Nat → UInt8) : Nat → Nat → UInt8
  | 0 => mem
  | n + 1 =>
      let mem' := copied dst src mem n
      Function.update mem' (dst + n) (mem' (src + n))

/-- `utils_memcpy(dst, src, len)`; its `len` has 32 bits. -/
def memcpy (dst src len : Nat) : KernelM Unit := do
  let n := len % 2 ^ 32
  if ¬ Mapped dst n ∨ ¬ Mapped src n then failure
  modify fun k => { k with bytes := copied dst src k.bytes n }

/-- `utils_memset(p, 0, 0x1000)` of a page table. -/
def clearTable (p : Nat) : KernelM Unit := do
  if ¬ Mapped p 0x1000 then failure
  modify fun k => { k with words := zeroPage p k.words }

/-- A function on the page tables. -/
def onTables (f : TableMem → Option TableMem) : KernelM Unit := fun k =>
  (f k.toTableMem).map fun m => ((), { k with toTableMem := m })

/-- Changes the fields of one thread. -/
def modifyProc (t : Nat) (f : Process → Process) : KernelM Unit :=
  modify fun k => { k with procs := Function.update k.procs t (f (k.procs t)) }

/-- The fields of a thread. -/
def proc (t : Nat) : KernelM Process := return (← get).procs t

/-- `curr_thread`. -/
def currThread : KernelM Nat := return (← get).sched.currThread

/-! ## areas -/

/-- Rounding up to a page, in 64 bits. -/
def roundPage (x : Nat) : Nat :=
  if x % 0x1000 ≠ 0 then (x + (0x1000 - x % 0x1000)) % 2 ^ 64 else x

/-- `mmu_add_vma`. -/
def mmuAddVma (t va size pa rwx : Nat) (isAlloced : Bool) : KernelM Unit := do
  let newArea ← kmallocRecord vmaBytes
  modifyProc t fun p =>
    { p with vmaList := p.vmaList ++ [⟨newArea, va, pa, roundPage size, rwx, isAlloced⟩] }

/-- The loop of `mmu_del_all_vma`. -/
def delVmas : List Vma → KernelM Unit
  | [] => return ()
  | v :: vs => do
      if v.isAlloced then
        kfree (physToVirt v.physAddr)
      kfree v.addr
      delVmas vs

/-- `mmu_del_all_vma`. -/
def mmuDelAllVma (t : Nat) : KernelM Unit := do
  delVmas (← proc t).vmaList
  modifyProc t fun p => { p with vmaList := [] }

/-! ## files -/

/-- The end of `vfs_open`: a handle for the vnode that was found. -/
def openNode (node : VnodeRef) (flags : Nat) : KernelM Nat := do
  let target ← kmallocRecord fileBytes
  modify fun k => { k with
    files := Function.update k.files target { openHandle node (k.files target) with flags := flags } }
  return target

/-- `vfs_close`: every file system frees the handle. -/
def vfsClose (file : Nat) : KernelM Unit := kfree file

end Kernel

end RpiKernel
