import RpiKernel.Process.Kernel
import RpiKernel.Vfs.Path

/-!
# RpiKernel.Process.Syscall

The operations that make, change and end processes: `thread_create`,
`thread_exec`, `fork`, `exec`, `mmap`, `open`, `close`, `chdir`, the page
fault handler, and `kill_zombies` with what it gives back.

What the file system answers is an argument of a call: which vnode a path
leads to, how large the file is and what it holds.
-/

namespace RpiKernel

namespace Kernel

/-! ## new threads -/

/-- `thread_create(start, filesize)`; the slot, `none` when there is no free
one.  The handlers of the signals below `SIGNAL_MAX` are reset; the files are
not. -/
def threadCreate (start filesize : Nat) : KernelM (Option Nat) := do
  match RpiKernel.threadCreate (← get).sched with
  | none => return none
  | some (t, s) =>
      modify fun k => { k with sched := s }
      let userSp ← kmalloc ustackSize
      let kernelSp ← kmalloc kstackSize
      let signalSp ← kmalloc frameSize
      let data ← kmalloc filesize
      let pgd ← kmalloc 0x1000
      clearTable pgd
      let handler := (← get).defaultHandler
      modifyProc t fun p => { p with
        vmaList := []
        userSp := userSp
        kernelSp := kernelSp
        signalSp := signalSp
        signalIsChecking := false
        data := data
        datasize := filesize
        currWorkingDir := ['/']
        context := { p.context with
          lr := start
          sp := (kernelSp + kstackSize) % 2 ^ 64
          fp := (kernelSp + kstackSize) % 2 ^ 64
          pgd := pgd }
        signalHandler := fun i => if i < signalMax then handler else p.signalHandler i
        sigcount := fun i => if i < signalMax then 0 else p.sigcount i }
      return some t

/-- The areas that every process gets besides those of its program. -/
def addFixedAreas (t : Nat) : KernelM Unit := do
  mmuAddVma t peripheralStart (peripheralEnd - peripheralStart) peripheralStart 0b011 false
  mmuAddVma t userSignalWrapperVa 0x2000 (virtToPhys (← get).handlerWrapper) 0b101 false
  mmuAddVma t userSignalStkstartVa frameSize (virtToPhys (← proc t).signalSp) 0b111 true

/-- The areas of a program's image and stack. -/
def addImageAreas (t : Nat) : KernelM Unit := do
  let p ← proc t
  mmuAddVma t userKernelBase p.datasize (virtToPhys p.data) 0b111 true
  mmuAddVma t (userStackBase - ustackSize) ustackSize (virtToPhys p.userSp) 0b111 true

/-- `thread_exec(data, filesize)`; `uart` is the vnode of `/dev/uart`. -/
def threadExec (data filesize : Nat) (uart : VnodeRef) : KernelM Unit := do
  match ← threadCreate data filesize with
  | none => failure
  | some t =>
      addImageAreas t
      addFixedAreas t
      modifyProc t fun p => { p with context := { p.context with
        pgd := virtToPhys p.context.pgd
        sp := userStackBase
        fp := userStackBase
        lr := userKernelBase } }
      let mem := (← get).bytes
      store (← proc t).data filesize fun i => mem (data + i)
      modify fun k => { k with sched := k.sched.setCurr t }
      for i in [0, 1, 2] do
        let f ← openNode uart 0
        modifyProc t fun p =>
          { p with fileDescriptorsTable := Function.update p.fileDescriptorsTable i f }

/-! ## fork -/

/-- The areas `fork` does not copy. -/
def skipped (v : Vma) : Prop :=
  v.virtAddr = userSignalWrapperVa ∨ v.virtAddr = peripheralStart ∨
    v.virtAddr = userSignalStkstartVa

instance (v : Vma) : Decidable (skipped v) := inferInstanceAs (Decidable (_ ∨ _))

/-- The second loop of `fork`: a handle for every handle of the parent. -/
def copyFiles (parent child : Nat) : List Nat → KernelM Unit
  | [] => return ()
  | i :: is => do
      let file := (← proc parent).fileDescriptorsTable i
      if file ≠ 0 then
        let copy ← kmallocRecord fileBytes
        modify fun k => { k with files := Function.update k.files copy (k.files file) }
        modifyProc child fun p =>
          { p with fileDescriptorsTable := Function.update p.fileDescriptorsTable i copy }
      copyFiles parent child is

/-- What `fork` does with the copy of an area: the image and the stack of the
child are replaced. -/
def adoptArea (child virtAddr newAlloc : Nat) : KernelM Unit := do
  if virtAddr = userKernelBase then
    kfree (← proc child).data
    modifyProc child fun p => { p with data := newAlloc }
  else if virtAddr = userStackBase - ustackSize then
    kfree (← proc child).userSp
    modifyProc child fun p => { p with userSp := newAlloc }

/-- The third loop of `fork`: a copy of every area. -/
def copyAreas (child : Nat) : List Vma → KernelM Unit
  | [] => return ()
  | v :: vs => do
      if ¬ skipped v then
        let newAlloc ← kmalloc v.areaSize
        mmuAddVma child v.virtAddr v.areaSize (virtToPhys newAlloc) v.rwx true
        memcpy newAlloc (physToVirt v.physAddr) v.areaSize
        adoptArea child v.virtAddr newAlloc
      copyAreas child vs

/-- `fork`, up to its return in the parent; `cpu` is what `store_context` finds
in the registers.  Without a free slot it writes through the `NULL` that
`thread_create` returned, and without a block for the copy of an area through that of `kmalloc`: to
address 0 of the program, which is not followed. -/
def fork (cpu : ThreadContext) : KernelM Nat := do
  let parent ← currThread
  let p ← proc parent
  match ← threadCreate p.data p.datasize with
  | none => failure
  | some child =>
      modifyProc child fun c => { c with
        signalHandler := fun i => if i ≤ signalMax then p.signalHandler i else c.signalHandler i }
      copyFiles parent child (List.range (maxFd + 1))
      copyAreas child p.vmaList
      addFixedAreas child
      let c ← proc child
      memcpy c.kernelSp p.kernelSp kstackSize
      modifyProc parent fun p => { p with context := { cpu with pgd := p.context.pgd } }
      modifyProc child fun c => { c with
        context := { cpu with
          pgd := virtToPhys c.context.pgd
          fp := (cpu.fp + c.kernelSp + (2 ^ 64 - p.kernelSp)) % 2 ^ 64
          sp := (cpu.sp + c.kernelSp + (2 ^ 64 - p.kernelSp)) % 2 ^ 64 } }
      return child

/-! ## exec -/

/-- A file as `exec` finds it. -/
structure ExecFile where
  node : VnodeRef
  size : Nat
  content : Nat → UInt8

/-- `getsize`; the devices answer -1. -/
def getsize (f : ExecFile) : Nat :=
  match f.node.fOps with
  | .tmpfs | .initramfs => f.size
  | .uart | .framebuffer => 2 ^ 64 - 1

/-- `vfs_read` from a handle that was just opened. -/
def vfsRead (f : ExecFile) (handle : FileHandle) (buf len : Nat) : KernelM Unit :=
  match f.node.fOps with
  | .tmpfs | .initramfs =>
      let n := if (len + handle.fPos) % 2 ^ 64 > f.size then (f.size + (2 ^ 64 - handle.fPos)) % 2 ^ 64
        else len
      store buf n fun i => f.content (handle.fPos + i)
  | .uart => store buf len f.content
  | .framebuffer => return ()

/-- `exec`; `file` is what its path leads to.  When it leads nowhere the vnode
is read from an uninitialised variable. -/
def exec (file : Option ExecFile) : KernelM Unit := do
  let t ← currThread
  mmuDelAllVma t
  match file with
  | none => failure
  | some f =>
      let datasize := getsize f % 2 ^ 32
      -- the first block is dropped
      let _ ← kmalloc datasize
      let data ← kmalloc datasize
      let userSp ← kmalloc ustackSize
      let signalSp ← kmalloc frameSize
      modifyProc t fun p => { p with
        datasize := datasize, data := data, userSp := userSp, signalSp := signalSp }
      let pgd := (← proc t).context.pgd
      onTables (mmuFreePageTables 2 pgd)
      clearTable (physToVirt pgd)
      addImageAreas t
      addFixedAreas t
      let handle ← openNode f.node 0
      vfsRead f ((← get).files handle) data datasize
      vfsClose handle
      let handler := (← get).defaultHandler
      modifyProc t fun p => { p with
        signalHandler := fun i => if i ≤ signalMax then handler else p.signalHandler i }

/-! ## mmap -/

/-- The area meets `[addr, addr + len)`, in 64 bits. -/
def overlaps (addr len : Nat) (v : Vma) : Prop :=
  ¬ (v.virtAddr ≥ (addr + len) % 2 ^ 64 ∨ (v.virtAddr + v.areaSize) % 2 ^ 64 ≤ addr)

instance (addr len : Nat) (v : Vma) : Decidable (overlaps addr len v) :=
  inferInstanceAs (Decidable (¬ _))

/-- The access rights of an area from those that `mmap` was asked for. -/
def protRwx (prot : Nat) : Nat :=
  (if prot &&& 1 ≠ 0 then 0b001 else 0) ||| (if prot &&& 2 ≠ 0 then 0b010 else 0) |||
    (if prot &&& 4 ≠ 0 then 0b100 else 0)

/-- `mmap`, which calls itself at most `n` times.  Without a block for the area it clears address 0 of
the program, which is not followed. -/
def mmap : Nat → Nat → Nat → Nat → KernelM Nat
  | 0, _, _, _ => failure
  | n + 1, addr, len, prot => do
      let t ← currThread
      let len := roundPage len
      let addr := roundPage addr
      match (← proc t).vmaList.find? fun v => overlaps addr len v with
      | some v => mmap n ((v.virtAddr + v.areaSize) % 2 ^ 64) len prot
      | none =>
          let ptr ← kmalloc len
          store ptr len fun _ => 0
          mmuAddVma t addr len (virtToPhys ptr) (protRwx prot) true
          return addr

/-! ## files and directories -/

/-- What `vfs_open` finds at a path: nothing, no directory to create the file
in, a vnode, or a file that it creates. -/
inductive OpenTarget where
  | missing
  | noDirectory
  | found (node : VnodeRef)
  | created

/-- `tmpfs_create_vnode`: a vnode, an inode and a page of data. -/
def tmpfsCreateVnode : KernelM Nat := do
  let v ← kmallocRecord vnodeBytes
  let inode ← kmallocRecord tmpfsInodeBytes
  let data ← kmalloc 0x1000
  modify fun k => { k with
    misc := (v, vnodeBytes) :: (inode, tmpfsInodeBytes) :: (if data = 0 then [] else [(data, 0x1000)])
      ++ k.misc }
  return v

/-- `vfs_open`; `none` is its return value -1. -/
def vfsOpen (target : OpenTarget) (flags : Nat) : KernelM (Option Nat) :=
  match target with
  | .missing => failure
  | .noDirectory => return none
  | .found node => return some (← openNode node flags)
  | .created => do
      let v ← tmpfsCreateVnode
      return some (← openNode ⟨v, .tmpfs⟩ flags)

/-- `open`; `none` is its return value -1. -/
def openFile (target : OpenTarget) (flags : Nat) : KernelM (Option Nat) := do
  let t ← currThread
  let table := (← proc t).fileDescriptorsTable
  match (List.range maxFd).find? fun i => table i = 0 with
  | none => return none
  | some i =>
      match ← vfsOpen target flags with
      | none => return none
      | some f =>
          modifyProc t fun p =>
            { p with fileDescriptorsTable := Function.update p.fileDescriptorsTable i f }
          return some i

/-- `close`; `false` is its return value -1.  An `fd` outside of the table is
not followed. -/
def close (fd : Int) : KernelM Bool := do
  if fd < 0 ∨ fd > maxFd then failure
  let t ← currThread
  let f := (← proc t).fileDescriptorsTable fd.toNat
  if f = 0 then
    return false
  else
    vfsClose f
    modifyProc t fun p =>
      { p with fileDescriptorsTable := Function.update p.fileDescriptorsTable fd.toNat 0 }
    return true

/-- `chdir`.  A path that does not fit `abs_path` is not followed. -/
def chdir (path : List Char) : KernelM Unit := do
  let t ← currThread
  let absPath := getAbsolutePath path (← proc t).currWorkingDir
  if path.length ≥ maxPathName ∨ absPath.length ≥ maxPathName then failure
  modifyProc t fun p => { p with currWorkingDir := absPath }

/-! ## signals and death -/

/-- `signal_register`. -/
def signalRegister (signal : Int) (handler : Nat) : KernelM Unit := do
  if signal > signalMax ∨ signal < 0 then
    return ()
  else
    modifyProc (← currThread) fun p =>
      { p with signalHandler := Function.update p.signalHandler signal.toNat handler }

/-- A change of the scheduler's state. -/
def onSched (f : Sched → Option Sched) : KernelM Unit := fun k =>
  (f k.sched).map fun s => ((), { k with sched := s })

/-! ## page faults -/

/-- The page attributes for the access rights of an area. -/
def faultFlag (rwx : Nat) : Nat :=
  (if rwx &&& (0b1 <<< 2) = 0 then pdUnx else 0) ||| (if rwx &&& (0b1 <<< 1) = 0 then pdRdonly else 0) |||
    (if rwx &&& (0b1 <<< 0) ≠ 0 then pdUkAccess else 0)

/-- The test of `mmu_memfail_abort_handle` for an area. -/
def faultHits (far : Nat) (v : Vma) : Prop :=
  v.virtAddr ≤ far ∧ (v.virtAddr + v.areaSize) % 2 ^ 64 ≥ far

instance (far : Nat) (v : Vma) : Decidable (faultHits far v) := inferInstanceAs (Decidable (_ ∧ _))

/-- `TF_LEVEL0` to `TF_LEVEL3`. -/
def translationFaults : List Nat := [0b000100, 0b000101, 0b000110, 0b000111]

/-- `mmu_memfail_abort_handle`, up to the call of `schedule` in `thread_exit`;
whether it gets there. -/
def memfailAbort (far iss : Nat) : KernelM Bool := do
  let t ← currThread
  let p ← proc t
  match p.vmaList.find? fun v => faultHits far v with
  | none =>
      onSched fun s => some (s.setStatus t .zombie)
      return true
  | some v =>
      if iss &&& 0x3f ∈ translationFaults then
        let addrOffset := far - v.virtAddr
        let addrOffset := addrOffset - addrOffset % 0x1000
        onTables (mapOnePage (physToVirt p.context.pgd) ((v.virtAddr + addrOffset) % 2 ^ 64)
          ((v.physAddr + addrOffset) % 2 ^ 64) (faultFlag v.rwx))
        return false
      else
        onSched fun s => some (s.setStatus t .zombie)
        return true

/-- `mmu_memfail_abort_handle`. -/
def mmuMemfailAbortHandle (n far iss : Nat) : KernelM Unit := do
  if ← memfailAbort far iss then
    onSched (schedule n)

/-! ## reaping -/

/-- The loop of `kill_zombies` over the files of a thread. -/
def closeFiles (t : Nat) : List Nat → KernelM Unit
  | [] => return ()
  | i :: is => do
      let file := (← proc t).fileDescriptorsTable i
      if file ≠ 0 then
        vfsClose file
      closeFiles t is

/-- What `kill_zombies` does with a zombie.  It is taken off the queue first;
nothing in between reads the queue. -/
def reap (t : Nat) : KernelM Unit := do
  onTables (mmuFreePageTables 2 (← proc t).context.pgd)
  mmuDelAllVma t
  closeFiles t (List.range maxFd)
  kfree (← proc t).kernelSp
  kfree (physToVirt (← proc t).context.pgd)
  onSched fun s => some (reapThread t s)

/-- The loop of `kill_zombies`. -/
def killZombiesLoop : Nat → Option Nat → KernelM Unit
  | _, none => return ()
  | 0, some _ => failure
  | n + 1, some th => do
      let nextPtr := (← get).sched.next th
      if (← get).sched.status th = .zombie then
        reap th
      killZombiesLoop n nextPtr

/-- `kill_zombies`. -/
def killZombies (n : Nat) : KernelM Unit := do
  killZombiesLoop n (← get).sched.rqHead

end Kernel

end RpiKernel
