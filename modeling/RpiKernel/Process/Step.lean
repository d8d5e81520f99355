import RpiKernel.Process.Syscall
import RpiKernel.Sched.Step
import RpiKernel.Lib.Runs

/-!
# RpiKernel.Process.Step

The kernel from the moment the first program runs: system calls and page faults
of the current thread, the scheduler, the idle thread's `kill_zombies`, and the
blocks that the rest of the kernel takes and gives back.
-/

namespace RpiKernel

/-- One step. -/
inductive KernelAct where
  | fork (cpu : ThreadContext)
  | exec (file : Option Kernel.ExecFile)
  | mmap (addr len prot : Nat)
  | openFile (target : Kernel.OpenTarget) (flags : Nat)
  | close (fd : Int)
  | chdir (path : List Char)
  | fault (far iss : Nat)
  | exit
  | kill (pid : Int)
  | signalDefault
  | schedule
  | killZombies
  | take (size : Nat)
  | give (ptr size : Nat)

namespace Kernel

/-- The rest of the kernel asks for a block; no size there comes near
`maxRequest`. -/
def take (size : Nat) : KernelM Unit := do
  if size > maxRequest then failure
  let p ← kmalloc size
  if p ≠ 0 then
    modify fun k => { k with misc := (p, size) :: k.misc }

/-- The rest of the kernel frees one of its blocks. -/
def give (ptr size : Nat) : KernelM Unit := do
  if (ptr, size) ∉ (← get).misc then failure
  kfree ptr
  modify fun k => { k with misc := k.misc.erase (ptr, size) }

end Kernel

namespace KernelAct

/-- Idle makes no system calls, and only idle reaps. -/
def Enabled (k : Kernel) : KernelAct → Prop
  | schedule | take _ | give _ _ => True
  | killZombies => k.sched.currThread = 0
  | _ => k.sched.currThread ≠ 0

instance (k : Kernel) (a : KernelAct) : Decidable (a.Enabled k) := by
  cases a <;> unfold KernelAct.Enabled <;> infer_instance

/-- The step; its loops may make `n` passes. -/
def perform (n : Nat) (k : Kernel) : KernelAct → Option Kernel
  | fork cpu => (Kernel.fork cpu k).map Prod.snd
  | exec file => (Kernel.exec file k).map Prod.snd
  | mmap addr len prot => (Kernel.mmap n addr len prot k).map Prod.snd
  | openFile target flags => (Kernel.openFile target flags k).map Prod.snd
  | close fd => (Kernel.close fd k).map Prod.snd
  | chdir path => (Kernel.chdir path k).map Prod.snd
  | fault far iss => (Kernel.mmuMemfailAbortHandle n far iss k).map Prod.snd
  | exit => (Kernel.onSched (fun s => some (RpiKernel.exit s)) k).map Prod.snd
  | kill pid => (Kernel.onSched (RpiKernel.kill n pid) k).map Prod.snd
  | signalDefault => (Kernel.onSched (signalDefaultHandler n) k).map Prod.snd
  | schedule => (Kernel.onSched (RpiKernel.schedule n) k).map Prod.snd
  | killZombies => (Kernel.killZombies n k).map Prod.snd
  | take size => (Kernel.take size k).map Prod.snd
  | give ptr size => (Kernel.give ptr size k).map Prod.snd

end KernelAct

/-- A step that is possible and comes back. -/
def kernelStep (k : Kernel) (a : Nat × KernelAct) : Option Kernel :=
  if a.2.Enabled k then a.2.perform a.1 k else none

/-- After `init_thread_sched`: the slots but the first are free, no thread has an
area or a file, and the blocks of the rest of the kernel are its own. -/
structure Kernel.Initial (k : Kernel) : Prop where
  sched : initThreadSched staticSched = some k.sched
  areas : ∀ t, (k.procs t).vmaList = []
  files : ∀ t i, (k.procs t).fileDescriptorsTable i = 0
  settled : k.alloc.Settled
  misc : Custody.Holds (Custody.outside k.alloc.Region k.misc) k.alloc.Region k.misc
  oom : k.oom = false

/-- The first program was started. -/
def Kernel.Booted (data filesize : Nat) (uart : VnodeRef) (k : Kernel) : Prop :=
  ∃ k₀ : Kernel, k₀.Initial ∧ Kernel.threadExec data filesize uart k₀ = some ((), k)

end RpiKernel
