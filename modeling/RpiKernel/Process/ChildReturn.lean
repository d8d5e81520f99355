import RpiKernel.Process.Copying

/-!
# RpiKernel.Process.ChildReturn

The return of `fork` in the child.  The child has a copy of its parent's kernel stack, and in it the
argument `tpf` of `fork`, which points to the parent's frame still.  So `tpf->x0 = 0`, the first thing it
does, is a store to the stack of the parent, wherever that is by then.

`Children` is the kernel with what every child has for `tpf`.  A run is in order when its forks are, when
no area goes without memory, and when the stack that a child stores to is still the one of a
thread (`Children.InOrder`); then threads keep their memory (`Children.Ok`).
-/

namespace RpiKernel

open Custody Runs

/-! ## the code -/

/-- `sizeof(trapframe_t)`. -/
def trapframeBytes : Nat := 34 * 8

/-- The kernel, and the argument of `fork` in the children that did not return from it yet. -/
structure Children where
  kernel : Kernel
  tpf : Nat → Option Nat

/-- A step of the kernel, where `fork` is called with `tpf`, or the current thread returns from `fork` as a
child. -/
inductive ChildAct where
  | step (n : Nat) (a : KernelAct) (tpf : Nat)
  | childReturns

/-- The frame lies on the kernel stack of the thread. -/
def Process.HasFrame (p : Process) (tpf : Nat) : Prop :=
  p.kernelSp ≤ tpf ∧ tpf + trapframeBytes ≤ p.kernelSp + kstackSize

instance (p : Process) (tpf : Nat) : Decidable (p.HasFrame tpf) := inferInstanceAs (Decidable (_ ∧ _))

namespace Children

/-- A child does nothing of its own before it returns from `fork`, and the frame is the caller's. -/
def Enabled (c : Children) (tpf : Nat) : KernelAct → Prop
  | .schedule | .take _ | .give _ _ => True
  | .fork _ => c.tpf c.kernel.sched.currThread = none ∧ (c.kernel.procs c.kernel.sched.currThread).HasFrame tpf
  | _ => c.tpf c.kernel.sched.currThread = none

instance (c : Children) (tpf : Nat) : (a : KernelAct) → Decidable (c.Enabled tpf a)
  | .schedule | .take _ | .give _ _ => instDecidableTrue
  | .fork _ => inferInstanceAs (Decidable (c.tpf _ = none ∧ Process.HasFrame _ _))
  | .exec _ | .mmap _ _ _ | .openFile _ _ | .close _ | .chdir _ | .fault _ _ | .exit | .kill _
  | .signalDefault | .killZombies => inferInstanceAs (Decidable (c.tpf _ = none))

/-- What the children have for `tpf` after the step. -/
def passed (c : Children) (tpf : Nat) : KernelAct → Nat → Option Nat
  | .fork _ =>
      match RpiKernel.threadCreate c.kernel.sched with
      | some (child, _) => Function.update c.tpf child (some tpf)
      | none => c.tpf
  | _ => c.tpf

/-- One step. -/
def step (c : Children) : ChildAct → Option Children
  | .step n a tpf =>
      if c.Enabled tpf a then (kernelStep c.kernel (n, a)).map fun k => ⟨k, c.passed tpf a⟩ else none
  | .childReturns => do
      let tpf ← c.tpf c.kernel.sched.currThread
      -- `tpf->x0 = 0`
      let (_, k) ← Kernel.store tpf 8 (fun _ => 0) c.kernel
      return ⟨k, Function.update c.tpf c.kernel.sched.currThread none⟩

/-! ## runs in order -/

/-- Forks are in order and areas have memory; and the stack where a child stores its 0 is one of a thread. -/
def InOrder (c : Children) : ChildAct → Prop
  | .step _ a _ => Kernel.ForksWell c.kernel a ∧ a.Backs c.kernel ∧ a.Granted c.kernel
  | .childReturns => ∀ tpf, c.tpf c.kernel.sched.currThread = some tpf →
      ∃ t, Kernel.Living c.kernel t ∧ (c.kernel.procs t).HasFrame tpf

variable {c c' : Children} {k₀ : Kernel} {a : ChildAct} {n p t u tpf data filesize : Nat} {uart : VnodeRef}

/-- The memory after the child's store. -/
def zeroed (tpf : Nat) (mem : Nat → UInt8) (x : Nat) : UInt8 := if tpf ≤ x ∧ x < tpf + 8 then 0 else mem x

theorem step_step {a : KernelAct} (h : c.step (.step n a tpf) = some c') :
    c.Enabled tpf a ∧ kernelStep c.kernel (n, a) = some c'.kernel := by
  unfold step at h
  dsimp only at h
  split at h
  next hen =>
    obtain ⟨k, hk, rfl⟩ := Option.map_eq_some_iff.1 h
    exact ⟨hen, hk⟩
  next => contradiction

theorem step_of {k : Kernel} {a : KernelAct} (hen : c.Enabled tpf a) (hk : kernelStep c.kernel (n, a) = some k) :
    c.step (.step n a tpf) = some ⟨k, c.passed tpf a⟩ := by
  unfold step
  dsimp only
  rw [if_pos hen, hk, Option.map_some]

theorem step_childReturns (h : c.step .childReturns = some c') :
    ∃ tpf, c.tpf c.kernel.sched.currThread = some tpf ∧ Kernel.Mapped tpf 8 ∧
      c'.kernel = { c.kernel with bytes := zeroed tpf c.kernel.bytes } := by
  unfold step at h
  obtain ⟨tpf, htpf, h⟩ := Option.bind_eq_some_iff.1 h
  obtain ⟨⟨_, k⟩, hstore, h⟩ := Option.bind_eq_some_iff.1 h
  obtain ⟨hmap, hr⟩ := Kernel.store_some.1 hstore
  obtain ⟨-, rfl⟩ := Prod.mk.inj hr
  obtain rfl := Option.some.inj h
  exact ⟨tpf, htpf, hmap, rfl⟩

theorem childReturns_of (htpf : c.tpf c.kernel.sched.currThread = some tpf) (hm : Kernel.Mapped tpf 8) :
    c.step .childReturns = some ⟨{ c.kernel with bytes := zeroed tpf c.kernel.bytes },
      Function.update c.tpf c.kernel.sched.currThread none⟩ := by
  have hstore : Kernel.store tpf 8 (fun _ => 0) c.kernel =
      some (⟨⟩, { c.kernel with bytes := zeroed tpf c.kernel.bytes }) := Kernel.store_some.2 ⟨hm, rfl⟩
  unfold step
  dsimp only
  rw [htpf, Option.bind_eq_bind, Option.bind_some, hstore]
  rfl

/-! ## what is kept -/

/-- Threads own the memory of their areas, which are as the kernel makes them. -/
structure Ok (c : Children) : Prop where
  partitioned : Kernel.Partitioned c.kernel
  plain : ∀ t, ∀ v ∈ (c.kernel.procs t).vmaList, Kernel.Plain v

/-- Who owns what does not depend on the bytes. -/
theorem partitioned_zeroed (h : Kernel.Partitioned c.kernel) :
    Kernel.Partitioned { c.kernel with bytes := zeroed tpf c.kernel.bytes } where
  settled := h.settled
  shares := h.shares
  tree := h.tree
  last := h.last
  idle := h.idle
  sched := h.sched
  areas := h.areas
  idleAreas := h.idleAreas

theorem Ok.next (h : c.Ok) (hg : c.InOrder a) (hs : c.step a = some c') : c'.Ok := by
  cases a with
  | step n a tpf =>
      obtain ⟨hforks, hbacks, -⟩ := hg
      obtain ⟨-, hk⟩ := step_step hs
      exact ⟨h.partitioned.next hforks hbacks hk, Kernel.madeAreas_plain.next h.plain hk⟩
  | childReturns =>
      obtain ⟨tpf, -, -, hk⟩ := step_childReturns hs
      refine ⟨hk ▸ partitioned_zeroed h.partitioned, ?_⟩
      rw [hk]
      exact h.plain

/-- The kernel when the first program was started. -/
def boot (k₀ : Kernel) : Children := ⟨k₀, fun _ => none⟩

theorem Ok.reach (hb : k₀.Booted data filesize uart) (hsize : filesize ≤ maxRequest) (hoom : k₀.oom = false)
    (hr : Reach step InOrder (boot k₀) c) : c.Ok :=
  hr.inv ⟨hb.partitioned hsize hoom, Kernel.madeAreas_plain.booted hb⟩ fun _ _ _ hi hg hs => hi.next hg hs

end Children

end RpiKernel
