import RpiKernel.Process.Areas
import RpiKernel.Process.Dispatcher
import RpiKernel.Process.ExecBlocks

/-!
# RpiKernel.Process.ExecFailure

`exec` of a path that leads to no program.

`exec` deletes the old areas before it looks at the path, and it does not look
at what `vfs_lookup` returns.  So it never fails: it does not come back, or the
program goes on in a new image, with 0 (`exec_neverFails`).
-/

namespace RpiKernel

/-! ## the file behind a path -/

/-- The path that `exec` looks for.  `strcpy` puts `name` into `abs_path`, where a
longer one has no room. -/
def execPath (name currWorkingDir : List Char) : Option (List Char) :=
  if name.length ≥ maxPathName then none else some (getAbsolutePath name currWorkingDir)

namespace Vfs

/-- The file at a vnode; `received` is what the UART gets. -/
def execFile (received : Nat → UInt8) (node : Nat) (s : Vfs) : Kernel.ExecFile :=
  match (s.vnodes node).fOps with
  | .tmpfs => ⟨⟨node, .tmpfs⟩, s.tmpfsGetsize node, fun i => s.mem ((s.inode node).data + i)⟩
  | .initramfs =>
      ⟨⟨node, .initramfs⟩, s.initramfsGetsize node, fun i => s.mem ((s.ramInode node).data + i)⟩
  | ops => ⟨⟨node, ops⟩, 0, received⟩

/-- What `exec` takes for the file.  When `vfs_lookup` fails, `target_file` is
what was there before, `stale`. -/
def execTarget (n : Nat) (received : Nat → UInt8) (stale : Option Kernel.ExecFile)
    (name currWorkingDir : List Char) (s : Vfs) : Option Kernel.ExecFile :=
  match execPath name currWorkingDir with
  | none => none
  | some absPath =>
      match s.vfsLookup n absPath with
      | none => none
      | some none => stale
      | some (some node) => some (s.execFile received node)

/-- The vnode is a file with contents, neither a directory nor a device. -/
def HasContents (s : Vfs) (node : Nat) : Prop :=
  match (s.vnodes node).fOps with
  | .tmpfs => (s.inode node).type = .file
  | .initramfs => (s.ramInode node).type = .file
  | .uart | .framebuffer => False

/-- The path leads to a file whose contents can be read. -/
def Readable (s : Vfs) (n : Nat) (name currWorkingDir : List Char) : Prop :=
  ∃ absPath node, execPath name currWorkingDir = some absPath ∧
    s.vfsLookup n absPath = some (some node) ∧ s.HasContents node

variable {s : Vfs} {n : Nat} {received : Nat → UInt8} {stale : Option Kernel.ExecFile}
  {name cwd : List Char} {f : Kernel.ExecFile}

/-- What is taken for the file of a path that leads to none: a directory, a
device, or what was there before. -/
theorem execTarget_some (h : s.execTarget n received stale name cwd = some f)
    (hname : ¬ s.Readable n name cwd) :
    stale = some f ∨ ∃ node, ¬ s.HasContents node ∧ f = s.execFile received node := by
  unfold execTarget at h
  split at h
  next => cases h
  next absPath hpath =>
    split at h
    next => cases h
    next => exact Or.inl h
    next node hnode =>
      have hfile : ¬ s.HasContents node := fun hf => hname ⟨absPath, node, hpath, hnode, hf⟩
      exact Or.inr ⟨node, hfile, (Option.some.inj h).symm⟩

end Vfs

/-! ## what a call returns -/

namespace CallM

variable {α β : Type} {m : CallM α} {f : α → CallM β} {k k' : Kernel} {b : β}

theorem result_bind : ((m >>= f) k).2 = some (b, k') ↔
    ∃ a k₁, (m k).2 = some (a, k₁) ∧ (f a k₁).2 = some (b, k') := by
  change (CallM.bind m f k).2 = some (b, k') ↔ _
  unfold CallM.bind
  split
  next l h => simp [h]
  next l a k₁ h => simp [h]

/-- Accesses in bounds change nothing. -/
theorem result_accessAll {l : List Access} (h : Bounded (accessAll l)) (k : Kernel) :
    (accessAll l k).2 = some ((), k) := by
  induction l with
  | nil => rfl
  | cons a l ih =>
      have ha : a.InBounds := h k a (mem_access_bind a _)
      have hlog (k : Kernel) : (accessAll (a :: l) k).1 = a :: (accessAll l k).1 := by
        simp [accessAll, Bind.bind, CallM.bind, access, ha]
      have hl : Bounded (accessAll l) := fun k b hb => h k b (hlog k ▸ List.mem_cons_of_mem a hb)
      refine result_bind.2 ⟨(), k, ?_, ih hl⟩
      rw [access, if_pos ha]

/-- They can be left out. -/
theorem result_accessAll_bind {l : List Access} (h : Bounded (accessAll l)) (f : Unit → CallM α) (k : Kernel) :
    ((accessAll l >>= f) k).2 = (f () k).2 := by
  change (CallM.bind (accessAll l) f k).2 = _
  have hr := result_accessAll h k
  unfold CallM.bind
  split
  next hl => simp [hl] at hr
  next hl =>
    rw [hl] at hr
    obtain ⟨-, rfl⟩ := Prod.mk.inj (Option.some.inj hr)
    rfl

end CallM

open CallM

variable {env : Answers} {tpf tpf' : Trapframe} {k k' : Kernel}

/-- The registers that `exec` leaves. -/
def Trapframe.enter (tpf : Trapframe) : Trapframe :=
  { tpf with elrEl1 := BitVec.ofNat 64 userKernelBase, spEl0 := BitVec.ofNat 64 userStackBase, x0 := 0 }

theorem sync64Router_exec (hcall : tpf.x8.toNat = 3) :
    (sync64Router env tpf k).2 = some (tpf', k') ↔
      tpf' = tpf.enter ∧ Kernel.exec env.execFile k = some ((), k') := by
  have hrun : sync64Router env tpf = Call.exec env.execFile >>= fun _ => pure tpf.enter := by
    unfold sync64Router
    simp only [hcall]
    rfl
  rw [hrun, result_bind]
  constructor
  case mp =>
    rintro ⟨⟨⟩, k₁, hexec, hpure⟩
    obtain ⟨rfl, rfl⟩ := Prod.mk.inj (Option.some.inj hpure)
    obtain ⟨⟨⟩, k₂, hx, hh⟩ := result_bind.1 hexec
    have hsame := result_accessAll Call.bounded_signalHandlers k₂
    obtain ⟨-, rfl⟩ := Prod.mk.inj (Option.some.inj (hsame.symm.trans hh))
    exact ⟨rfl, hx⟩
  case mpr =>
    rintro ⟨rfl, hx⟩
    exact ⟨(), k', result_bind.2 ⟨(), k', hx, result_accessAll Call.bounded_signalHandlers k'⟩, rfl⟩

namespace Kernel

/-! ## failing cleanly -/

/-- From `k` to `k'` the image of a thread stays: its areas, its page tables, what
is in its memory, and its handlers. -/
structure Untouched (t : Nat) (k k' : Kernel) : Prop where
  areas : (k'.procs t).vmaList = (k.procs t).vmaList
  pgd : (k'.procs t).context.pgd = (k.procs t).context.pgd
  tables : ∀ p ∈ physToVirt (k.procs t).context.pgd :: subTables 3 k.words (physToVirt (k.procs t).context.pgd),
    ∀ i < 512, k'.words (p + 8 * i) = k.words (p + 8 * i)
  blocks : ∀ p ∈ image t k, Live k p → Live k' p
  memory : ∀ v ∈ (k.procs t).vmaList, ∀ i < v.areaSize,
    k'.bytes (physToVirt v.physAddr + i) = k.bytes (physToVirt v.physAddr + i)
  handlers : (k'.procs t).signalHandler = (k.procs t).signalHandler

/-- A call returns a negative value, and its caller goes on as it was. -/
def FailsCleanly (tpf : Trapframe) (k : Kernel) (result : Option (Trapframe × Kernel)) : Prop :=
  ∃ tpf' k', result = some (tpf', k') ∧ toInt tpf'.x0.toNat < 0 ∧ tpf'.elrEl1 = tpf.elrEl1 ∧
    tpf'.spEl0 = tpf.spEl0 ∧ Untouched k.sched.currThread k k'

/-- The areas of a thread are those that `exec` makes for a file. -/
def Replaced (f : ExecFile) (t : Nat) (k : Kernel) : Prop :=
  (k.procs t).vmaList.map Vma.range = imageRanges (getsize f % 2 ^ 32) ++ fixedRanges

theorem exec_replaced {f : ExecFile} (h : exec (some f) k = some ((), k')) :
    Replaced f k.sched.currThread k' := by
  obtain ⟨-, is, fs, hvmas, hfs, his⟩ := exec_areas h
  rw [Replaced, hvmas, List.map_append, his, hfs]

theorem not_failsCleanly (hcall : tpf.x8.toNat = 3) :
    ¬ FailsCleanly tpf k (sync64Router env tpf k).2 := by
  rintro ⟨tpf', k', hr, hneg, -⟩
  obtain ⟨rfl, -⟩ := (sync64Router_exec hcall).1 hr
  have hzero : toInt (0 : BitVec 64).toNat < 0 := hneg
  exact absurd hzero (by decide)

/-- **`exec` never fails cleanly**, whatever its path leads to.  If it comes back,
it returns 0 to a new image; for a path that leads to no file, that of a
directory or a device, or of what was there before. -/
theorem exec_neverFails (env : Answers) (tpf : Trapframe) (k : Kernel) (s : Vfs) (n : Nat)
    (received : Nat → UInt8) (stale : Option ExecFile) (name : List Char) (hcall : tpf.x8.toNat = 3)
    (htarget : env.execFile =
      s.execTarget n received stale name (k.procs k.sched.currThread).currWorkingDir) :
    ¬ FailsCleanly tpf k (sync64Router env tpf k).2 ∧
      ∀ tpf' k', (sync64Router env tpf k).2 = some (tpf', k') → tpf' = tpf.enter ∧
        ∃ f, Replaced f k.sched.currThread k' ∧
          (¬ s.Readable n name (k.procs k.sched.currThread).currWorkingDir →
            stale = some f ∨ ∃ node, ¬ s.HasContents node ∧ f = s.execFile received node) := by
  refine ⟨not_failsCleanly hcall, fun tpf' k' hr => ?_⟩
  obtain ⟨htpf, hx⟩ := (sync64Router_exec hcall).1 hr
  obtain ⟨f, k₁, dropped, data, userSp, signalSp, a, m, k₃, k₄, handle, k₅, mem, a', hf, -⟩ := exec_some hx
  rw [hf] at hx
  exact ⟨htpf, f, exec_replaced hx, fun hname => Vfs.execTarget_some (htarget.symm.trans hf) hname⟩

/-! ## the frame buffer as a program -/

/-- `"/dev/framebuffer"`. -/
def framebufferPath : List Char := "/dev/framebuffer".toList

/-- The frame buffer is found, in the file systems as they are after a boot with
an empty archive. -/
theorem framebuffer_lookup : ∃ s node, zeroVfs.initRootfs 2 0x8 = some s ∧
    s.vfsLookup 2 framebufferPath = some (some node) ∧ (s.vnodes node).fOps = .framebuffer := by
  have hfound : ((zeroVfs.initRootfs 2 0x8).bind fun s => (s.vfsLookup 2 framebufferPath).bind fun v =>
      v.map fun node => (s.vnodes node).fOps) = some .framebuffer := by decide +kernel
  obtain ⟨s, hs, hfound⟩ := Option.bind_eq_some_iff.1 hfound
  obtain ⟨v, hv, hfound⟩ := Option.bind_eq_some_iff.1 hfound
  obtain ⟨node, rfl, hops⟩ := Option.map_eq_some_iff.1 hfound
  exact ⟨s, node, hs, hv, hops⟩

/-- The frame buffer answers -1. -/
theorem getsize_framebuffer {f : ExecFile} (hf : f.node.fOps = .framebuffer) :
    getsize f % 2 ^ 32 = 2 ^ 32 - 1 := by simp [getsize, hf]

/-- Its size takes the smallest order: `size2order` wraps around. -/
theorem exec_framebuffer {f : ExecFile} {base : Nat → Nat → Prop} (hf : f.node.fOps = .framebuffer)
    (h : Owns (fun _ => 0) base [] k.sched.currThread k)
    (hempty : subTables 3 k.words (physToVirt (k.procs k.sched.currThread).context.pgd) = [])
    (hroom : k.alloc.Room 10) : ∃ k', exec (some f) k = some ((), k') ∧ k'.oom = k.oom := by
  have ho : size2order (getsize f % 2 ^ 32) ≤ 2 := by
    rw [getsize_framebuffer hf]
    decide
  have hread : Reads f := by
    intro handle data k _ _
    have hdeny : vfsRead f handle data (getsize f % 2 ^ 32) = pure () := by simp only [vfsRead, hf]
    exact ⟨k, by rw [hdeny]; rfl, rfl, rfl⟩
  obtain ⟨⟨⟩, k', hx, -, hoom, -⟩ := exec_returns h hempty (by simp [hf]) ho hread hroom
  exact ⟨k', hx, hoom⟩

/-- The trapframe of `exec`. -/
def execTrapframe : Trapframe := ⟨0, 0, 0, 0, 0, 0, 3, 0, 0⟩

/-- What a run finds outside of the kernel when it asks for a file only. -/
def fileAnswers (file : Option ExecFile) : Answers :=
  ⟨file, .missing, [], ⟨fun _ => 0, 0, 0, 0, 0⟩, fun _ => pure 0, pure 0, pure 0, 0⟩

/-- The first program replaces itself by the frame buffer. -/
theorem exec_framebuffer_boot : ∃ (k₀ k' : Kernel) (s : Vfs) (f : ExecFile),
    k₀.Booted 0 1 ⟨0, .uart⟩ ∧ zeroVfs.initRootfs 2 0x8 = some s ∧
    s.execTarget 2 (fun _ => 0) none framebufferPath (k₀.procs k₀.sched.currThread).currWorkingDir = some f ∧
    ¬ s.Readable 2 framebufferPath (k₀.procs k₀.sched.currThread).currWorkingDir ∧
    exec (some f) k₀ = some ((), k') ∧ f.node.fOps = .framebuffer ∧ k₀.oom = false ∧ k'.oom = false := by
  obtain ⟨k₀, hb, hroom, hoom⟩ := smallBooted ⟨0, .uart⟩ (by decide : 1 ≤ 0x4000)
  obtain ⟨base, hown⟩ := hb.owns
  obtain ⟨s, node, hs, hnode, hops⟩ := framebuffer_lookup
  have hpath (cwd : List Char) : execPath framebufferPath cwd = some framebufferPath := by
    have hlen : ¬ framebufferPath.length ≥ maxPathName := by decide
    have hhead : ¬ framebufferPath.head? ≠ some '/' := by decide
    have hshort : ¬ framebufferPath.length > maxPathName := by decide
    have hresolve : resolvePath framebufferPath = framebufferPath := by decide
    rw [execPath, if_neg hlen, getAbsolutePath, if_neg hhead, if_neg hshort, hresolve]
  have hf : (s.execFile (fun _ => 0) node).node.fOps = .framebuffer := by
    unfold Vfs.execFile
    rw [hops]
  obtain ⟨k', hx, hoom'⟩ := exec_framebuffer hf hown hb.noTables (hroom.mono (by decide))
  refine ⟨k₀, k', s, s.execFile (fun _ => 0) node, hb, hs, ?_, ?_, hx, hf, hoom, hoom'.trans hoom⟩
  · simp only [Vfs.execTarget, hpath, hnode]
  · rintro ⟨absPath, v, habs, hv, hcontents⟩
    rw [hpath] at habs
    obtain rfl := Option.some.inj habs
    obtain rfl := Option.some.inj (Option.some.inj (hnode.symm.trans hv))
    simp [Vfs.HasContents, hops] at hcontents

theorem exec_neverFails_framebuffer : ∃ (k₀ : Kernel) (s : Vfs) (f : ExecFile),
    k₀.Booted 0 1 ⟨0, .uart⟩ ∧ zeroVfs.initRootfs 2 0x8 = some s ∧
    ¬ FailsCleanly execTrapframe k₀ (sync64Router (fileAnswers (some f)) execTrapframe k₀).2 := by
  obtain ⟨k₀, k', s, f, hb, hs, htarget, -⟩ := exec_framebuffer_boot
  exact ⟨k₀, s, f, hb, hs, (exec_neverFails (fileAnswers (some f)) execTrapframe k₀ s 2 (fun _ => 0) none
    framebufferPath (by decide) htarget.symm).1⟩

/-- `exec("/dev/framebuffer")` returns 0 to an image of 4 GiB. -/
theorem exec_returns_zero : ∃ (k₀ k' : Kernel) (s : Vfs) (env : Answers),
    k₀.Booted 0 1 ⟨0, .uart⟩ ∧ zeroVfs.initRootfs 2 0x8 = some s ∧
    env.execFile =
      s.execTarget 2 (fun _ => 0) none framebufferPath (k₀.procs k₀.sched.currThread).currWorkingDir ∧
    ¬ s.Readable 2 framebufferPath (k₀.procs k₀.sched.currThread).currWorkingDir ∧
    (sync64Router env execTrapframe k₀).2 = some (execTrapframe.enter, k') ∧
    (k'.procs k₀.sched.currThread).vmaList.map Vma.range = imageRanges (2 ^ 32 - 1) ++ fixedRanges ∧
    ¬ FailsCleanly execTrapframe k₀ (sync64Router env execTrapframe k₀).2 := by
  obtain ⟨k₀, k', s, f, hb, hs, htarget, hname, hx, hf, -⟩ := exec_framebuffer_boot
  have hcall : execTrapframe.x8.toNat = 3 := by decide
  refine ⟨k₀, k', s, fileAnswers (some f), hb, hs, htarget.symm, hname,
    (sync64Router_exec hcall).2 ⟨rfl, hx⟩, ?_, not_failsCleanly hcall⟩
  rw [← getsize_framebuffer hf]
  exact exec_replaced hx

end Kernel

end RpiKernel
