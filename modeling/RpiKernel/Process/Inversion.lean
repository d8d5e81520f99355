import RpiKernel.Process.Step

/-!
# RpiKernel.Process.Inversion

Kernel code that comes back, taken apart: a sequence into its parts
(`bind_some`), a primitive into what it did to the state, and from these each
function of `RpiKernel.Process.Syscall` into the blocks it asked for and the
fields it changed.
-/

namespace RpiKernel

open Custody

/-! ## requests for blocks -/

/-- `kmalloc` calls one after the other: the sizes and the answers. -/
inductive Grants : Alloc → List (Nat × Nat) → Alloc → Prop
  | nil (a : Alloc) : Grants a [] a
  | cons {a a₁ a' : Alloc} {size p : Nat} {rs : List (Nat × Nat)} :
      RpiKernel.kmalloc (size % 2 ^ 32) a = some (p, a₁) → Grants a₁ rs a' →
      Grants a ((size, p) :: rs) a'

theorem Grants.append {a a₁ a₂ : Alloc} {rs rs' : List (Nat × Nat)} (h : Grants a rs a₁)
    (h' : Grants a₁ rs' a₂) : Grants a (rs ++ rs') a₂ := by
  induction h with
  | nil a => exact h'
  | cons hm _ ih => exact .cons hm (ih h')

/-- A block of `n` bytes, unless it is `NULL`. -/
def ownBlock (p n : Nat) : Blocks := if p = 0 then [] else [(p, n)]

/-- Adds areas at the end of the list. -/
def Process.addAreas (vs : List Vma) (p : Process) : Process := { p with vmaList := p.vmaList ++ vs }

theorem Process.addAreas_addAreas (vs vs' : List Vma) (p : Process) :
    (p.addAreas vs).addAreas vs' = p.addAreas (vs ++ vs') := by
  simp [Process.addAreas]

/-- An entry of the table of files. -/
def Process.setFile (i f : Nat) (p : Process) : Process :=
  { p with fileDescriptorsTable := Function.update p.fileDescriptorsTable i f }

/-- Where a program starts. -/
def Process.enter (p : Process) : Process :=
  { p with context := { p.context with
      pgd := virtToPhys p.context.pgd
      sp := userStackBase
      fp := userStackBase
      lr := userKernelBase } }

/-- The copy of an area, at `addr`. -/
def Vma.copyTo (newAlloc addr : Nat) (v : Vma) : Vma :=
  ⟨addr, v.virtAddr, virtToPhys newAlloc, Kernel.roundPage v.areaSize, v.rwx, true⟩

/-- The handlers of the parent. -/
def Process.inherit (handlers : Nat → Nat) (p : Process) : Process :=
  { p with signalHandler := fun i => if i ≤ signalMax then handlers i else p.signalHandler i }

/-- The registers of the parent, with another stack and other tables. -/
def Process.resume (cpu : ThreadContext) (kernelSp : Nat) (p : Process) : Process :=
  { p with context := { cpu with
      pgd := virtToPhys p.context.pgd
      fp := (cpu.fp + p.kernelSp + (2 ^ 64 - kernelSp)) % 2 ^ 64
      sp := (cpu.sp + p.kernelSp + (2 ^ 64 - kernelSp)) % 2 ^ 64 } }

/-- The registers, but not the tables, are saved. -/
def Process.save (cpu : ThreadContext) (p : Process) : Process :=
  { p with context := { cpu with pgd := p.context.pgd } }

namespace Kernel

variable {α β : Type} {k k' k₁ : Kernel} {r : α × Kernel} {t p : Nat}

/-! ## sequences and primitives -/

theorem bind_some {m : KernelM α} {f : α → KernelM β} {r : β × Kernel} :
    (m >>= f) k = some r ↔ ∃ a k₁, m k = some (a, k₁) ∧ f a k₁ = some r := by
  show (m k).bind (fun r => f r.1 r.2) = some r ↔ _
  rw [Option.bind_eq_some_iff]
  constructor
  case mp => exact fun ⟨⟨a, k₁⟩, h⟩ => ⟨a, k₁, h⟩
  case mpr => exact fun ⟨a, k₁, h⟩ => ⟨(a, k₁), h⟩

theorem pure_some {a : α} : (pure a : KernelM α) k = some r ↔ r = (a, k) := by
  show some (a, k) = some r ↔ _
  rw [Option.some.injEq, eq_comm]

theorem failure_some : (failure : KernelM α) k = some r ↔ False := by
  show none = some r ↔ _
  simp

/-- Code after a test that stops the kernel. -/
theorem guard_some {c : Prop} [Decidable c] {m : KernelM α} {f : PUnit → KernelM α} :
    (if c then failure >>= f else m) k = some r ↔ ¬ c ∧ m k = some r := by
  split
  next h => simp [failure_some, h]
  next h => simp [h]

theorem modify_some {f : Kernel → Kernel} {r : PUnit × Kernel} :
    (modify f : KernelM PUnit) k = some r ↔ r = (⟨⟩, f k) := by
  show some (PUnit.unit, f k) = some r ↔ _
  rw [Option.some.injEq, eq_comm]

theorem get_some {r : Kernel × Kernel} : (get : KernelM Kernel) k = some r ↔ r = (k, k) :=
  pure_some

theorem currThread_some {r : Nat × Kernel} :
    currThread k = some r ↔ r = (k.sched.currThread, k) := by
  simp only [currThread, bind_some, get_some, pure_some, Prod.mk.injEq]
  constructor
  case mp => exact fun ⟨_, _, ⟨rfl, rfl⟩, h⟩ => h
  case mpr => exact fun h => ⟨k, k, ⟨rfl, rfl⟩, h⟩

theorem proc_some {r : Process × Kernel} : proc t k = some r ↔ r = (k.procs t, k) := by
  simp only [proc, bind_some, get_some, pure_some, Prod.mk.injEq]
  constructor
  case mp => exact fun ⟨_, _, ⟨rfl, rfl⟩, h⟩ => h
  case mpr => exact fun h => ⟨k, k, ⟨rfl, rfl⟩, h⟩

/-- Changes one thread. -/
def setProc (t : Nat) (f : Process → Process) (k : Kernel) : Kernel :=
  { k with procs := Function.update k.procs t (f (k.procs t)) }

theorem modifyProc_some {f : Process → Process} {r : PUnit × Kernel} :
    modifyProc t f k = some r ↔ r = (⟨⟩, k.setProc t f) := modify_some

/-! A primitive that always comes back, with what follows it.  The brackets
around `rfl` keep `simp` from unfolding these without a proof step. -/

section

variable (f : α → KernelM β) (g : Kernel → KernelM β) (g₁ : Nat → KernelM β) (g₂ : Process → KernelM β)
  (u : PUnit → KernelM β) (m : Kernel → Kernel) (q : Process → Process)

theorem get_bind : ((get : KernelM Kernel) >>= g) k = g k k := (rfl)

theorem currThread_bind : (currThread >>= g₁) k = g₁ k.sched.currThread k := (rfl)

theorem proc_bind : (proc t >>= g₂) k = g₂ (k.procs t) k := (rfl)

theorem modify_bind : ((modify m : KernelM PUnit) >>= u) k = u ⟨⟩ (m k) := (rfl)

theorem modifyProc_bind : (modifyProc t q >>= u) k = u ⟨⟩ (k.setProc t q) := (rfl)

end

theorem kmalloc_some {size : Nat} : kmalloc size k = some (p, k') ↔
    ∃ a, RpiKernel.kmalloc (size % 2 ^ 32) k.alloc = some (p, a) ∧
      k' = { k with alloc := a, oom := k.oom || p == 0 } := by
  unfold kmalloc
  rw [Option.map_eq_some_iff]
  constructor
  case mp =>
    intro ⟨⟨q, a⟩, h, he⟩
    obtain ⟨rfl, rfl⟩ := Prod.mk.inj he
    exact ⟨a, h, rfl⟩
  case mpr => exact fun ⟨a, h, he⟩ => ⟨(p, a), h, he ▸ rfl⟩

theorem kmallocRecord_some {size : Nat} : kmallocRecord size k = some (p, k') ↔
    p ≠ 0 ∧ ∃ a, RpiKernel.kmalloc (size % 2 ^ 32) k.alloc = some (p, a) ∧
      k' = { k with alloc := a } := by
  unfold kmallocRecord
  simp only [bind_some]
  constructor
  case mp =>
    intro ⟨q, k₁, h, h'⟩
    split at h'
    next => simp [failure_some] at h'
    next hq =>
      obtain ⟨rfl, rfl⟩ := Prod.mk.inj (pure_some.1 h')
      obtain ⟨a, ha, rfl⟩ := kmalloc_some.1 h
      refine ⟨hq, a, ha, ?_⟩
      simp [hq]
  case mpr =>
    intro ⟨hp, a, ha, he⟩
    refine ⟨p, k', kmalloc_some.2 ⟨a, ha, by simp [he, hp]⟩, ?_⟩
    rw [if_neg hp]
    rfl

theorem kfree_some {r : Unit × Kernel} : kfree p k = some r ↔
    ∃ a, RpiKernel.kfree p k.alloc = some a ∧ r = ((), { k with alloc := a }) := by
  unfold kfree
  rw [Option.map_eq_some_iff]
  exact exists_congr fun a => and_congr_right fun _ => eq_comm

theorem onTables_some {f : TableMem → Option TableMem} {r : Unit × Kernel} :
    onTables f k = some r ↔
      ∃ m, f k.toTableMem = some m ∧ r = ((), { k with toTableMem := m }) := by
  unfold onTables
  rw [Option.map_eq_some_iff]
  exact exists_congr fun m => and_congr_right fun _ => eq_comm

theorem onSched_some {f : Sched → Option Sched} {r : Unit × Kernel} :
    onSched f k = some r ↔ ∃ s, f k.sched = some s ∧ r = ((), { k with sched := s }) := by
  unfold onSched
  rw [Option.map_eq_some_iff]
  exact exists_congr fun m => and_congr_right fun _ => eq_comm

theorem store_some {n : Nat} {f : Nat → UInt8} {r : PUnit × Kernel} : store p n f k = some r ↔
    Mapped p n ∧ r = (⟨⟩, { k with
      bytes := fun x => if p ≤ x ∧ x < p + n then f (x - p) else k.bytes x }) := by
  unfold store
  rw [guard_some, not_not, modify_some]

theorem memcpy_some {dst src len : Nat} {r : PUnit × Kernel} : memcpy dst src len k = some r ↔
    (Mapped dst (len % 2 ^ 32) ∧ Mapped src (len % 2 ^ 32)) ∧
      r = (⟨⟩, { k with bytes := copied dst src k.bytes (len % 2 ^ 32) }) := by
  unfold memcpy
  rw [guard_some, modify_some, not_or, not_not, not_not]

theorem clearTable_some {r : PUnit × Kernel} : clearTable p k = some r ↔
    Mapped p 0x1000 ∧ r = (⟨⟩, { k with words := zeroPage p k.words }) := by
  unfold clearTable
  rw [guard_some, not_not, modify_some]

/-! ## areas -/

/-- The state after `kmalloc` calls. -/
def took (k : Kernel) (rs : List (Nat × Nat)) (a : Alloc) : Kernel :=
  { k with alloc := a, oom := k.oom || rs.any fun r => r.2 == 0 }

/-- `kmalloc` as the first of some calls. -/
theorem kmalloc_took {size : Nat} (h : kmalloc size k = some (p, k')) :
    ∃ a, Grants k.alloc [(size, p)] a ∧ k' = k.took [(size, p)] a := by
  obtain ⟨a, ha, rfl⟩ := kmalloc_some.1 h
  exact ⟨a, .cons ha (.nil a), by simp [took]⟩

@[simp] theorem setProc_procs (f : Process → Process) : (k.setProc t f).procs t = f (k.procs t) :=
  Function.update_self _ _ _

@[simp] theorem setProc_alloc (f : Process → Process) : (k.setProc t f).alloc = k.alloc := rfl
@[simp] theorem setProc_words (f : Process → Process) : (k.setProc t f).words = k.words := rfl
@[simp] theorem setProc_bytes (f : Process → Process) : (k.setProc t f).bytes = k.bytes := rfl
@[simp] theorem setProc_sched (f : Process → Process) : (k.setProc t f).sched = k.sched := rfl
@[simp] theorem setProc_files (f : Process → Process) : (k.setProc t f).files = k.files := rfl
@[simp] theorem setProc_misc (f : Process → Process) : (k.setProc t f).misc = k.misc := rfl
@[simp] theorem setProc_oom (f : Process → Process) : (k.setProc t f).oom = k.oom := rfl

theorem setProc_procs_other {u : Nat} (f : Process → Process) (h : u ≠ t) :
    (k.setProc t f).procs u = k.procs u := Function.update_of_ne h _ _

/-- `mmu_add_vma`. -/
theorem mmuAddVma_some {va size pa rwx : Nat} {b : Bool} {r : Unit × Kernel} :
    mmuAddVma t va size pa rwx b k = some r ↔ ∃ addr a, addr ≠ 0 ∧
      RpiKernel.kmalloc (vmaBytes % 2 ^ 32) k.alloc = some (addr, a) ∧
      r = ((), ({ k with alloc := a } : Kernel).setProc t
        (Process.addAreas [⟨addr, va, pa, roundPage size, rwx, b⟩])) := by
  unfold mmuAddVma
  simp only [bind_some, kmallocRecord_some, modifyProc_some]
  constructor
  case mp => exact fun ⟨addr, _, ⟨h, a, ha, he⟩, hr⟩ => ⟨addr, a, h, ha, he ▸ hr⟩
  case mpr => exact fun ⟨addr, a, h, ha, hr⟩ => ⟨addr, _, ⟨h, a, ha, rfl⟩, hr⟩

/-- The areas of a program. -/
def imageAreas (p : Process) (addr₁ addr₂ : Nat) : List Vma :=
  [⟨addr₁, userKernelBase, virtToPhys p.data, roundPage p.datasize, 0b111, true⟩,
    ⟨addr₂, userStackBase - ustackSize, virtToPhys p.userSp, roundPage ustackSize, 0b111, true⟩]

/-- The areas that every process gets besides. -/
def fixedAreas (wrapper signalSp addr₁ addr₂ addr₃ : Nat) : List Vma :=
  [⟨addr₁, peripheralStart, peripheralStart, roundPage (peripheralEnd - peripheralStart), 0b011, false⟩,
    ⟨addr₂, userSignalWrapperVa, virtToPhys wrapper, roundPage 0x2000, 0b101, false⟩,
    ⟨addr₃, userSignalStkstartVa, virtToPhys signalSp, roundPage frameSize, 0b111, true⟩]

/-- The blocks for area records. -/
def records (addrs : List Nat) : List (Nat × Nat) := addrs.map fun p => (vmaBytes, p)

theorem addImageAreas_some {r : Unit × Kernel} (h : addImageAreas t k = some r) :
    ∃ a₁ a₂ a, (∀ p ∈ [a₁, a₂], p ≠ 0) ∧ Grants k.alloc (records [a₁, a₂]) a ∧
      r = ((), ({ k with alloc := a } : Kernel).setProc t
        (Process.addAreas (imageAreas (k.procs t) a₁ a₂))) := by
  unfold addImageAreas at h
  simp only [proc_bind, bind_some, mmuAddVma_some] at h
  obtain ⟨_, k₁, ⟨a₁, al₁, h₁, g₁, hr₁⟩, a₂, al₂, h₂, g₂, hr⟩ := h
  obtain ⟨-, rfl⟩ := Prod.mk.inj hr₁
  refine ⟨a₁, a₂, al₂, by simp [h₁, h₂], .cons g₁ (.cons g₂ (.nil _)), ?_⟩
  rw [hr]
  simp only [setProc, Function.update_self, Function.update_idem, Process.addAreas, imageAreas,
    List.append_assoc, List.cons_append, List.nil_append]

theorem addFixedAreas_some {r : Unit × Kernel} (h : addFixedAreas t k = some r) :
    ∃ a₁ a₂ a₃ a, (∀ p ∈ [a₁, a₂, a₃], p ≠ 0) ∧ Grants k.alloc (records [a₁, a₂, a₃]) a ∧
      r = ((), ({ k with alloc := a } : Kernel).setProc t (Process.addAreas
        (fixedAreas k.handlerWrapper (k.procs t).signalSp a₁ a₂ a₃))) := by
  unfold addFixedAreas at h
  simp only [get_bind, proc_bind, bind_some, mmuAddVma_some] at h
  obtain ⟨_, k₁, ⟨a₁, al₁, h₁, g₁, hr₁⟩, _, k₂, ⟨a₂, al₂, h₂, g₂, hr₂⟩, a₃, al₃, h₃, g₃, hr⟩ := h
  obtain ⟨-, rfl⟩ := Prod.mk.inj hr₁
  obtain ⟨-, rfl⟩ := Prod.mk.inj hr₂
  refine ⟨a₁, a₂, a₃, al₃, by simp [h₁, h₂, h₃], .cons g₁ (.cons g₂ (.cons g₃ (.nil _))), ?_⟩
  rw [hr]
  simp only [setProc, Function.update_self, Function.update_idem, Process.addAreas, fixedAreas,
    List.append_assoc, List.cons_append, List.nil_append]

/-! ## new threads -/

/-- What `thread_create` asks for. -/
structure NewThread where
  userSp : Nat
  kernelSp : Nat
  signalSp : Nat
  data : Nat
  pgd : Nat

/-- The calls of `kmalloc` for it. -/
def NewThread.requests (b : NewThread) (filesize : Nat) : List (Nat × Nat) :=
  [(ustackSize, b.userSp), (kstackSize, b.kernelSp), (frameSize, b.signalSp), (filesize, b.data),
    (0x1000, b.pgd)]

/-- The thread that `thread_create` sets up. -/
def NewThread.process (b : NewThread) (start filesize handler : Nat) (p : Process) : Process :=
  { p with
    vmaList := []
    userSp := b.userSp
    kernelSp := b.kernelSp
    signalSp := b.signalSp
    signalIsChecking := false
    data := b.data
    datasize := filesize
    currWorkingDir := ['/']
    context := { p.context with
      lr := start
      sp := (b.kernelSp + kstackSize) % 2 ^ 64
      fp := (b.kernelSp + kstackSize) % 2 ^ 64
      pgd := b.pgd }
    signalHandler := fun i => if i < signalMax then handler else p.signalHandler i
    sigcount := fun i => if i < signalMax then 0 else p.sigcount i }

theorem threadCreate_some {start filesize : Nat} (h : threadCreate start filesize k = some (some t, k')) :
    ∃ (s : Sched) (b : NewThread) (a : Alloc), RpiKernel.threadCreate k.sched = some (t, s) ∧
      Grants k.alloc (b.requests filesize) a ∧ Mapped b.pgd 0x1000 ∧
      k' = ({ k.took (b.requests filesize) a with
          sched := s, words := zeroPage b.pgd k.words } : Kernel).setProc t
        (b.process start filesize k.defaultHandler) := by
  unfold threadCreate at h
  rw [get_bind] at h
  cases hs : RpiKernel.threadCreate k.sched with
  | none =>
      rw [hs] at h
      exact absurd (Prod.mk.inj (pure_some.1 h)).1 (by simp)
  | some ts =>
      rw [hs] at h
      simp only [modify_bind, get_bind, modifyProc_bind, bind_some, pure_some] at h
      obtain ⟨userSp, k₁, h₁, kernelSp, k₂, h₂, signalSp, k₃, h₃, data, k₄, h₄, pgd, k₅, h₅, _, k₆,
        h₆, h⟩ := h
      obtain ⟨ht, rfl⟩ := Prod.mk.inj h
      obtain rfl := Option.some.inj ht
      obtain ⟨hm, hk₆⟩ := clearTable_some.1 h₆
      obtain ⟨-, rfl⟩ := Prod.mk.inj hk₆
      obtain ⟨al₁, g₁, rfl⟩ := kmalloc_took h₁
      obtain ⟨al₂, g₂, rfl⟩ := kmalloc_took h₂
      obtain ⟨al₃, g₃, rfl⟩ := kmalloc_took h₃
      obtain ⟨al₄, g₄, rfl⟩ := kmalloc_took h₄
      obtain ⟨al₅, g₅, rfl⟩ := kmalloc_took h₅
      refine ⟨ts.2, ⟨userSp, kernelSp, signalSp, data, pgd⟩, al₅, rfl,
        (((g₁.append g₂).append g₃).append g₄).append g₅, hm, ?_⟩
      simp [took, setProc, NewThread.process, NewThread.requests, Bool.or_assoc]

/-! ## files -/

/-- A new handle `f`. -/
structure NewFile (f : Nat) (content : FileHandle) (k k' : Kernel) : Prop where
  ne : f ≠ 0
  some : ∃ a, RpiKernel.kmalloc (fileBytes % 2 ^ 32) k.alloc = some (f, a) ∧
    k' = { k with alloc := a, files := Function.update k.files f content }

theorem openNode_some {node : VnodeRef} {flags f : Nat} (h : openNode node flags k = some (f, k')) :
    NewFile f { openHandle node (k.files f) with flags := flags } k k' := by
  unfold openNode at h
  simp only [bind_some, kmallocRecord_some, modify_bind, pure_some] at h
  obtain ⟨_, _, ⟨hf, a, ha, rfl⟩, hr⟩ := h
  obtain ⟨rfl, rfl⟩ := Prod.mk.inj hr
  exact ⟨hf, a, ha, rfl⟩

/-- `vfs_open` of a vnode for the entry `i` of a thread. -/
def Opens (t i : Nat) (node : VnodeRef) (flags : Nat) (k k' : Kernel) : Prop :=
  ∃ f k₁, NewFile f { openHandle node (k.files f) with flags := flags } k k₁ ∧
    k' = k₁.setProc t (Process.setFile i f)

/-! ## `thread_exec` -/

/-- A `for` loop over a list, whose passes do `P`. -/
theorem forIn_cons_some {g : Nat → KernelM (ForInStep PUnit)} {P : Nat → Kernel → Kernel → Prop}
    (hg : ∀ i k r, g i k = some r → ∃ k', r = (.yield ⟨⟩, k') ∧ P i k k') {i : Nat} {is : List Nat}
    {r : PUnit × Kernel} (h : (forIn (i :: is) PUnit.unit fun i _ => g i) k = some r) :
    ∃ k', P i k k' ∧ (forIn is PUnit.unit fun i _ => g i) k' = some r := by
  rw [List.forIn_cons, bind_some] at h
  obtain ⟨b, k₁, h₁, h⟩ := h
  obtain ⟨k', he, hP⟩ := hg i k _ h₁
  obtain ⟨rfl, rfl⟩ := Prod.mk.inj he
  exact ⟨k₁, hP, h⟩

theorem threadExec_some {data filesize : Nat} {uart : VnodeRef}
    (h : threadExec data filesize uart k = some ((), k')) :
    ∃ t k₁ k₂ k₃ k₄ k₅ mem, threadCreate data filesize k = some (some t, k₁) ∧
      addImageAreas t k₁ = some ((), k₂) ∧ addFixedAreas t k₂ = some ((), k₃) ∧
      Opens t 0 uart 0
        { k₃.setProc t Process.enter with bytes := mem, sched := k₃.sched.setCurr t } k₄ ∧
      Opens t 1 uart 0 k₄ k₅ ∧ Opens t 2 uart 0 k₅ k' := by
  unfold threadExec at h
  rw [bind_some] at h
  obtain ⟨ot, k₁, h₁, h⟩ := h
  cases ot with
  | none => exact absurd h (by simp [failure_some])
  | some t =>
      have henter : (fun p : Process => { p with context := { p.context with
          pgd := virtToPhys p.context.pgd
          sp := userStackBase
          fp := userStackBase
          lr := userKernelBase } }) = Process.enter := rfl
      simp only [henter, modifyProc_bind, get_bind, proc_bind, modify_bind, bind_some, store_some,
        pure_some] at h
      obtain ⟨_, k₂, h₂, _, k₃, h₃, _, k₃', ⟨-, hr₃⟩, _, k'', hloop, hr⟩ := h
      obtain ⟨-, rfl⟩ := Prod.mk.inj hr₃
      have hpass : ∀ (i : Nat) (k : Kernel) (r : ForInStep PUnit × Kernel),
          (do
            let f ← openNode uart 0
            modifyProc t fun p =>
              { p with fileDescriptorsTable := Function.update p.fileDescriptorsTable i f }
            pure (ForInStep.yield PUnit.unit) : KernelM (ForInStep PUnit)) k = some r →
          ∃ k', r = (.yield ⟨⟩, k') ∧ Opens t i uart 0 k k' := by
        intro i k r h
        simp only [bind_some, modifyProc_bind, pure_some] at h
        obtain ⟨f, k₁, h₁, rfl⟩ := h
        exact ⟨_, rfl, f, k₁, openNode_some h₁, rfl⟩
      obtain ⟨k₄, ho₀, hloop⟩ := forIn_cons_some hpass hloop
      obtain ⟨k₅, ho₁, hloop⟩ := forIn_cons_some hpass hloop
      obtain ⟨k₆, ho₂, hloop⟩ := forIn_cons_some hpass hloop
      obtain ⟨-, rfl⟩ := Prod.mk.inj (pure_some.1 hloop)
      obtain ⟨-, rfl⟩ := Prod.mk.inj hr
      exact ⟨t, k₁, k₂, k₃, k₄, k₅, _, h₁, h₂, h₃, ho₀, ho₁, ho₂⟩

/-! ## `fork` -/

/-- One pass over the files: an entry that is not `NULL` is copied. -/
def CopiesFile (parent child i : Nat) (k k' : Kernel) : Prop :=
  let file := (k.procs parent).fileDescriptorsTable i
  file = 0 ∧ k' = k ∨ file ≠ 0 ∧ ∃ copy k₁, NewFile copy (k.files file) k k₁ ∧
    k' = k₁.setProc child (Process.setFile i copy)

theorem copyFiles_cons {parent child i : Nat} {is : List Nat}
    (h : copyFiles parent child (i :: is) k = some ((), k')) :
    ∃ k₁, CopiesFile parent child i k k₁ ∧ copyFiles parent child is k₁ = some ((), k') := by
  unfold copyFiles at h
  rw [proc_bind] at h
  by_cases hf : (k.procs parent).fileDescriptorsTable i = 0
  · simp only [hf, ne_eq, not_true_eq_false, if_false] at h
    exact ⟨k, Or.inl ⟨hf, rfl⟩, h⟩
  · simp only [hf, ne_eq, not_false_eq_true, if_true, bind_some, kmallocRecord_some, modify_bind,
      modifyProc_bind] at h
    obtain ⟨copy, _, ⟨hc, a, ha, rfl⟩, h⟩ := h
    exact ⟨_, Or.inr ⟨hf, copy, _, ⟨hc, a, ha, rfl⟩, rfl⟩, h⟩

/-- The block that `fork` frees after it copied an area at `virtAddr`. -/
def replaced (virtAddr : Nat) (p : Process) : Nat :=
  if virtAddr = userKernelBase then p.data
  else if virtAddr = userStackBase - ustackSize then p.userSp
  else 0

/-- The field that it sets instead. -/
def adopt (virtAddr newAlloc : Nat) (p : Process) : Process :=
  if virtAddr = userKernelBase then { p with data := newAlloc }
  else if virtAddr = userStackBase - ustackSize then { p with userSp := newAlloc }
  else p

theorem adoptArea_some {child virtAddr newAlloc : Nat}
    (h : adoptArea child virtAddr newAlloc k = some ((), k')) :
    ∃ a, RpiKernel.kfree (replaced virtAddr (k.procs child)) k.alloc = some a ∧
      k' = ({ k with alloc := a } : Kernel).setProc child (adopt virtAddr newAlloc) := by
  unfold adoptArea at h
  unfold replaced adopt
  by_cases h₁ : virtAddr = userKernelBase
  · simp only [if_pos h₁, proc_bind, bind_some, kfree_some, modifyProc_some] at h ⊢
    obtain ⟨_, _, ⟨a, ha, hr⟩, hk⟩ := h
    obtain ⟨-, rfl⟩ := Prod.mk.inj hr
    exact ⟨a, ha, (Prod.mk.inj hk).2⟩
  by_cases h₂ : virtAddr = userStackBase - ustackSize
  · simp only [if_neg h₁, if_pos h₂, proc_bind, bind_some, kfree_some, modifyProc_some] at h ⊢
    obtain ⟨_, _, ⟨a, ha, hr⟩, hk⟩ := h
    obtain ⟨-, rfl⟩ := Prod.mk.inj hr
    exact ⟨a, ha, (Prod.mk.inj hk).2⟩
  · simp only [if_neg h₁, if_neg h₂] at h ⊢
    obtain ⟨-, rfl⟩ := Prod.mk.inj (pure_some.1 h)
    exact ⟨_, kfree_null _, by simp [setProc]⟩

/-- One pass over the areas, for an area that is copied: its block `newAlloc`,
its record at `addr`, and what is freed. -/
structure CopiesArea (child : Nat) (v : Vma) (newAlloc addr : Nat) (a₁ a₂ a₃ : Alloc) (k k' : Kernel) :
    Prop where
  block : RpiKernel.kmalloc (v.areaSize % 2 ^ 32) k.alloc = some (newAlloc, a₁)
  record : RpiKernel.kmalloc (vmaBytes % 2 ^ 32) a₁ = some (addr, a₂)
  ne : addr ≠ 0
  dst : Mapped newAlloc (v.areaSize % 2 ^ 32)
  src : Mapped (physToVirt v.physAddr) (v.areaSize % 2 ^ 32)
  free : RpiKernel.kfree (replaced v.virtAddr (k.procs child)) a₂ = some a₃
  eq : k' = ({ k with
    alloc := a₃
    oom := k.oom || newAlloc == 0
    bytes := copied newAlloc (physToVirt v.physAddr) k.bytes (v.areaSize % 2 ^ 32) } :
      Kernel).setProc child fun p =>
        adopt v.virtAddr newAlloc (p.addAreas [v.copyTo newAlloc addr])

theorem copyAreas_cons {child : Nat} {v : Vma} {vs : List Vma}
    (h : copyAreas child (v :: vs) k = some ((), k')) :
    ∃ k₁, (skipped v ∧ k₁ = k ∨
        ¬ skipped v ∧ ∃ newAlloc addr a₁ a₂ a₃, CopiesArea child v newAlloc addr a₁ a₂ a₃ k k₁) ∧
      copyAreas child vs k₁ = some ((), k') := by
  unfold copyAreas at h
  by_cases hv : skipped v
  · simp only [hv, not_true_eq_false, if_false] at h
    exact ⟨k, Or.inl ⟨hv, rfl⟩, h⟩
  · simp only [hv, not_false_eq_true, if_true, bind_some, mmuAddVma_some, memcpy_some] at h
    obtain ⟨newAlloc, k₁, h₁, _, k₂, ⟨addr, a₂, hne, h₂, hr₂⟩, _, k₃, ⟨⟨hd, hs⟩, hr₃⟩, _, k₄, h₄, h⟩ := h
    obtain ⟨a₁, ha₁, rfl⟩ := kmalloc_some.1 h₁
    obtain ⟨-, rfl⟩ := Prod.mk.inj hr₂
    obtain ⟨-, rfl⟩ := Prod.mk.inj hr₃
    obtain ⟨a₃, ha₃, rfl⟩ := adoptArea_some h₄
    refine ⟨_, Or.inr ⟨hv, newAlloc, addr, a₁, a₂, a₃, ha₁, h₂, hne, hd, hs, ?_, rfl⟩, ?_⟩
    · simpa [replaced, Process.addAreas] using ha₃
    · simpa [setProc, Vma.copyTo] using h

theorem fork_some {cpu : ThreadContext} {child : Nat} (h : fork cpu k = some (child, k')) :
    ∃ k₁ k₂ k₃ k₄,
      let parent := k.sched.currThread
      threadCreate (k.procs parent).data (k.procs parent).datasize k = some (some child, k₁) ∧
      copyFiles parent child (List.range (maxFd + 1))
        (k₁.setProc child (Process.inherit (k.procs parent).signalHandler)) = some ((), k₂) ∧
      copyAreas child (k.procs parent).vmaList k₂ = some ((), k₃) ∧
      addFixedAreas child k₃ = some ((), k₄) ∧
      Mapped (k₄.procs child).kernelSp kstackSize ∧ Mapped (k.procs parent).kernelSp kstackSize ∧
      k' = (({ k₄ with
          bytes := copied (k₄.procs child).kernelSp (k.procs parent).kernelSp k₄.bytes kstackSize } :
            Kernel).setProc parent (Process.save cpu)).setProc child
              (Process.resume cpu (k.procs parent).kernelSp) := by
  unfold fork at h
  rw [currThread_bind, proc_bind, bind_some] at h
  obtain ⟨oc, k₁, h₁, h⟩ := h
  cases oc with
  | none => exact absurd h (by simp [failure_some])
  | some c =>
      simp only [modifyProc_bind, proc_bind, bind_some, memcpy_some, pure_some] at h
      obtain ⟨_, k₂, h₂, _, k₃, h₃, _, k₄, h₄, _, k₅, ⟨⟨hd, hs⟩, hr⟩, hk⟩ := h
      obtain ⟨-, rfl⟩ := Prod.mk.inj hr
      obtain ⟨rfl, rfl⟩ := Prod.mk.inj hk
      exact ⟨k₁, k₂, k₃, k₄, h₁, h₂, h₃, h₄, hd, hs, rfl⟩

end Kernel

end RpiKernel
