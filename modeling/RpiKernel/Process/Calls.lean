import RpiKernel.Process.Inversion

/-!
# RpiKernel.Process.Calls

`exec`, `mmap`, `open` and `close`, taken apart like `fork` in
`RpiKernel.Process.Inversion`.
-/

namespace RpiKernel

open Custody

/-- The image and the stacks of a program that replaces another. -/
def Process.load (datasize data userSp signalSp : Nat) (p : Process) : Process :=
  { p with datasize := datasize, data := data, userSp := userSp, signalSp := signalSp }

/-- No areas. -/
def Process.noAreas (p : Process) : Process := { p with vmaList := [] }

namespace Kernel

variable {k k' : Kernel} {t n : Nat}

/-! ## `exec` -/

theorem mmuDelAllVma_some (h : mmuDelAllVma t k = some ((), k')) :
    ∃ k₁, delVmas (k.procs t).vmaList k = some ((), k₁) ∧ k' = k₁.setProc t Process.noAreas := by
  unfold mmuDelAllVma at h
  rw [proc_bind, bind_some] at h
  obtain ⟨_, k₁, h₁, h⟩ := h
  exact ⟨k₁, h₁, (Prod.mk.inj (modifyProc_some.1 h)).2⟩

/-- Deleting areas only calls `kfree`. -/
theorem delVmas_some {vs : List Vma} (h : delVmas vs k = some ((), k')) :
    ∃ a, k' = { k with alloc := a } := by
  induction vs generalizing k with
  | nil =>
      unfold delVmas at h
      exact ⟨k.alloc, (Prod.mk.inj (pure_some.1 h)).2⟩
  | cons v vs ih =>
      unfold delVmas at h
      by_cases hv : v.isAlloced = true
      · simp only [if_pos hv, bind_some, kfree_some] at h
        obtain ⟨_, _, ⟨a₁, -, hr₁⟩, _, _, ⟨a₂, -, hr₂⟩, h⟩ := h
        obtain ⟨-, rfl⟩ := Prod.mk.inj hr₁
        obtain ⟨-, rfl⟩ := Prod.mk.inj hr₂
        obtain ⟨a, rfl⟩ := ih h
        exact ⟨a, rfl⟩
      · simp only [if_neg hv, bind_some, kfree_some] at h
        obtain ⟨_, _, ⟨a₁, -, hr₁⟩, h⟩ := h
        obtain ⟨-, rfl⟩ := Prod.mk.inj hr₁
        obtain ⟨a, rfl⟩ := ih h
        exact ⟨a, rfl⟩

/-- `vfs_read` only writes bytes. -/
theorem vfsRead_some {f : ExecFile} {handle : FileHandle} {buf len : Nat}
    (h : vfsRead f handle buf len k = some ((), k')) : ∃ mem, k' = { k with bytes := mem } := by
  unfold vfsRead at h
  cases hf : f.node.fOps <;> simp only [hf] at h
  case framebuffer => exact ⟨k.bytes, (Prod.mk.inj (pure_some.1 h)).2⟩
  all_goals exact ⟨_, (Prod.mk.inj (store_some.1 h).2).2⟩

/-- The blocks `exec` asks for; the first is dropped. -/
def execRequests (datasize dropped data userSp signalSp : Nat) : List (Nat × Nat) :=
  [(datasize, dropped), (datasize, data), (ustackSize, userSp), (frameSize, signalSp)]

theorem exec_some {file : Option ExecFile} (h : exec file k = some ((), k')) :
    ∃ f k₁ dropped data userSp signalSp a m k₃ k₄ handle k₅ mem a',
      let t := k.sched.currThread
      let rs := execRequests (getsize f % 2 ^ 32) dropped data userSp signalSp
      let pgd := (k₁.procs t).context.pgd
      file = some f ∧ mmuDelAllVma t k = some ((), k₁) ∧ Grants k₁.alloc rs a ∧
      mmuFreePageTables 2 pgd ⟨a, k₁.words⟩ = some m ∧ Mapped (physToVirt pgd) 0x1000 ∧
      addImageAreas t (setProc t (Process.load (getsize f % 2 ^ 32) data userSp signalSp)
        { k₁.took rs a with alloc := m.alloc, words := zeroPage (physToVirt pgd) m.words }) =
          some ((), k₃) ∧
      addFixedAreas t k₃ = some ((), k₄) ∧
      NewFile handle { openHandle f.node (k₄.files handle) with flags := 0 } k₄ k₅ ∧
      RpiKernel.kfree handle k₅.alloc = some a' ∧
      k' = setProc t (Process.inherit fun _ => k₅.defaultHandler)
        { k₅ with bytes := mem, alloc := a' } := by
  unfold exec at h
  rw [currThread_bind, bind_some] at h
  obtain ⟨_, k₁, hdel, h⟩ := h
  cases file with
  | none => exact absurd h (by simp [failure_some])
  | some f =>
      have hload : ∀ data userSp signalSp, (fun p : Process => { p with
          datasize := getsize f % 2 ^ 32, data := data, userSp := userSp, signalSp := signalSp }) =
            Process.load (getsize f % 2 ^ 32) data userSp signalSp := fun _ _ _ => rfl
      simp only [hload, modifyProc_bind, get_bind, proc_bind, bind_some, onTables_some,
        clearTable_some, modifyProc_some] at h
      obtain ⟨dropped, _, h₁, data, _, h₂, userSp, _, h₃, signalSp, _, h₄, _, _, ⟨m, hm, hr₅⟩, _, _,
        ⟨hmap, hr₆⟩, _, k₃, himg, _, k₄, hfix, handle, k₅, hopen, _, _, hread, _, _, hclose, hr⟩ := h
      obtain ⟨-, rfl⟩ := Prod.mk.inj hr₅
      obtain ⟨-, rfl⟩ := Prod.mk.inj hr₆
      obtain ⟨mem, rfl⟩ := vfsRead_some hread
      obtain ⟨a', hfree, hr₇⟩ := kfree_some.1 hclose
      obtain ⟨-, rfl⟩ := Prod.mk.inj hr₇
      obtain ⟨-, rfl⟩ := Prod.mk.inj hr
      obtain ⟨al₁, g₁, rfl⟩ := kmalloc_took h₁
      obtain ⟨al₂, g₂, rfl⟩ := kmalloc_took h₂
      obtain ⟨al₃, g₃, rfl⟩ := kmalloc_took h₃
      obtain ⟨al₄, g₄, rfl⟩ := kmalloc_took h₄
      refine ⟨f, k₁, dropped, data, userSp, signalSp, al₄, m, k₃, k₄, handle, k₅, mem, a', rfl, hdel,
        ((g₁.append g₂).append g₃).append g₄, ?_, ?_, ?_, hfix, openNode_some hopen, hfree, rfl⟩
      · simpa [took, setProc, Process.load] using hm
      · simpa [took, Process.load] using hmap
      · simpa [took, Process.load, setProc, execRequests, Bool.or_assoc] using himg

/-! ## `mmap` -/

theorem roundPage_mod (x : Nat) : roundPage x % 0x1000 = 0 := by
  unfold roundPage
  split <;> omega

/-- Rounding up again changes nothing. -/
theorem roundPage_of_mod {x : Nat} (h : x % 0x1000 = 0) : roundPage x = x := by
  unfold roundPage
  rw [if_neg (by omega)]

/-- Where `mmap` puts `len` bytes when it is asked for `addr`. -/
inductive Places (vs : List Vma) (len : Nat) : Nat → Nat → Prop
  | here (addr : Nat) : (∀ v ∈ vs, ¬ overlaps (roundPage addr) len v) →
      Places vs len addr (roundPage addr)
  | next (addr : Nat) {v : Vma} {r : Nat} : v ∈ vs → overlaps (roundPage addr) len v →
      Places vs len ((v.virtAddr + v.areaSize) % 2 ^ 64) r → Places vs len addr r

/-- The area that `mmap` adds. -/
def mapArea (addr r len prot ptr : Nat) : Vma :=
  ⟨addr, r, virtToPhys ptr, len, protRwx prot, true⟩

theorem mmap_some {addr len prot r : Nat} (h : mmap n addr len prot k = some (r, k')) :
    Places (k.procs k.sched.currThread).vmaList (roundPage len) addr r ∧
    ∃ ptr a₁ rec a₂ mem, RpiKernel.kmalloc (roundPage len % 2 ^ 32) k.alloc = some (ptr, a₁) ∧
      Mapped ptr (roundPage len) ∧
      RpiKernel.kmalloc (vmaBytes % 2 ^ 32) a₁ = some (rec, a₂) ∧ rec ≠ 0 ∧
      k' = ({ k with alloc := a₂, oom := k.oom || ptr == 0, bytes := mem } : Kernel).setProc
        k.sched.currThread (Process.addAreas [mapArea rec r (roundPage len) prot ptr]) := by
  induction n generalizing addr len with
  | zero => exact absurd h (by simp [mmap, failure_some])
  | succ n ih =>
      unfold mmap at h
      rw [currThread_bind, proc_bind] at h
      cases hf : (k.procs k.sched.currThread).vmaList.find? fun v =>
        overlaps (roundPage addr) (roundPage len) v with
      | some v =>
          simp only [hf] at h
          obtain ⟨hp, hres⟩ := ih h
          rw [roundPage_of_mod (roundPage_mod len)] at hp hres
          have hv := List.find?_some hf
          exact ⟨.next addr (List.mem_of_find?_eq_some hf) (by simpa using hv) hp, hres⟩
      | none =>
          simp only [hf, bind_some, mmuAddVma_some, store_some, pure_some,
            roundPage_of_mod (roundPage_mod len)] at h
          obtain ⟨ptr, _, h₁, _, _, ⟨hmap, hr₂⟩, _, _, ⟨rec, a₂, hne, h₂, hr₃⟩, hr⟩ := h
          obtain ⟨a₁, ha₁, rfl⟩ := kmalloc_some.1 h₁
          obtain ⟨-, rfl⟩ := Prod.mk.inj hr₂
          obtain ⟨-, rfl⟩ := Prod.mk.inj hr₃
          obtain ⟨rfl, rfl⟩ := Prod.mk.inj hr
          exact ⟨.here addr fun v hv => by simpa using List.find?_eq_none.1 hf v hv, ptr, a₁, rec, a₂,
            fun x => if ptr ≤ x ∧ x < ptr + roundPage len then 0 else k.bytes x, ha₁, hmap, h₂, hne, rfl⟩

/-! ## `open` and `close` -/

/-- The blocks of a new file. -/
def vnodeBlocks (v inode data : Nat) : Blocks :=
  (v, vnodeBytes) :: (inode, tmpfsInodeBytes) :: ownBlock data 0x1000

/-- The calls of `kmalloc` for it. -/
def vnodeRequests (v inode data : Nat) : List (Nat × Nat) :=
  [(vnodeBytes, v), (tmpfsInodeBytes, inode), (0x1000, data)]

theorem tmpfsCreateVnode_some {v : Nat} (h : tmpfsCreateVnode k = some (v, k')) :
    ∃ inode data a, v ≠ 0 ∧ inode ≠ 0 ∧ Grants k.alloc (vnodeRequests v inode data) a ∧
      k' = { k with
        alloc := a, oom := k.oom || data == 0, misc := vnodeBlocks v inode data ++ k.misc } := by
  unfold tmpfsCreateVnode at h
  simp only [modify_bind, bind_some, kmallocRecord_some, pure_some] at h
  obtain ⟨v, _, ⟨hv, a₁, h₁, rfl⟩, inode, _, ⟨hi, a₂, h₂, rfl⟩, data, _, h₃, hr⟩ := h
  obtain ⟨a₃, ha₃, rfl⟩ := kmalloc_some.1 h₃
  obtain ⟨rfl, rfl⟩ := Prod.mk.inj hr
  refine ⟨inode, data, a₃, hv, hi, .cons h₁ (.cons h₂ (.cons ha₃ (.nil _))), ?_⟩
  simp [vnodeBlocks, ownBlock]

/-- Nothing, or a new file. -/
def Creates (k k' : Kernel) : Prop := k' = k ∨ ∃ v, tmpfsCreateVnode k = some (v, k')

theorem vfsOpen_some {target : OpenTarget} {flags f : Nat}
    (h : vfsOpen target flags k = some (some f, k')) :
    ∃ node k₁, Creates k k₁ ∧ NewFile f { openHandle node (k₁.files f) with flags := flags } k₁ k' := by
  unfold vfsOpen at h
  cases target with
  | missing => exact absurd h (by simp [failure_some])
  | noDirectory => exact absurd (Prod.mk.inj (pure_some.1 h)).1 (by simp)
  | found node =>
      simp only [bind_some, pure_some] at h
      obtain ⟨f, _, h₁, hr⟩ := h
      obtain ⟨hf, rfl⟩ := Prod.mk.inj hr
      exact ⟨node, k, Or.inl rfl, Option.some.inj hf ▸ openNode_some h₁⟩
  | created =>
      simp only [bind_some, pure_some] at h
      obtain ⟨v, k₁, h₁, f, _, h₂, hr⟩ := h
      obtain ⟨hf, rfl⟩ := Prod.mk.inj hr
      exact ⟨_, k₁, Or.inr ⟨v, h₁⟩, Option.some.inj hf ▸ openNode_some h₂⟩

theorem openFile_some {target : OpenTarget} {flags : Nat} {r : Option Nat}
    (h : openFile target flags k = some (r, k')) : k' = k ∨
    ∃ i < maxFd, (k.procs k.sched.currThread).fileDescriptorsTable i = 0 ∧
      ∃ node k₁, Creates k k₁ ∧ Opens k.sched.currThread i node flags k₁ k' := by
  unfold openFile at h
  rw [currThread_bind, proc_bind] at h
  cases hf : (List.range maxFd).find? fun i =>
    (k.procs k.sched.currThread).fileDescriptorsTable i = 0 with
  | none =>
      simp only [hf] at h
      exact Or.inl (Prod.mk.inj (pure_some.1 h)).2
  | some i =>
      simp only [hf, bind_some] at h
      obtain ⟨of, k₁, h₁, h⟩ := h
      cases of with
      | none =>
          obtain ⟨-, rfl⟩ := Prod.mk.inj (pure_some.1 h)
          left
          cases target with
          | missing => exact absurd h₁ (by simp [vfsOpen, failure_some])
          | noDirectory => exact (Prod.mk.inj (pure_some.1 h₁)).2
          | found node => simp only [vfsOpen, bind_some, pure_some, Prod.mk.injEq, reduceCtorEq,
              false_and, and_false, exists_false] at h₁
          | created => simp only [vfsOpen, bind_some, pure_some, Prod.mk.injEq, reduceCtorEq,
              false_and, and_false, exists_false] at h₁
      | some f =>
          simp only [modifyProc_bind, pure_some] at h
          obtain ⟨-, rfl⟩ := Prod.mk.inj h
          obtain ⟨node, k₂, hc, hn⟩ := vfsOpen_some h₁
          have hi := List.mem_range.1 (List.mem_of_find?_eq_some hf)
          have hz := List.find?_some hf
          exact Or.inr ⟨i, hi, by simpa using hz, node, k₂, hc, f, k₁, hn, rfl⟩

theorem close_some {fd : Int} {r : Bool} (h : close fd k = some (r, k')) :
    0 ≤ fd ∧ fd ≤ maxFd ∧
    let file := (k.procs k.sched.currThread).fileDescriptorsTable fd.toNat
    (file = 0 ∧ k' = k ∨ file ≠ 0 ∧ ∃ a, RpiKernel.kfree file k.alloc = some a ∧
      k' = ({ k with alloc := a } : Kernel).setProc k.sched.currThread
        (Process.setFile fd.toNat 0)) := by
  unfold close at h
  rw [guard_some] at h
  obtain ⟨hfd, h⟩ := h
  simp only [currThread_bind, proc_bind] at h
  refine ⟨by omega, by omega, ?_⟩
  by_cases hf : (k.procs k.sched.currThread).fileDescriptorsTable fd.toNat = 0
  · simp only [hf, if_true] at h
    exact Or.inl ⟨hf, (Prod.mk.inj (pure_some.1 h)).2⟩
  · simp only [if_neg hf, vfsClose, bind_some, kfree_some, modifyProc_bind, pure_some] at h
    obtain ⟨_, _, ⟨a, ha, hr₁⟩, hr⟩ := h
    obtain ⟨-, rfl⟩ := Prod.mk.inj hr₁
    obtain ⟨-, rfl⟩ := Prod.mk.inj hr
    exact Or.inr ⟨hf, a, ha, rfl⟩

theorem chdir_some {path : List Char} (h : chdir path k = some ((), k')) :
    ∃ cwd, k' = k.setProc k.sched.currThread fun p => { p with currWorkingDir := cwd } := by
  unfold chdir at h
  rw [currThread_bind, proc_bind, guard_some] at h
  exact ⟨_, (Prod.mk.inj (modifyProc_some.1 h.2)).2⟩

/-! ## the rest of the kernel -/

theorem take_some {size : Nat} (h : take size k = some ((), k')) :
    size ≤ maxRequest ∧ ∃ p a, RpiKernel.kmalloc (size % 2 ^ 32) k.alloc = some (p, a) ∧
      k' = { k with alloc := a, oom := k.oom || p == 0, misc := ownBlock p size ++ k.misc } := by
  unfold take at h
  rw [guard_some] at h
  obtain ⟨hs, h⟩ := h
  simp only [bind_some] at h
  obtain ⟨p, _, h₁, h⟩ := h
  obtain ⟨a, ha, rfl⟩ := kmalloc_some.1 h₁
  refine ⟨by omega, p, a, ha, ?_⟩
  by_cases hp : p = 0
  · simp only [hp, ne_eq, not_true_eq_false, if_false] at h ⊢
    exact (Prod.mk.inj (pure_some.1 h)).2
  · simp only [if_pos hp] at h
    rw [(Prod.mk.inj (modify_some.1 h)).2, ownBlock, if_neg hp]
    rfl

theorem give_some {ptr size : Nat} (h : give ptr size k = some ((), k')) :
    (ptr, size) ∈ k.misc ∧ ∃ a, RpiKernel.kfree ptr k.alloc = some a ∧
      k' = { k with alloc := a, misc := k.misc.erase (ptr, size) } := by
  unfold give at h
  rw [get_bind, guard_some, not_not] at h
  obtain ⟨hm, h⟩ := h
  simp only [bind_some, kfree_some] at h
  obtain ⟨_, _, ⟨a, ha, hr⟩, h⟩ := h
  obtain ⟨-, rfl⟩ := Prod.mk.inj hr
  exact ⟨hm, a, ha, (Prod.mk.inj (modify_some.1 h)).2⟩

end Kernel

end RpiKernel
