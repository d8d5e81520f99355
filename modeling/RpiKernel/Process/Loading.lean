import RpiKernel.Process.ChildReturn
import RpiKernel.Process.Duplication
import RpiKernel.Process.KernelFault

/-!
# RpiKernel.Process.Loading

Who writes to the memory of programs.  `exec` stores the file in the first area of its thread; `fork`
and `mmap` store to blocks that they have just got, a child that returns from `fork` stores to the
kernel stack of its parent, and no other step stores anything.  So as long as children find such a stack a
thread reads in its areas what it read (`childRun_reads`), until it stores to them itself, and a program
that was loaded stays loaded, page faults and all (`exec_loadsProgram`).
-/

namespace RpiKernel

open Custody Runs

namespace Kernel

variable {k k' k₀ : Kernel} {f : ExecFile} {t u n : Nat} {v w : Vma}

/-- The file is one of a tmpfs or of the archive. -/
def ExecFile.Stored (f : ExecFile) : Prop := f.node.fOps = .tmpfs ∨ f.node.fOps = .initramfs

instance (f : ExecFile) : Decidable f.Stored := inferInstanceAs (Decidable (_ ∨ _))

/-! ## what is written -/

theorem ExecFile.Stored.getsize (h : f.Stored) : getsize f = f.size := by
  rcases h with h | h <;> simp only [Kernel.getsize, h]

/-- A handle that was just opened is at the beginning of the file. -/
theorem ExecFile.Stored.opened (h : f.Stored) {flags handle : Nat}
    (hopen : openNode f.node flags k = some (handle, k')) : (k'.files handle).fPos = 0 := by
  obtain ⟨a, -, rfl⟩ := (openNode_some hopen).some
  dsimp only
  rw [Function.update_self]
  rcases h with h | h <;> simp only [openHandle, h]

/-- `vfs_read` of a file from its beginning, as much of it as 32 bits can say. -/
theorem ExecFile.Stored.vfsRead (h : f.Stored) {handle : FileHandle} {buf : Nat} (hpos : handle.fPos = 0) :
    Kernel.vfsRead f handle buf (Kernel.getsize f % 2 ^ 32) = store buf (f.size % 2 ^ 32) f.content := by
  have hcut : ¬ (f.size % 2 ^ 32 + 0) % 2 ^ 64 > f.size := by omega
  rw [h.getsize]
  rcases h with h | h <;> simp only [Kernel.vfsRead, h, hpos, if_neg hcut, Nat.zero_add]

theorem mmuDelAllVma_bytes (h : mmuDelAllVma t k = some ((), k')) : k'.bytes = k.bytes := by
  obtain ⟨k₁, hdel, rfl⟩ := mmuDelAllVma_some h
  obtain ⟨a, rfl⟩ := delVmas_some hdel
  rfl

theorem addImageAreas_bytes (h : addImageAreas t k = some ((), k')) :
    k'.bytes = k.bytes ∧ (k'.procs t).data = (k.procs t).data := by
  obtain ⟨a₁, a₂, a, -, -, hr⟩ := addImageAreas_some h
  rw [(Prod.mk.inj hr).2, setProc_bytes, setProc_procs]
  exact ⟨rfl, rfl⟩

theorem addFixedAreas_bytes (h : addFixedAreas t k = some ((), k')) :
    k'.bytes = k.bytes ∧ (k'.procs t).data = (k.procs t).data := by
  obtain ⟨a₁, a₂, a₃, a, -, -, hr⟩ := addFixedAreas_some h
  rw [(Prod.mk.inj hr).2, setProc_bytes, setProc_procs]
  exact ⟨rfl, rfl⟩

/-- `exec` writes the file, where `data` of the thread points. -/
theorem exec_bytes (hf : f.Stored) (h : exec (some f) k = some ((), k')) :
    k'.bytes = fun x =>
      if (k'.procs k.sched.currThread).data ≤ x ∧ x < (k'.procs k.sched.currThread).data + f.size % 2 ^ 32 then
        f.content (x - (k'.procs k.sched.currThread).data)
      else k.bytes x := by
  unfold exec at h
  rw [currThread_bind, bind_some] at h
  obtain ⟨_, k₁, hdel, h⟩ := h
  simp only [modifyProc_bind, get_bind, proc_bind, bind_some, onTables_some, clearTable_some,
    modifyProc_some] at h
  obtain ⟨dropped, _, h₁, data, _, h₂, userSp, _, h₃, signalSp, _, h₄, _, _, ⟨m, hm, hr₅⟩, _, _, ⟨hmap, hr₆⟩,
    _, k₃, himg, _, k₄, hfix, handle, k₅, hopen, _, _, hread, _, _, hclose, hr⟩ := h
  obtain ⟨-, rfl⟩ := Prod.mk.inj hr₅
  obtain ⟨-, rfl⟩ := Prod.mk.inj hr₆
  obtain ⟨a', hfree, hr₇⟩ := kfree_some.1 hclose
  obtain ⟨-, rfl⟩ := Prod.mk.inj hr₇
  obtain ⟨-, rfl⟩ := Prod.mk.inj hr
  obtain ⟨al₁, g₁, rfl⟩ := kmalloc_took h₁
  obtain ⟨al₂, g₂, rfl⟩ := kmalloc_took h₂
  obtain ⟨al₃, g₃, rfl⟩ := kmalloc_took h₃
  obtain ⟨al₄, g₄, rfl⟩ := kmalloc_took h₄
  obtain ⟨hbytes₃, hdata₃⟩ := addImageAreas_bytes himg
  obtain ⟨hbytes₄, hdata₄⟩ := addFixedAreas_bytes hfix
  rw [hf.vfsRead (hf.opened hopen)] at hread
  obtain ⟨ao, -, rfl⟩ := (openNode_some hopen).some
  obtain ⟨-, hr⟩ := store_some.1 hread
  obtain ⟨-, rfl⟩ := Prod.mk.inj hr
  have hdata : (k₄.procs k.sched.currThread).data = data := by
    rw [hdata₄, hdata₃, setProc_procs]
  have hbytes : k₄.bytes = k.bytes := by
    rw [hbytes₄, hbytes₃, setProc_bytes]
    show k₁.bytes = _
    exact mmuDelAllVma_bytes hdel
  rw [setProc_bytes, setProc_procs]
  show (fun x => if data ≤ x ∧ x < data + f.size % 2 ^ 32 then f.content (x - data) else k₄.bytes x) = _
  dsimp only
  rw [hdata, hbytes]

/-! ## who reads what -/

/-- The first area of thread `t` is a program, of which it reads the bytes of the file. -/
def Loaded (f : ExecFile) (t : Nat) (k : Kernel) : Prop :=
  ∃ v vs, (k.procs t).vmaList = v :: vs ∧ v.virtAddr = userKernelBase ∧ v.areaSize = roundPage f.size ∧
    v.rwx = 0b111 ∧ v.isAlloced = true ∧ ∀ i < f.size, v.read k (userKernelBase + i) = f.content i

/-- Thread `u` reads in all of its areas what it read. -/
def ReadsAlike (u : Nat) (k k' : Kernel) : Prop :=
  ∀ v ∈ (k.procs u).alloced, ∀ va, v.virtAddr ≤ va → va < v.virtAddr + v.areaSize → v.read k' va = v.read k va

theorem alloced_of_head {vs : List Vma} (hlist : (k.procs t).vmaList = v :: vs) (hall : v.isAlloced = true) :
    v ∈ (k.procs t).alloced := by
  rw [Process.mem_alloced, hlist]
  exact ⟨List.mem_cons_self, hall⟩

/-- The first area of the thread is what `exec` writes to. -/
theorem Partitioned.exec_area (h : Partitioned k) (hf : f.Stored) (hback : (KernelAct.exec (some f)).Backs k)
    (hs : kernelStep k (n, .exec (some f)) = some k') : ∃ v vs, (k'.procs k.sched.currThread).vmaList = v :: vs ∧
      v.virtAddr = userKernelBase ∧ v.areaSize = roundPage (f.size % 2 ^ 32) ∧ v.rwx = 0b111 ∧
      v.isAlloced = true ∧ Living k' k.sched.currThread ∧
      k'.bytes = fun x =>
        if physToVirt v.physAddr ≤ x ∧ x < physToVirt v.physAddr + f.size % 2 ^ 32 then
          f.content (x - physToVirt v.physAddr)
        else k.bytes x := by
  obtain ⟨hen, hp⟩ := kernelStep_some hs
  obtain ⟨⟨⟨⟩, k'⟩, hx, rfl⟩ := Option.map_eq_some_iff.1 hp
  have h' : Partitioned k' := h.next (a := .exec (some f)) trivial hback hs
  have hl : Living k k.sched.currThread := h.toKernelOk.living hen
  obtain ⟨k₁, dropped, data, userSp, signalSp, a, a₁, a₂, a₃, a₄, a₅, hdel, hg, hproc⟩ := exec_loads hx
  obtain ⟨L, hh⟩ := (h.owns hl).delVma_holds hdel
  have hphys : physToVirt (virtToPhys data) = data :=
    grants_physToVirt hg hh (getsize f % 2 ^ 32, data) (by simp [execRequests])
  have hdata : (k'.procs k.sched.currThread).data = data := congrArg Process.data hproc
  have hbytes := exec_bytes hf hx
  have hl' : Living k' k.sched.currThread := by
    have hsched := exec_sched hx
    have hcurr : k'.sched.currThread ≠ 0 := by rwa [hsched]
    have hlive := h'.toKernelOk.living hcurr
    rwa [hsched] at hlive
  rw [hf.getsize] at hproc
  have hlist : ∃ vs, (k'.procs k.sched.currThread).vmaList =
      ⟨a₁, userKernelBase, virtToPhys data, roundPage (f.size % 2 ^ 32), 0b111, true⟩ :: vs := by
    rw [hproc]
    exact ⟨_, rfl⟩
  obtain ⟨vs, hvs⟩ := hlist
  refine ⟨_, vs, hvs, rfl, rfl, rfl, rfl, hl', ?_⟩
  rw [hdata] at hbytes
  dsimp only
  rw [hphys, hbytes]

/-- What is written to an area that `t` has is not read by others. -/
theorem Partitioned.read_other (h : Partitioned k) (h' : Partitioned k') (hu : Living k u)
    (hv : v ∈ (k.procs u).alloced) (ht : Living k' t) (hw : w ∈ (k'.procs t).alloced) (hne : u ≠ t)
    (hsame : k'.procs u = k.procs u)
    (hfree : k'.sched.status u ≠ .free) {content : Nat → UInt8} {m : Nat} (hm : m ≤ w.areaSize)
    (hbytes : k'.bytes = fun x => if physToVirt w.physAddr ≤ x ∧ x < physToVirt w.physAddr + m then
      content (x - physToVirt w.physAddr) else k.bytes x) {va : Nat} (hlo : v.virtAddr ≤ va)
    (hhi : va < v.virtAddr + v.areaSize) : v.read k' va = v.read k va := by
  have hmv : Mapped (physToVirt v.physAddr) v.areaSize := h.mapped hu hv
  have hmw : Mapped (physToVirt w.physAddr) w.areaSize := h'.mapped ht hw
  have hapart : v.memory.Apart w.memory :=
    h'.isolated.others u t hne hfree ht.2 v (by rwa [hsame]) w hw
  rw [read_eq hmv hlo hhi, read_eq hmv hlo hhi, hbytes]
  dsimp only
  rw [if_neg fun hin => ?_]
  have hphysv := (h.areas u v (Process.mem_alloced.1 hv).1).phys
  have hphysw := (h'.areas t w (Process.mem_alloced.1 hw).1).phys
  refine hapart (v.physAddr + (va - v.virtAddr)) ?_
  unfold Mapped kernelMapSize at hmv hmw
  unfold Vma.memory
  dsimp only
  unfold physToVirt at hmv hmw hin
  omega

/-- After `exec` the thread reads the file. -/
theorem Partitioned.exec_loaded (h : Partitioned k) (hf : f.Stored) (h32 : f.size < 2 ^ 32)
    (hback : (KernelAct.exec (some f)).Backs k) (hs : kernelStep k (n, .exec (some f)) = some k') :
    Loaded f k.sched.currThread k' := by
  obtain ⟨v, vs, hlist, hvirt, hsize, hrwx, hall, hl', hbytes⟩ := h.exec_area hf hback hs
  rw [Nat.mod_eq_of_lt h32] at hsize hbytes
  have hin : v ∈ (k'.procs k.sched.currThread).alloced := alloced_of_head hlist hall
  have hm := (h.next (a := .exec (some f)) trivial hback hs).mapped hl' hin
  have hround : f.size ≤ v.areaSize := hsize ▸ le_roundPage (by omega)
  refine ⟨v, vs, hlist, hvirt, hsize, hrwx, hall, fun i hi => ?_⟩
  rw [read_eq hm (by omega) (by omega), hvirt, Nat.add_sub_cancel_left, hbytes]
  dsimp only
  rw [if_pos (by omega), Nat.add_sub_cancel_left]

/-! ## the other calls -/

/-- `mmap` clears a new block. -/
theorem mmap_written {addr len prot r : Nat} (h : mmap n addr len prot k = some (r, k')) :
    ∃ ptr a, RpiKernel.kmalloc (roundPage len % 2 ^ 32) k.alloc = some (ptr, a) ∧ Mapped ptr (roundPage len) ∧
      k'.bytes = fun x => if ptr ≤ x ∧ x < ptr + roundPage len then 0 else k.bytes x := by
  induction n generalizing addr len with
  | zero => exact absurd h (by simp [mmap, failure_some])
  | succ n ih =>
      unfold mmap at h
      rw [currThread_bind, proc_bind] at h
      cases hf : (k.procs k.sched.currThread).vmaList.find? fun v =>
        overlaps (roundPage addr) (roundPage len) v with
      | some v =>
          simp only [hf] at h
          obtain ⟨ptr, a, hk, hm, hbytes⟩ := ih h
          rw [roundPage_of_mod (roundPage_mod len)] at hk hm hbytes
          exact ⟨ptr, a, hk, hm, hbytes⟩
      | none =>
          simp only [hf, bind_some, mmuAddVma_some, store_some, pure_some,
            roundPage_of_mod (roundPage_mod len)] at h
          obtain ⟨ptr, _, h₁, _, _, ⟨hmap, hr₂⟩, _, _, ⟨rec, a₂, hne, h₂, hr₃⟩, hr⟩ := h
          obtain ⟨a₁, ha₁, rfl⟩ := kmalloc_some.1 h₁
          obtain ⟨-, rfl⟩ := Prod.mk.inj hr₂
          obtain ⟨-, rfl⟩ := Prod.mk.inj hr₃
          obtain ⟨rfl, rfl⟩ := Prod.mk.inj hr
          exact ⟨ptr, a₁, ha₁, hmap, rfl⟩

theorem killZombiesLoop_bytes {p : Option Nat} (h : killZombiesLoop n p k = some ((), k')) :
    k'.bytes = k.bytes := by
  induction n generalizing p k with
  | zero =>
      cases p with
      | none =>
          unfold killZombiesLoop at h
          obtain ⟨-, rfl⟩ := Prod.mk.inj (pure_some.1 h)
          rfl
      | some th =>
          unfold killZombiesLoop at h
          exact absurd h (by simp [failure_some])
  | succ n ih =>
      cases p with
      | none =>
          unfold killZombiesLoop at h
          obtain ⟨-, rfl⟩ := Prod.mk.inj (pure_some.1 h)
          rfl
      | some th =>
          unfold killZombiesLoop at h
          simp only [get_bind] at h
          by_cases hz : k.sched.status th = .zombie
          · simp only [if_pos hz, bind_some] at h
            obtain ⟨_, k₁, hr, h⟩ := h
            obtain ⟨a, w, rfl⟩ := reap_some hr
            rw [ih h, setProc_bytes]
          · simp only [if_neg hz] at h
            exact ih h

theorem onSched_bytes {g : Sched → Option Sched} (h : onSched g k = some ((), k')) : k'.bytes = k.bytes := by
  obtain ⟨s, -, hr⟩ := onSched_some.1 h
  rw [(Prod.mk.inj hr).2]

theorem fault_bytes {far iss : Nat} (h : mmuMemfailAbortHandle n far iss k = some ((), k')) :
    k'.bytes = k.bytes := by
  obtain ⟨b, k₂, habort, hrest⟩ := mmuMemfailAbortHandle_some.1 h
  have hbytes : k₂.bytes = k.bytes := by
    rcases memfailAbort_some habort with ⟨-, rfl⟩ | ⟨-, v, -, -, va, pa, m, -, rfl⟩ <;> rfl
  rcases hrest with ⟨-, hs⟩ | ⟨-, rfl⟩
  · exact (onSched_bytes hs).trans hbytes
  · exact hbytes

/-- Only `fork`, `exec` and `mmap` write to memory. -/
theorem kernelStep_bytes {a : KernelAct} (hs : kernelStep k (n, a) = some k')
    (hq : ¬ a.MovesAreas ∨ a = .killZombies) : k'.bytes = k.bytes := by
  obtain ⟨-, hp⟩ := kernelStep_some hs
  cases a with
  | fork cpu => simp [KernelAct.MovesAreas] at hq
  | exec file => simp [KernelAct.MovesAreas] at hq
  | mmap addr len prot => simp [KernelAct.MovesAreas] at hq
  | killZombies =>
      obtain ⟨⟨_, k'⟩, hf, rfl⟩ := Option.map_eq_some_iff.1 hp
      exact killZombiesLoop_bytes hf
  | chdir path =>
      obtain ⟨⟨_, k'⟩, hf, rfl⟩ := Option.map_eq_some_iff.1 hp
      obtain ⟨cwd, rfl⟩ := chdir_some hf
      rw [setProc_bytes]
  | openFile target flags =>
      obtain ⟨⟨r, k'⟩, hf, rfl⟩ := Option.map_eq_some_iff.1 hp
      rcases openFile_some hf with rfl | ⟨i, -, -, node, k₁, hcr, f, k₂, hn, rfl⟩
      · rfl
      · obtain ⟨a, -, rfl⟩ := hn.some
        rw [setProc_bytes]
        rcases hcr with rfl | ⟨v, hv⟩
        · rfl
        · obtain ⟨inode, data, a', -, -, -, rfl⟩ := tmpfsCreateVnode_some hv
          rfl
  | close fd =>
      obtain ⟨⟨r, k'⟩, hf, rfl⟩ := Option.map_eq_some_iff.1 hp
      obtain ⟨-, -, ⟨-, rfl⟩ | ⟨-, a, -, rfl⟩⟩ := close_some hf
      · rfl
      · rw [setProc_bytes]
  | fault far iss =>
      obtain ⟨⟨_, k'⟩, hf, rfl⟩ := Option.map_eq_some_iff.1 hp
      exact fault_bytes hf
  | exit =>
      simp only [KernelAct.perform] at hp
      obtain ⟨⟨_, k'⟩, hf, rfl⟩ := Option.map_eq_some_iff.1 hp
      exact onSched_bytes hf
  | kill pid =>
      obtain ⟨⟨_, k'⟩, hf, rfl⟩ := Option.map_eq_some_iff.1 hp
      exact onSched_bytes hf
  | signalDefault =>
      obtain ⟨⟨_, k'⟩, hf, rfl⟩ := Option.map_eq_some_iff.1 hp
      exact onSched_bytes hf
  | schedule =>
      obtain ⟨⟨_, k'⟩, hf, rfl⟩ := Option.map_eq_some_iff.1 hp
      exact onSched_bytes hf
  | take size =>
      obtain ⟨⟨_, k'⟩, hf, rfl⟩ := Option.map_eq_some_iff.1 hp
      obtain ⟨-, p, a, -, rfl⟩ := take_some hf
      rfl
  | give ptr size =>
      obtain ⟨⟨_, k'⟩, hf, rfl⟩ := Option.map_eq_some_iff.1 hp
      obtain ⟨-, a, -, rfl⟩ := give_some hf
      rfl

/-! ## steps and runs -/

/-- The bytes of the areas of a thread are used. -/
theorem Partitioned.used (h : Partitioned k) (hl : Living k u) (hv : v ∈ (k.procs u).alloced) {i : Nat}
    (hi : i < v.areaSize) : Used k.alloc.Region [] (physToVirt v.physAddr + i) := by
  obtain ⟨m, hm, hle⟩ := h.shares.backed _ _ (mem_held hl (h.block hv (by omega)))
  exact Or.inl ⟨_, m, hm, Nat.le_add_right _ _, by dsimp only at hle ⊢; omega⟩

/-- A step that leaves what is used. -/
theorem Partitioned.readsAlike_of_used (h : Partitioned k) (hl : k.sched.status u ≠ .free)
    (hkeep : ∀ x, Used k.alloc.Region [] x → k'.bytes x = k.bytes x) : ReadsAlike u k k' := by
  intro v hv va hlo hhi
  have hlu : Living k u := h.living hl hv
  have hm := h.mapped hlu hv
  rw [read_eq hm hlo hhi, read_eq hm hlo hhi]
  exact hkeep _ (h.used hlu hv (by omega))

/-- `fork` writes to new blocks. -/
theorem Partitioned.fork_used {cpu : ThreadContext} {child : Nat} (h : Partitioned k)
    (hplain : ∀ v ∈ (k.procs k.sched.currThread).vmaList, Plain v) (hcurr : k.sched.currThread ≠ 0)
    (hw : ForksWell k (.fork cpu)) (hf : fork cpu k = some (child, k')) (ho : k'.oom = false) :
    ∀ x, Used k.alloc.Region [] x → k'.bytes x = k.bytes x := by
  obtain ⟨hhome, hslot⟩ := hw
  have hsched := fork_sched hf
  obtain ⟨hfree, -, -⟩ := threadCreate_spec hsched
  have hne : k.sched.currThread ≠ child := fun he => h.sched.curr (he ▸ hfree)
  have hl : Living k k.sched.currThread := h.toKernelOk.living hcurr
  obtain ⟨lost, -, hdrop, -, -⟩ := fork_copies hne hhome.single
    (fun v hv _ => covers_of_le (h.areas _ v hv).size) (covers_of_le (by decide)) (h.last _)
    h.settled.holds_nothing hf
  have hown := fork_holds hne (hslot child _ hsched) hf hdrop
  exact (fork_areaBytes h.settled hne hhome.single (fun v hv => h.source hl (hplain v hv) hv) hf ho hown).1

/-- `mmap` writes to a new block. -/
theorem Partitioned.mmap_used {addr len prot r : Nat} (h : Partitioned k)
    (hm : mmap n addr len prot k = some (r, k')) : ∀ x, Used k.alloc.Region [] x → k'.bytes x = k.bytes x := by
  obtain ⟨ptr, a, hk, hmapped, hbytes⟩ := mmap_written hm
  have hcov : roundPage len ≤ granted (roundPage len % 2 ^ 32) := by
    have hcov := covers_of_le (mmap_backed hm).1
    unfold Covers at hcov
    rwa [roundPage_of_mod (roundPage_mod len)] at hcov
  have hblock := h.settled.holds_nothing.kmalloc_own hk hcov
  intro x hx
  rw [hbytes]
  dsimp only
  refine if_neg fun hin => ?_
  have hne : ptr ≠ 0 := by
    unfold Mapped at hmapped
    omega
  rw [ownBlock_of_ne hne, List.singleton_append] at hblock
  have hout := hblock.not_used hx
  omega

/-- The devices say that they are too large. -/
theorem stored_of_backs (h : getsize f % 2 ^ 32 ≤ maxRequest) : f.Stored := by
  unfold getsize at h
  unfold ExecFile.Stored
  cases hops : f.node.fOps <;> simp only [hops] at h
  · exact .inl rfl
  · exact .inr rfl
  all_goals exact absurd h (by decide)

/-- No step changes what a thread reads, except for its own `exec`. -/
theorem Partitioned.step_reads {a : KernelAct} (h : Partitioned k)
    (hplain : ∀ t, ∀ v ∈ (k.procs t).vmaList, Plain v) (hw : ForksWell k a) (hb : a.Backs k)
    (hs : kernelStep k (n, a) = some k') (ho : k'.oom = false)
    (hu : k.sched.status u ≠ .free) (hexec : ∀ file, a = .exec file → u ≠ k.sched.currThread) :
    ReadsAlike u k k' := by
  by_cases hq : ¬ a.MovesAreas ∨ a = .killZombies
  · refine h.readsAlike_of_used hu fun x _ => ?_
    rw [kernelStep_bytes hs hq]
  obtain ⟨hen, hp⟩ := kernelStep_some hs
  cases a with
  | fork cpu =>
      obtain ⟨⟨child, k'⟩, hf, rfl⟩ := Option.map_eq_some_iff.1 hp
      exact h.readsAlike_of_used hu (h.fork_used (hplain _) hen hw hf ho)
  | exec file =>
      cases file with
      | none =>
          obtain ⟨⟨_, k'⟩, hf, rfl⟩ := Option.map_eq_some_iff.1 hp
          obtain ⟨f, k₁, _, _, _, _, _, _, _, _, _, _, _, _, he, -⟩ := exec_some hf
          cases he
      | some f =>
          have hne : u ≠ k.sched.currThread := hexec (some f) rfl
          have hstored : f.Stored := stored_of_backs hb.1
          have h' : Partitioned k' := h.next (a := .exec (some f)) hw hb hs
          obtain ⟨v, vs, hlist, -, hsize, -, hall, hl', hbytes⟩ := h.exec_area hstored hb hs
          obtain ⟨⟨_, k'⟩, hf, rfl⟩ := Option.map_eq_some_iff.1 hp
          have hin : v ∈ (k'.procs k.sched.currThread).alloced := alloced_of_head hlist hall
          have hle : f.size % 2 ^ 32 ≤ v.areaSize := hsize ▸ le_roundPage (by omega)
          have hfree : k'.sched.status u ≠ .free := by rwa [exec_sched hf]
          intro w hw va hlo hhi
          exact h.read_other h' (h.living hu hw) hw hl' hin hne ((exec_procs hf).1 u hne) hfree hle hbytes hlo hhi
  | mmap addr len prot =>
      obtain ⟨⟨r, k'⟩, hf, rfl⟩ := Option.map_eq_some_iff.1 hp
      exact h.readsAlike_of_used hu (h.mmap_used hf)
  | _ => simp [KernelAct.MovesAreas] at hq

/-- The kernel stack of a thread is none of its areas, nor of those of others. -/
theorem Partitioned.stack_ne (h : Partitioned k) (ht : Living k t) (hu : Living k u) (hv : v ∈ (k.procs u).alloced)
    (hne : v.areaSize ≠ 0) (h0 : (k.procs t).kernelSp ≠ 0) :
    ((k.procs t).kernelSp, kstackSize) ∈ held (fun n => n) k (some t) ∧
      physToVirt v.physAddr ≠ (k.procs t).kernelSp := by
  have hstack : ((k.procs t).kernelSp, kstackSize) ∈ ownBlock (k.procs t).kernelSp kstackSize := by
    rw [ownBlock_of_ne h0]
    exact List.mem_singleton_self _
  have hrest : ((k.procs t).kernelSp, kstackSize) ∈
      fileBlocks (k.procs t).fileDescriptorsTable (List.range (maxFd + 1)) ++
        (ownBlock (k.procs t).kernelSp kstackSize ++ tableBlocks k.words (physToVirt (k.procs t).context.pgd)) :=
    List.mem_append_right _ (List.mem_append_left _ hstack)
  have hheld : ((k.procs t).kernelSp, kstackSize) ∈ held (fun n => n) k (some t) := by
    rw [held_living ht, Process.blocks]
    exact List.mem_append_right _ hrest
  refine ⟨hheld, ?_⟩
  have harea := h.block hv hne
  by_cases he : u = t
  · subst he
    have hnd := h.shares.nodup (some u)
    rw [held_living ht, Process.blocks, addrs_append, List.nodup_append] at hnd
    exact hnd.2.2 _ (mem_addrs.2 ⟨_, harea⟩) _ (mem_addrs.2 ⟨_, hrest⟩)
  · exact h.shares.apart (some u) (some t) (fun hs => he (Option.some.inj hs)) _ (mem_held hu harea) _ hheld

/-- A store to the kernel stack of a thread is not read by any. -/
theorem Partitioned.readsAlike_zeroed {tpf : Nat} (h : Partitioned k) (hu : k.sched.status u ≠ .free)
    (ht : Living k t) (hframe : (k.procs t).HasFrame tpf) (hm : Mapped tpf 8) :
    ReadsAlike u k { k with bytes := Children.zeroed tpf k.bytes } := by
  intro v hv va hlo hhi
  have hl : Living k u := h.living hu hv
  have hmv := h.mapped hl hv
  unfold Process.HasFrame trapframeBytes at hframe
  have h0 : (k.procs t).kernelSp ≠ 0 := by
    unfold Mapped at hm
    unfold kstackSize at hframe
    omega
  obtain ⟨hheld, hne⟩ := h.stack_ne ht hl hv (by omega) h0
  obtain ⟨m, hm, hle⟩ := h.shares.backed _ _ (mem_held hl (h.block hv (by omega)))
  obtain ⟨j, hj, hle'⟩ := h.shares.backed _ _ hheld
  have hdis := h.settled.disjoint hm hj hne
  rw [read_eq hmv hlo hhi, read_eq hmv hlo hhi]
  dsimp only at hle hle'
  exact if_neg (by omega)

/-- Areas are added behind the others. -/
theorem step_areas {a : KernelAct} (hs : kernelStep k (n, a) = some k') (hu : k.sched.status u ≠ .free)
    (hu' : k'.sched.status u ≠ .free) (hexec : ∀ file, a = .exec file → u ≠ k.sched.currThread) :
    (k.procs u).vmaList <+: (k'.procs u).vmaList := by
  by_cases hq : ¬ a.MovesAreas
  · rw [kernelStep_vmaList hs hq]
  obtain ⟨hen, hp⟩ := kernelStep_some hs
  cases a with
  | fork cpu =>
      obtain ⟨⟨child, k'⟩, hf, rfl⟩ := Option.map_eq_some_iff.1 hp
      obtain ⟨hfree, -, -⟩ := threadCreate_spec (fork_sched hf)
      rw [(fork_areas hf).1 u fun he => hu (he ▸ hfree)]
  | exec file =>
      obtain ⟨⟨_, k'⟩, hf, rfl⟩ := Option.map_eq_some_iff.1 hp
      obtain ⟨f, k₁, _, _, _, _, _, _, _, _, _, _, _, _, rfl, -⟩ := exec_some hf
      rw [(exec_procs hf).1 u (hexec _ rfl)]
  | mmap addr len prot =>
      obtain ⟨⟨r, k'⟩, hf, rfl⟩ := Option.map_eq_some_iff.1 hp
      obtain ⟨-, ptr, a₁, rec, a₂, mem, -, -, -, -, rfl⟩ := mmap_some hf
      by_cases ht : u = k.sched.currThread
      · rw [ht, setProc_procs]
        exact List.prefix_append _ _
      · rw [setProc_procs_other _ ht]
  | killZombies =>
      obtain ⟨⟨_, k'⟩, hf, rfl⟩ := Option.map_eq_some_iff.1 hp
      have hloop : killZombiesLoop n k.sched.rqHead k = some ((), k') := hf
      rcases (killZombiesLoop_some hloop).2.2.2.2 u with ⟨hsame, -⟩ | ⟨-, hfree⟩
      · rw [hsame]
      · exact absurd hfree hu'
  | _ => simp [KernelAct.MovesAreas] at hq

theorem alloced_of_areas (h : (k.procs u).vmaList <+: (k'.procs u).vmaList) (hv : v ∈ (k.procs u).alloced) :
    v ∈ (k'.procs u).alloced := by
  rw [Process.mem_alloced] at hv ⊢
  exact ⟨h.subset hv.1, hv.2⟩

/-- A program stays loaded where its areas stay and read alike. -/
theorem Loaded.of_readsAlike (hl : Loaded f t k) (hpre : (k.procs t).vmaList <+: (k'.procs t).vmaList)
    (hreads : ReadsAlike t k k') (h32 : f.size < 2 ^ 32) : Loaded f t k' := by
  obtain ⟨v, vs, hlist, hvirt, hsize, hrwx, hall, hread⟩ := hl
  have hin : v ∈ (k.procs t).alloced := alloced_of_head hlist hall
  obtain ⟨ws, hws⟩ := hpre
  rw [hlist, List.cons_append] at hws
  have hround : f.size ≤ v.areaSize := hsize ▸ le_roundPage (by omega)
  refine ⟨v, _, hws.symm, hvirt, hsize, hrwx, hall, fun i hi => ?_⟩
  rw [← hread i hi]
  exact hreads v hin _ (by omega) (by omega)

/-- A page fault on an address of the program maps its page. -/
theorem Loaded.fault {far iss : Nat} (hl : Loaded f k.sched.currThread k) (h : Partitioned k)
    (hs : kernelStep k (n, .fault far iss) = some k') (hfar : far < f.size) (h32 : f.size < 2 ^ 32)
    (hiss : iss &&& 0x3f ∈ translationFaults) : ∃ pa, pa % 0x1000 = 0 ∧
      k'.translation k.sched.currThread far = some (pageEntry pa (faultFlag 0b111)) ∧
      k'.bytes (physToVirt (pa + far % 0x1000)) = f.content far := by
  obtain ⟨v, vs, hlist, hvirt, hsize, hrwx, hall, hread⟩ := hl
  obtain ⟨hen, hp⟩ := kernelStep_some hs
  obtain ⟨⟨_, k'⟩, hf, rfl⟩ := Option.map_eq_some_iff.1 hp
  have hliving : Living k k.sched.currThread := h.toKernelOk.living hen
  have hin : v ∈ (k.procs k.sched.currThread).alloced := alloced_of_head hlist hall
  have hround : f.size ≤ v.areaSize := hsize ▸ le_roundPage (by omega)
  have hzero : v.virtAddr = 0 := hvirt
  have hmax : v.areaSize ≤ maxRequest := (h.areas _ v (Process.mem_alloced.1 hin).1).size
  have hcontains : v.Contains far := by
    unfold Vma.Contains
    omega
  have hhits : faultHits far v := faultHits_of_contains hcontains (by unfold maxRequest frameSize at hmax; omega)
  have hfind : ((k.procs k.sched.currThread).vmaList.find? fun v => faultHits far v) = some v := by
    rw [hlist, List.find?_cons_of_pos (by simpa using hhits)]
  obtain ⟨b, k₂, habort, hrest⟩ := mmuMemfailAbortHandle_some.1 hf
  rw [memfailAbort_page hfind hiss (by omega) (by omega)] at habort
  obtain ⟨m, hm, hr⟩ := Option.map_eq_some_iff.1 habort
  obtain ⟨rfl, rfl⟩ := Prod.mk.inj hr
  obtain ⟨hb, -⟩ | ⟨-, rfl⟩ := hrest
  · cases hb
  have hmap := ((mapPage_translation _ v.rwx (h.owns hliving).pgdOk (by omega)).2 m hm).2
  rw [hrwx] at hmap
  have haligned : v.physAddr % 0x1000 = 0 := by
    obtain ⟨j, hj, hle⟩ := h.shares.backed _ _ (mem_held hliving (h.block hin (by omega)))
    have hpages : v.areaSize % 0x1000 = 0 := hsize ▸ roundPage_mod f.size
    have hregion := h.settled.page_aligned hj (by unfold frameSize; dsimp only at hle; omega)
    unfold physToVirt frameSize at hregion
    omega
  have hphys : v.physAddr + v.areaSize ≤ kernelMapSize := by
    have hmapped := h.mapped hliving hin
    have h64 := (h.areas _ v (Process.mem_alloced.1 hin).1).phys
    unfold Mapped physToVirt at hmapped
    unfold kernelMapSize at hmapped ⊢
    omega
  have hpage : v.pageOf far = v.physAddr + pageStart far := by
    unfold kernelMapSize at hphys
    unfold Vma.pageOf pageStart
    omega
  refine ⟨v.pageOf far, ?_, hmap, ?_⟩
  · rw [hpage]
    unfold pageStart
    omega
  · have hbyte := hread far hfar
    unfold Vma.read at hbyte
    rw [hpage, ← hbyte, hzero]
    show k.bytes _ = _
    congr 2
    unfold pageStart userKernelBase
    omega

theorem Owns.backs {base : Nat → Nat → Prop} {R : Blocks} (h : Owns (fun _ => 0) base R k.sched.currThread k)
    (hroom : k.alloc.Room 4) (hsize : getsize f % 2 ^ 32 ≤ 0x4000) : (KernelAct.exec (some f)).Backs k := by
  refine ⟨hsize.trans (by decide), fun k₁ dropped data userSp signalSp a hdel hg => ?_⟩
  obtain ⟨⟨⟩, k₂, hdel', hroom', -⟩ := h.mmuDelAllVma_returns hroom
  obtain ⟨-, rfl⟩ := Prod.mk.inj (Option.some.inj (hdel.symm.trans hdel'))
  have hne := grants_ne hg (by simpa [execRequests, ustackSize, frameSize] using hsize) hroom'
  simp only [execRequests, List.forall_mem_cons] at hne
  exact ⟨fun _ => hne.2.1, hne.2.2.1, hne.2.2.2.1⟩

end Kernel

/-! ## runs -/

namespace Children

open Kernel

variable {c c' c₁ : Children} {a : ChildAct} {as : List ChildAct} {k₀ : Kernel} {f : ExecFile} {u n tpf : Nat}
  {data filesize : Nat} {uart : VnodeRef}

/-- What the steps of a run must be, so that nobody takes the areas of thread `t` away. -/
structure Undisturbed (t : Nat) (c : Children) (a : ChildAct) : Prop where
  inOrder : c.InOrder a
  oom : c.kernel.oom = false
  alive : c.kernel.sched.status t ≠ .free
  stays : ∀ n file tpf, a = .step n (.exec file) tpf → t ≠ c.kernel.sched.currThread

theorem Ok.step_reads (h : c.Ok) (hg : Undisturbed u c a) (hs : c.step a = some c')
    (ho : c'.kernel.oom = false) (hfree : c'.kernel.sched.status u ≠ .free) :
    (c.kernel.procs u).vmaList <+: (c'.kernel.procs u).vmaList ∧ ReadsAlike u c.kernel c'.kernel := by
  cases a with
  | step n a tpf =>
      obtain ⟨hforks, hbacks, -⟩ := hg.inOrder
      obtain ⟨-, hk⟩ := step_step hs
      have hstays : ∀ file, a = .exec file → u ≠ c.kernel.sched.currThread := fun file ha =>
        hg.stays n file tpf (by rw [ha])
      exact ⟨step_areas hk hg.alive hfree hstays,
        h.partitioned.step_reads h.plain hforks hbacks hk ho hg.alive hstays⟩
  | childReturns =>
      obtain ⟨tpf, htpf, hm, hk⟩ := step_childReturns hs
      obtain ⟨t, ht, hframe⟩ := hg.inOrder tpf htpf
      rw [hk]
      exact ⟨List.prefix_refl _, h.partitioned.readsAlike_zeroed hg.alive ht hframe hm⟩

/-- What a thread reads, and where, after a run. -/
theorem Ok.run_reads (h : c.Ok) (hrun : run step c as = some c') (hgood : Always step (Undisturbed u) c as)
    (ho : c'.kernel.oom = false) (hfree : c'.kernel.sched.status u ≠ .free) :
    c'.Ok ∧ (c.kernel.procs u).vmaList <+: (c'.kernel.procs u).vmaList ∧ ReadsAlike u c.kernel c'.kernel := by
  induction as generalizing c with
  | nil =>
      obtain rfl := Option.some.inj hrun
      exact ⟨h, List.prefix_refl _, fun _ _ _ _ _ => rfl⟩
  | cons a as ih =>
      obtain ⟨c₁, hs, hrest⟩ := Option.bind_eq_some_iff.1 hrun
      obtain ⟨hg, hnext⟩ := hgood
      have hafter := hnext c₁ hs
      have h₁ : c₁.kernel.oom = false ∧ c₁.kernel.sched.status u ≠ .free := by
        cases as with
        | nil =>
            obtain rfl := Option.some.inj hrest
            exact ⟨ho, hfree⟩
        | cons b bs => exact ⟨hafter.1.oom, hafter.1.alive⟩
      obtain ⟨hareas, hstep⟩ := h.step_reads hg hs h₁.1 h₁.2
      obtain ⟨hok, hpre, hreads⟩ := ih (h.next hg.inOrder hs) hrest hafter
      refine ⟨hok, hareas.trans hpre, fun v hv va hlo hhi => ?_⟩
      rw [hreads v (alloced_of_areas hareas hv) va hlo hhi, hstep v hv va hlo hhi]

/-- The first program forks, and its child gets to run. -/
theorem schedBoot_child : ∃ s₁ s₂ s₃ s₄ s₅, RpiKernel.schedule 9 schedBoot = some s₁ ∧
    RpiKernel.schedule 9 s₁ = some s₂ ∧ RpiKernel.threadCreate s₂ = some (2, s₃) ∧
    RpiKernel.schedule 9 s₃ = some s₄ ∧ RpiKernel.schedule 9 s₄ = some s₅ ∧ s₂.currThread = 1 ∧
    s₅.currThread = 2 ∧ ∀ s ∈ [schedBoot, s₁, s₂, s₃, s₄, s₅], s.status 1 ≠ .free := by
  have hrun : ((RpiKernel.schedule 9 schedBoot).bind fun s₁ => (RpiKernel.schedule 9 s₁).bind fun s₂ =>
      (RpiKernel.threadCreate s₂).bind fun r₃ => (RpiKernel.schedule 9 r₃.2).bind fun s₄ =>
      (RpiKernel.schedule 9 s₄).map fun s₅ =>
        ([r₃.1, s₂.currThread, s₅.currThread],
          decide (∀ s ∈ [schedBoot, s₁, s₂, r₃.2, s₄, s₅], s.status 1 ≠ .free))) =
      some ([2, 1, 2], true) := by decide +kernel
  simp only [Option.bind_eq_some_iff, Option.map_eq_some_iff, Prod.exists, Prod.mk.injEq, List.cons.injEq,
    and_true, decide_eq_true_eq] at hrun
  obtain ⟨s₁, h₁, s₂, h₂, t₃, s₃, h₃, s₄, h₄, s₅, h₅, ⟨rfl, c₂, c₅⟩, halive⟩ := hrun
  exact ⟨s₁, s₂, s₃, s₄, s₅, h₁, h₂, h₃, h₄, h₅, c₂, c₅, halive⟩

/-- **Memory of processes.**  In a run in which no request for memory is refused, and every child finds the
stack where it stores its 0 in use as a stack, a thread that lives and does not call `exec` keeps its areas,
and reads in each of them what it read before: no fork, `exec`, `mmap`, fault or exit of anybody writes
to them. -/
theorem childRun_reads (hb : k₀.Booted data filesize uart) (hsize : filesize ≤ maxRequest)
    (hoom : k₀.oom = false) (hr : Reach step InOrder (boot k₀) c) (hrun : run step c as = some c')
    (hgood : Always step (Undisturbed u) c as) (ho : c'.kernel.oom = false)
    (hlive : c'.kernel.sched.status u ≠ .free) :
    (c.kernel.procs u).vmaList <+: (c'.kernel.procs u).vmaList ∧ ReadsAlike u c.kernel c'.kernel :=
  ((Ok.reach hb hsize hoom hr).run_reads hrun hgood ho hlive).2

theorem undisturbed_schedule (ho : c.kernel.oom = false) (ha : c.kernel.sched.status u ≠ .free) :
    Undisturbed u c (.step n .schedule tpf) :=
  ⟨⟨trivial, trivial, trivial⟩, ho, ha, fun _ _ _ h => nomatch h⟩

/-- A thread forks, and the scheduler takes its turns until the child stores its 0. -/
def forkReturn (cpu : ThreadContext) (tpf : Nat) : List ChildAct :=
  [.step 9 .schedule 0, .step 9 .schedule 0, .step 9 (.fork cpu) tpf, .step 9 .schedule 0, .step 9 .schedule 0,
    .childReturns]

/-- The first program forks: the child gets a slot, and the parent's stack stays where it is. -/
theorem forks_child {uart : VnodeRef} {s s' : Sched} (hb : k₀.Booted 0 1 uart) (hroom : k₀.alloc.Room 0x3000)
    (hoom : k₀.oom = false) (hcurr : s.currThread = 1) (hcreate : RpiKernel.threadCreate s = some (2, s'))
    (cpu : ThreadContext) : ∃ k, Kernel.fork cpu { k₀ with sched := s } = some (2, k) ∧ k.sched = s' ∧
      k.oom = false ∧ (k.procs 1).kernelSp = (k₀.procs 1).kernelSp ∧
      ForksWell { k₀ with sched := s } (.fork cpu) ∧
      (KernelAct.fork cpu).Backs { k₀ with sched := s } ∧ (KernelAct.fork cpu).Granted { k₀ with sched := s } := by
  have hfirst := hb.curr
  have hforkable := hb.forkable (by decide : 1 ≤ 0x4000) hoom
  have hhome := hb.oneHome
  have hneed := hb.forkRoom_eq
  have hempty (i : Nat) : (k₀.procs 2).fileDescriptorsTable i = 0 := hb.files_other (by rw [hfirst]; decide)
  rw [hfirst, ← hcurr] at hforkable hhome hneed
  have hroom' : k₀.alloc.Room (0 + forkRoom (k₀.procs s.currThread).vmaList) := by
    rw [hneed]
    exact hroom.mono (by decide)
  obtain ⟨child, k, hf, -, ho, rfl⟩ : Returns (Kernel.fork cpu) { k₀ with sched := s } 0 fun r _ => r = 2 :=
    fork_returns hroom' hoom hcreate hforkable
  have hsched := fork_sched hf
  rw [hcreate] at hsched
  have hparent := fork_parent (by rw [hcurr]; decide) hf
  refine ⟨k, hf, (Prod.mk.inj (Option.some.inj hsched)).2.symm, ho.trans hoom, ?_,
    forksWell_of_empty hhome hempty hcreate, fork_granted hroom' hoom hforkable⟩
  rw [← hcurr, hparent]
  rfl

/-- The first program forks, and its child returns. -/
theorem childRun_reads_fork : ∃ (k₀ : Kernel) (c' : Children) (cpu : ThreadContext) (tpf : Nat),
    k₀.Booted 0 1 ⟨0, .uart⟩ ∧ run step (boot k₀) (forkReturn cpu tpf) = some c' ∧
    c'.kernel.sched.currThread = 2 ∧ (k₀.procs 1).vmaList <+: (c'.kernel.procs 1).vmaList ∧
    ReadsAlike 1 k₀ c'.kernel := by
  obtain ⟨k₀, hb, hroom, hoom⟩ := smallBooted ⟨0, .uart⟩ (by decide : 1 ≤ 0x4000)
  obtain ⟨s₁, s₂, s₃, s₄, s₅, h₁, h₂, h₃, h₄, h₅, c₂, c₅, halive⟩ := schedBoot_child
  simp only [List.forall_mem_cons, List.not_mem_nil, false_imp_iff, implies_true, and_true] at halive
  obtain ⟨a₀, a₁, a₂, a₃, a₄, a₅⟩ := halive
  let cpu : ThreadContext := ⟨fun _ => 0, 0, 0, 0, 0⟩
  obtain ⟨k₃, hf, rfl, ho₃, hparent, hforks⟩ := forks_child hb hroom hoom c₂ h₃ cpu
  obtain ⟨tpf, hframe⟩ : ∃ tpf, (k₀.procs 1).HasFrame tpf :=
    ⟨(k₀.procs 1).kernelSp, Nat.le_refl _, Nat.add_le_add_left (by decide) _⟩
  have hmapped : Kernel.Mapped tpf 8 := by
    have hstack := (hb.forkable (by decide : 1 ≤ 0x4000) hoom).stack
    rw [hb.curr] at hstack
    unfold Process.HasFrame trapframeBytes at hframe
    unfold Kernel.Mapped kstackSize at *
    omega
  let children : Nat → Option Nat := Function.update (fun _ => none) 2 (some tpf)
  -- the steps
  have step₁ : (boot k₀).step (.step 9 .schedule 0) = some ⟨{ k₀ with sched := s₁ }, fun _ => none⟩ :=
    step_of trivial (kernelStep_schedule (hb.sched ▸ h₁))
  have step₂ : step ⟨{ k₀ with sched := s₁ }, fun _ => none⟩ (.step 9 .schedule 0) =
      some ⟨{ k₀ with sched := s₂ }, fun _ => none⟩ :=
    step_of trivial (kernelStep_schedule h₂)
  have step₃ : step ⟨{ k₀ with sched := s₂ }, fun _ => none⟩ (.step 9 (.fork cpu) tpf) = some ⟨k₃, children⟩ := by
    have hen : Enabled ⟨{ k₀ with sched := s₂ }, fun _ => none⟩ tpf (.fork cpu) := ⟨rfl, by rw [c₂]; exact hframe⟩
    have hpassed : passed ⟨{ k₀ with sched := s₂ }, fun _ => none⟩ tpf (.fork cpu) = children := by
      unfold passed
      dsimp only
      rw [h₃]
    rw [← hpassed]
    have hcurr : s₂.currThread ≠ 0 := by
      rw [c₂]
      decide
    exact step_of hen (kernelStep_of hcurr (congrArg (Option.map Prod.snd) hf))
  have step₄ : step ⟨k₃, children⟩ (.step 9 .schedule 0) = some ⟨{ k₃ with sched := s₄ }, children⟩ :=
    step_of trivial (kernelStep_schedule h₄)
  have step₅ : step ⟨{ k₃ with sched := s₄ }, children⟩ (.step 9 .schedule 0) =
      some ⟨{ k₃ with sched := s₅ }, children⟩ :=
    step_of trivial (kernelStep_schedule h₅)
  have htpf : children s₅.currThread = some tpf := by
    rw [c₅]
    exact Function.update_self ..
  have step₆ := childReturns_of (c := ⟨{ k₃ with sched := s₅ }, children⟩) htpf hmapped
  have hrun : run step (boot k₀) (forkReturn cpu tpf) = some _ :=
    (run_cons _ step₁).trans <| (run_cons _ step₂).trans <| (run_cons _ step₃).trans <|
      (run_cons _ step₄).trans <| (run_cons _ step₅).trans (run_cons [] step₆)
  have hreturns : Undisturbed 1 ⟨{ k₃ with sched := s₅ }, children⟩ .childReturns := by
    refine ⟨fun q hq => ⟨1, ⟨by decide, a₅⟩, ?_⟩, ho₃, a₅, fun _ _ _ h => nomatch h⟩
    obtain rfl := Option.some.inj (htpf.symm.trans hq)
    unfold Process.HasFrame
    rw [hparent]
    exact hframe
  have hgood : Always step (Undisturbed 1) (boot k₀) (forkReturn cpu tpf) :=
    .cons (undisturbed_schedule hoom (hb.sched ▸ a₀)) step₁ <| .cons (undisturbed_schedule hoom a₁) step₂ <|
      .cons ⟨hforks, hoom, a₂, fun _ _ _ h => nomatch h⟩ step₃ <| .cons (undisturbed_schedule ho₃ a₃) step₄ <|
        .cons (undisturbed_schedule ho₃ a₄) step₅ <| .cons hreturns step₆ trivial
  exact ⟨k₀, _, cpu, tpf, hb, hrun, c₅, childRun_reads hb (by decide) hoom .init hrun hgood ho₃ a₅⟩

/-- **Loading.**  A thread calls `exec` on a file of less than 4 GiB.  As long as it lives and makes no other
such call, and no request for memory is refused, no step of the kernel changes its program: whatever
threads are created, replaced, killed and reaped in between, it reads the bytes of the file from
address 0 on, and a translation fault on one of them maps the page where it is. -/
theorem exec_loadsProgram (hb : k₀.Booted data filesize uart) (hsize : filesize ≤ maxRequest)
    (hoom : k₀.oom = false) (hr : Reach step InOrder (boot k₀) c) (h32 : f.size < 2 ^ 32)
    (hback : (KernelAct.exec (some f)).Backs c.kernel) (hs : c.step (.step n (.exec (some f)) tpf) = some c₁)
    (hrun : run step c₁ as = some c') (hgood : Always step (Undisturbed c.kernel.sched.currThread) c₁ as)
    (ho : c'.kernel.oom = false) (hlive : c'.kernel.sched.status c.kernel.sched.currThread ≠ .free) :
    Loaded f c.kernel.sched.currThread c'.kernel ∧
      (c'.kernel.sched.currThread = c.kernel.sched.currThread → ∀ far iss m k, far < f.size →
        iss &&& 0x3f ∈ translationFaults → kernelStep c'.kernel (m, .fault far iss) = some k →
        ∃ pa, pa % 0x1000 = 0 ∧
          k.translation c.kernel.sched.currThread far = some (pageEntry pa (faultFlag 0b111)) ∧
          k.bytes (physToVirt (pa + far % 0x1000)) = f.content far) := by
  have h := Ok.reach hb hsize hoom hr
  have hk := (step_step hs).2
  have hloaded := h.partitioned.exec_loaded (stored_of_backs hback.1) h32 hback hk
  have h₁ : c₁.Ok := h.next (a := .step n (.exec (some f)) tpf) ⟨trivial, hback, trivial⟩ hs
  obtain ⟨h', hpre, hreads⟩ := h₁.run_reads hrun hgood ho hlive
  have hl := hloaded.of_readsAlike hpre hreads h32
  refine ⟨hl, fun hcurr far iss m k hfar hiss hfault => ?_⟩
  rw [← hcurr] at hl ⊢
  exact hl.fault h'.partitioned hfault hfar h32 hiss

/-- The first program replaces itself by a file of one byte, and goes to `/dev`. -/
theorem exec_loadsProgram_boot : ∃ (k₀ : Kernel) (c₁ c' : Children), k₀.Booted 0 1 ⟨0, .uart⟩ ∧
    (boot k₀).step (.step 0 (.exec (some byteFile)) 0) = some c₁ ∧
    run step c₁ [.step 1 (.chdir ['/', 'd', 'e', 'v']) 0] = some c' ∧
    Loaded byteFile k₀.sched.currThread c'.kernel := by
  obtain ⟨k₀, hb, hroom, hoom⟩ := smallBooted ⟨0, .uart⟩ (by decide : 1 ≤ 0x4000)
  obtain ⟨base, hown⟩ := hb.owns
  have hroom' : k₀.alloc.Room (1 + 10) := hroom.mono (by decide)
  obtain ⟨⟨⟩, k₁, hx, -, ho, -⟩ := exec_returns (f := byteFile) hown hb.noTables (by decide) (by decide)
    (reads_tmpfs rfl (by decide)) hroom'
  have hs : (boot k₀).step (.step 0 (.exec (some byteFile)) 0) = some ⟨k₁, fun _ => none⟩ :=
    step_of rfl (kernelStep_of hb.curr_ne (congrArg (Option.map Prod.snd) hx))
  have hsched := exec_sched hx
  have habs : getAbsolutePath ['/', 'd', 'e', 'v'] (k₁.procs k₁.sched.currThread).currWorkingDir =
      ['/', 'd', 'e', 'v'] := by
    have hhead : ¬ ['/', 'd', 'e', 'v'].head? ≠ some '/' := by decide
    have hshort : ¬ ['/', 'd', 'e', 'v'].length > maxPathName := by decide
    rw [getAbsolutePath, if_neg hhead, if_neg hshort]
    decide
  have hcurr : k₁.sched.currThread ≠ 0 := hsched ▸ hb.curr_ne
  have hchdir : step ⟨k₁, fun _ => none⟩ (.step 1 (.chdir ['/', 'd', 'e', 'v']) 0) = some _ :=
    step_of rfl (kernelStep_chdir hcurr (by decide) habs (by decide))
  have halive : k₁.sched.status k₀.sched.currThread ≠ .free := by
    rw [hsched, hb.sched]
    decide +kernel
  have hrun := run_cons [] hchdir
  have hgood : Always step (Undisturbed k₀.sched.currThread) ⟨k₁, fun _ => none⟩
      [.step 1 (.chdir ['/', 'd', 'e', 'v']) 0] :=
    ⟨⟨⟨trivial, trivial, trivial⟩, ho.trans hoom, halive, fun _ _ _ h => by cases h⟩, fun _ _ => trivial⟩
  exact ⟨k₀, _, _, hb, hs, hrun, (exec_loadsProgram hb (by decide) hoom .init (by decide)
    (hown.backs (hroom.mono (by decide)) (by decide)) hs hrun hgood (by rw [setProc_oom, ho, hoom])
    (by rwa [setProc_sched])).1⟩

end Children

end RpiKernel
