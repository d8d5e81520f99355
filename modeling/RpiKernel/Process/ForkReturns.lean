import RpiKernel.Process.Isolation

/-!
# RpiKernel.Process.ForkReturns

`fork` comes back when there is a free slot, the areas of the parent are small
and mapped, and there is room for the blocks that it asks for (`fork_returns`).
The first program is such a parent (`Booted.forkable`).
-/

namespace RpiKernel

open Custody

namespace Kernel

variable {k k' k'' : Kernel} {t n p q size : Nat} {vs : List Vma}

/-- No block is freed, and the image and the stack of thread `t` stay. -/
structure Grows (t : Nat) (k k' : Kernel) : Prop extends Frame t k k' where
  live : ∀ p, Live k p → Live k' p
  data : (k'.procs t).data = (k.procs t).data
  userSp : (k'.procs t).userSp = (k.procs t).userSp

theorem Grows.refl (t : Nat) (k : Kernel) : Grows t k k := ⟨.refl t k, fun _ h => h, rfl, rfl⟩

theorem Grows.trans (h : Grows t k k') (h' : Grows t k' k'') : Grows t k k'' :=
  ⟨h.toFrame.trans h'.toFrame, fun p hp => h'.live p (h.live p hp), h'.data.trans h.data,
    h'.userSp.trans h.userSp⟩

/-- A change of `t` that keeps the image and the stack. -/
theorem Grows.setProc {f : Process → Process} (h : Grows t k k') (hf : (k'.procs t).Keeps (f (k'.procs t)))
    (hdata : (f (k'.procs t)).data = (k'.procs t).data) (huser : (f (k'.procs t)).userSp = (k'.procs t).userSp) :
    Grows t k (k'.setProc t f) := by
  refine ⟨h.toFrame.setProc f hf, h.live, ?_, ?_⟩
  · rw [setProc_procs, hdata, h.data]
  · rw [setProc_procs, huser, h.userSp]

/-! ## requests -/

/-- The block that `kmalloc` answers is a new one. -/
theorem kmalloc_grows (t : Nat) (h : k.alloc.Room (n + 1)) (hs : size ≤ 0x4000) :
    Returns (kmalloc size) k n fun p k' =>
      p ≠ 0 ∧ Mapped p size ∧ Live k' p ∧ ¬ Live k p ∧ Grows t k k' ∧ k'.files = k.files := by
  have hle : size ≤ granted size := le_granted (by unfold maxRequest frameSize; omega)
  refine (kmalloc_adds h (size2order_le hs) (by omega)).mono fun p k' hk => ?_
  obtain ⟨hp, hm, a, rfl, hadds⟩ := hk
  have hgrows : Grows t k { k with alloc := a } := by
    refine ⟨(Frame.refl t k).mem a k.oom k.bytes k.files, fun q ⟨m, hq⟩ => ?_, rfl, rfl⟩
    exact ⟨m, (hadds.region q m).2 (Or.inl hq)⟩
  have hlive : Live { k with alloc := a } p := ⟨_, (hadds.region _ _).2 (Or.inr ⟨rfl, rfl⟩)⟩
  exact ⟨hp, hm.mono hle, hlive, fun ⟨m, hq⟩ => hadds.fresh m hq, hgrows, rfl⟩

theorem kmallocRecord_grows (t : Nat) (h : k.alloc.Room (n + 1)) (hs : size ≤ 0x4000) :
    Returns (kmallocRecord size) k n fun _ k' => Grows t k k' := by
  unfold kmallocRecord
  refine (kmalloc_grows t h hs).bind fun p k₁ _ hroom ⟨hp, _, _, _, hg, _⟩ => ?_
  rw [if_neg hp]
  exact .pure p hroom hg

theorem mmuAddVma_grows (va pa rwx : Nat) (b : Bool) (h : k.alloc.Room (n + 1)) :
    Returns (mmuAddVma t va size pa rwx b) k n fun _ k' => Grows t k k' := by
  unfold mmuAddVma
  refine (kmallocRecord_grows t h (by decide)).bind fun p k₁ _ hroom hg => ?_
  exact .modify hroom rfl (hg.setProc (f := Process.addAreas _) (Process.keeps_addAreas _ _) rfl rfl)

/-- The files of the parent are copied. -/
theorem copyFiles_returns {parent : Nat} {is : List Nat} (h : k.alloc.Room (n + is.length)) :
    Returns (copyFiles parent t is) k n fun _ k' => Grows t k k' := by
  induction is generalizing k with
  | nil => exact .pure _ h (.refl t k)
  | cons i is ih =>
      have hmore : k.alloc.Room (n + is.length + 1) := h
      unfold copyFiles
      refine .step (proc_some.2 rfl) rfl ?_
      by_cases hf : (k.procs parent).fileDescriptorsTable i = 0
      · simp only [hf, ne_eq, not_true_eq_false, if_false]
        exact ih (hmore.mono (Nat.le_succ _))
      · simp only [hf, ne_eq, not_false_eq_true, if_true]
        refine (kmallocRecord_grows t hmore (by decide)).bind fun copy k₁ _ h₁ hg₁ => ?_
        refine .step (modify_some.2 rfl) rfl (.step (modifyProc_some.2 rfl) rfl ?_)
        have hg : Grows t k (({ k₁ with files := Function.update k₁.files copy (k₁.files
            ((k.procs parent).fileDescriptorsTable i)) } : Kernel).setProc t (Process.setFile i copy)) := by
          refine Grows.setProc ⟨hg₁.toFrame.mem k₁.alloc k₁.oom k₁.bytes _, hg₁.live, hg₁.data, hg₁.userSp⟩
            (Process.keeps_setFile _ _ _) rfl rfl
        refine Returns.mono (ih ?_) fun _ _ hg' => hg.trans hg'
        exact h₁

/-! ## the areas -/

/-- The image and the stack of a new thread are blocks, and not the same. -/
structure Replaceable (t : Nat) (k : Kernel) : Prop where
  data : Live k (k.procs t).data
  userSp : Live k (k.procs t).userSp
  ne : (k.procs t).data ≠ (k.procs t).userSp

theorem Replaceable.inherit (h : Replaceable t k) (handlers : Nat → Nat) :
    Replaceable t (k.setProc t (Process.inherit handlers)) := by
  obtain ⟨hd, hu, hne⟩ := h
  refine ⟨?_, ?_, ?_⟩ <;> rw [setProc_procs]
  · exact hd
  · exact hu
  · exact hne

theorem Grows.replaceable (h : Grows t k k') (hr : Replaceable t k) : Replaceable t k' := by
  have hd := h.live _ hr.data
  have hu := h.live _ hr.userSp
  rw [← h.data] at hd
  rw [← h.userSp] at hu
  exact ⟨hd, hu, by rw [h.data, h.userSp]; exact hr.ne⟩

/-- A block is freed, the others stay. -/
theorem kfree_live (h : k.alloc.Room n) (hp : Live k p) :
    ∃ a, RpiKernel.kfree p k.alloc = some a ∧ a.Room n ∧
      ∀ q, Live { k with alloc := a } q ↔ Live k q ∧ q ≠ p := by
  obtain ⟨m, hm⟩ := hp
  obtain ⟨a, hres, hrem, hroom⟩ := h.kfree hm
  refine ⟨a, hres, hroom, fun q => ⟨fun ⟨j, hj⟩ => ?_, fun ⟨⟨j, hj⟩, hq⟩ => ⟨j, (hrem q j).2 ⟨hj, hq⟩⟩⟩⟩
  exact ⟨⟨j, ((hrem q j).1 hj).1⟩, ((hrem q j).1 hj).2⟩

/-- The image or the stack is replaced by a block that is neither. -/
theorem adoptArea_returns {va : Nat} (h : k.alloc.Room n) (hr : Replaceable t k) (hq : Live k q)
    (hdata : q ≠ (k.procs t).data) (huser : q ≠ (k.procs t).userSp) :
    Returns (adoptArea t va q) k n fun _ k' => Frame t k k' ∧ Replaceable t k' := by
  unfold adoptArea
  by_cases h₁ : va = userKernelBase
  · simp only [if_pos h₁]
    obtain ⟨a, hfree, hroom, hlive⟩ := kfree_live h hr.data
    refine .step (proc_some.2 rfl) rfl (.step (kfree_some.2 ⟨a, hfree, rfl⟩) rfl ?_)
    refine .modify hroom rfl ⟨?_, ?_⟩
    · exact ((Frame.refl t k).mem a k.oom k.bytes k.files).setProc (fun p => { p with data := q })
        ⟨rfl, rfl, rfl, rfl, rfl⟩
    · constructor
      all_goals simp only [Function.update_self]
      · exact (hlive q).2 ⟨hq, hdata⟩
      · exact (hlive _).2 ⟨hr.userSp, hr.ne.symm⟩
      · exact huser
  by_cases h₂ : va = userStackBase - ustackSize
  · simp only [if_neg h₁, if_pos h₂]
    obtain ⟨a, hfree, hroom, hlive⟩ := kfree_live h hr.userSp
    refine .step (proc_some.2 rfl) rfl (.step (kfree_some.2 ⟨a, hfree, rfl⟩) rfl ?_)
    refine .modify hroom rfl ⟨?_, ?_⟩
    · exact ((Frame.refl t k).mem a k.oom k.bytes k.files).setProc (fun p => { p with userSp := q })
        ⟨rfl, rfl, rfl, rfl, rfl⟩
    · constructor
      all_goals simp only [Function.update_self]
      · exact (hlive _).2 ⟨hr.data, hr.ne⟩
      · exact (hlive q).2 ⟨hq, huser⟩
      · exact hdata.symm
  · simp only [if_neg h₁, if_neg h₂]
    exact .pure _ h ⟨.refl t k, hr⟩

/-- Small areas, which are mapped where they are not skipped. -/
def Copyable (vs : List Vma) : Prop :=
  ∀ v ∈ vs, ¬ skipped v → v.areaSize ≤ 0x4000 ∧ Mapped (physToVirt v.physAddr) v.areaSize

theorem copyAreas_returns (h : k.alloc.Room (n + 2 * vs.length)) (hvs : Copyable vs)
    (hr : Replaceable t k) :
    Returns (copyAreas t vs) k n fun _ k' => Frame t k k' ∧ Replaceable t k' := by
  induction vs generalizing k with
  | nil => exact .pure _ h ⟨.refl t k, hr⟩
  | cons v vs ih =>
      have hrest : Copyable vs := fun w hw => hvs w (List.mem_cons_of_mem _ hw)
      have hmore : k.alloc.Room (n + 2 * vs.length + 1 + 1) := h
      unfold copyAreas
      by_cases hskip : skipped v
      · simp only [hskip, not_true_eq_false, if_false]
        exact ih (hmore.mono (by omega)) hrest hr
      · simp only [hskip, not_false_eq_true, if_true]
        obtain ⟨hsmall, hsrc⟩ := hvs v List.mem_cons_self hskip
        have hmod : v.areaSize % 2 ^ 32 = v.areaSize := Nat.mod_eq_of_lt (by omega)
        refine (kmalloc_grows t hmore hsmall).bind fun q k₁ _ h₁ hq => ?_
        obtain ⟨-, hdst, hq₁, hnew, hg₁, -⟩ := hq
        refine (mmuAddVma_grows _ _ _ _ h₁).bind fun _ k₂ _ h₂ hg₂ => ?_
        rw [← hmod] at hdst hsrc
        refine .step (memcpy_some.2 ⟨⟨hdst, hsrc⟩, rfl⟩) rfl ?_
        -- the new block is neither the image nor the stack
        have hg := hg₁.trans hg₂
        have hneq : ∀ p, Live k p → q ≠ p := fun p hp he => hnew (he ▸ hp)
        have hr₂ := hg.replaceable hr
        have hdata : q ≠ (k₂.procs t).data := by
          rw [hg.data]
          exact hneq _ hr.data
        have huser : q ≠ (k₂.procs t).userSp := by
          rw [hg.userSp]
          exact hneq _ hr.userSp
        generalize copied q (physToVirt v.physAddr) k₂.bytes (v.areaSize % 2 ^ 32) = mem
        have hf₂ : Frame t k { k₂ with bytes := mem } := hg.toFrame.mem k₂.alloc k₂.oom mem k₂.files
        have h₃ : ({ k₂ with bytes := mem } : Kernel).alloc.Room (n + 2 * vs.length) := h₂
        have hr₃ : Replaceable t { k₂ with bytes := mem } := ⟨hr₂.data, hr₂.userSp, hr₂.ne⟩
        have hq₃ : Live { k₂ with bytes := mem } q := hg₂.live q hq₁
        have hdata₃ : q ≠ (({ k₂ with bytes := mem } : Kernel).procs t).data := hdata
        have huser₃ : q ≠ (({ k₂ with bytes := mem } : Kernel).procs t).userSp := huser
        generalize ({ k₂ with bytes := mem } : Kernel) = k₃ at *
        refine (adoptArea_returns h₃ hr₃ hq₃ hdata₃ huser₃).bind fun _ k₄ _ h₄ hf => ?_
        have hf₃ : Frame t k k₄ := hf₂.trans hf.1
        exact (ih h₄ hrest hf.2).mono fun _ _ hf' => ⟨hf₃.trans hf'.1, hf'.2⟩

/-! ## `fork` -/

/-- When no request was refused, a new thread has an image and a stack. -/
theorem threadCreate_replaceable {start filesize : Nat} (hk : k.alloc.Settled) (ho : k'.oom = false)
    (h : threadCreate start filesize k = some (some t, k')) : Replaceable t k' := by
  obtain ⟨b, hp, hnew⟩ := threadCreate_holds (d := 0) (u := 0) (g := 0) hk.holds_nothing h (Nat.zero_le _)
    (Nat.zero_le _) (Nat.zero_le _)
  have hnull : b.data ≠ 0 ∧ b.userSp ≠ 0 := by
    obtain ⟨s, b', a, -, -, -, hk'⟩ := threadCreate_some h
    have hp' : k'.procs t = b'.process start filesize k.defaultHandler (k.procs t) := by
      rw [hk', setProc_procs]
      rfl
    have hdata : b'.data = b.data := congrArg Process.data (hp'.symm.trans hp)
    have huser : b'.userSp = b.userSp := congrArg Process.userSp (hp'.symm.trans hp)
    rw [hk', setProc_oom] at ho
    simp only [took, NewThread.requests, List.any_cons, List.any_nil, Bool.or_false, Bool.or_eq_false_iff,
      beq_eq_false_iff_ne, hdata, huser] at ho
    exact ⟨ho.2.2.2.2.1, ho.2.1⟩
  have hb := hnew.holds
  rw [NewThread.blocks, ownBlock_of_ne hnull.1, ownBlock_of_ne hnull.2] at hb
  have hnd := hb.holds.nodup
  obtain ⟨m, hm, -⟩ := hb.holds.backed (b.data, 0) (by simp)
  obtain ⟨j, hj, -⟩ := hb.holds.backed (b.userSp, 0) (by simp)
  rw [NewThread.process] at hp
  refine ⟨?_, ?_, ?_⟩
  · rw [hp]
    exact ⟨m, hm⟩
  · rw [hp]
    exact ⟨j, hj⟩
  · rw [hp]
    simp only [List.cons_append, List.nil_append, addrs_cons, List.nodup_cons, List.mem_cons,
      not_or] at hnd
    exact hnd.1.1

/-- The blocks of a fork: of the thread, of its files, of its areas and of the
fixed areas. -/
def forkRoom (vs : List Vma) : Nat := 5 + (maxFd + 1) + 2 * vs.length + 3

/-- A small process, whose areas and kernel stack can be copied. -/
structure Forkable (p : Process) : Prop where
  datasize : p.datasize ≤ 0x4000
  areas : Copyable p.vmaList
  stack : Mapped p.kernelSp kstackSize

/-- `fork` comes back when there is room. -/
theorem fork_returns {cpu : ThreadContext} {s : Sched}
    (h : k.alloc.Room (n + forkRoom (k.procs k.sched.currThread).vmaList)) (ho : k.oom = false)
    (hs : RpiKernel.threadCreate k.sched = some (t, s)) (hp : Forkable (k.procs k.sched.currThread)) :
    Returns (fork cpu) k n fun r _ => r = t := by
  unfold forkRoom at h
  have h₀ : k.alloc.Room (n + 3 + 2 * (k.procs k.sched.currThread).vmaList.length +
      (List.range (maxFd + 1)).length + 5) := by
    refine h.mono ?_
    rw [List.length_range]
    omega
  unfold fork
  refine .step (currThread_some.2 rfl) rfl (.step (proc_some.2 rfl) rfl ?_)
  obtain ⟨_, k₁, hc, h₁, ho₁, rfl, _, _, hkernel, hother⟩ := threadCreate_returns h₀ hs hp.datasize
  refine .step hc ho₁ ?_
  have hr₁ := threadCreate_replaceable h₀.settled (ho₁.trans ho) hc
  refine .step (modifyProc_some.2 rfl) rfl ?_
  generalize hkA : k₁.setProc t (Process.inherit (k.procs k.sched.currThread).signalHandler) = kA
  have hpA : kA.procs t = (k₁.procs t).inherit (k.procs k.sched.currThread).signalHandler := by
    rw [← hkA, setProc_procs]
  have hrA : Replaceable t kA := hkA ▸ hr₁.inherit _
  have hA : kA.alloc.Room (n + 3 + 2 * (k.procs k.sched.currThread).vmaList.length +
      (List.range (maxFd + 1)).length) := by
    rw [← hkA, setProc_alloc]
    exact h₁
  have hoA : kA.oom = k₁.oom := by rw [← hkA, setProc_oom]
  have hkA' : k₁.setProc t (fun c => { c with
      signalHandler := fun i =>
        if i ≤ signalMax then (k.procs k.sched.currThread).signalHandler i else c.signalHandler i }) = kA := hkA
  rw [hkA']
  refine (copyFiles_returns hA).bind fun _ k₂ _ h₂ hg₂ => ?_
  refine (copyAreas_returns h₂ hp.areas (hg₂.replaceable hrA)).bind fun _ k₃ _ h₃ ⟨hf₃, _⟩ => ?_
  refine (addFixedAreas_returns h₃).bind fun _ k₄ _ h₄ hf₄ => ?_
  have hf := (hg₂.toFrame.trans hf₃).trans hf₄
  -- the kernel stack is copied
  have hdst : Mapped (k₄.procs t).kernelSp (kstackSize % 2 ^ 32) := by
    rw [hf.keeps.kernelSp, hpA]
    exact hkernel
  refine .step (proc_some.2 rfl) rfl (.step (memcpy_some.2 ⟨⟨hdst, hp.stack⟩, rfl⟩) rfl ?_)
  refine .step (modifyProc_some.2 rfl) rfl (.step (modifyProc_some.2 rfl) rfl ?_)
  refine Returns.pure t ?_ rfl
  exact h₄

/-! ## no request is refused -/

/-- With room for small requests none is refused. -/
theorem grants_ne {a a' : Alloc} {rs : List (Nat × Nat)} (h : Grants a rs a')
    (hsmall : ∀ r ∈ rs, r.1 % 2 ^ 32 ≤ 0x4000) (hroom : a.Room rs.length) : ∀ r ∈ rs, r.2 ≠ 0 := by
  induction h with
  | nil a => simp
  | @cons a a₁ a' size p rs hk _ ih =>
      obtain ⟨hsize, hrest⟩ := List.forall_mem_cons.1 hsmall
      obtain ⟨q, a₂, hq, hne, -, hroom'⟩ := Alloc.Room.kmalloc hroom hsize
      obtain ⟨rfl, rfl⟩ := Prod.mk.inj (Option.some.inj (hk.symm.trans hq))
      exact List.forall_mem_cons.2 ⟨hne, ih hrest hroom'⟩

/-- What is asked for has a block. -/
theorem hasBlock_of_room (h : k.alloc.Room (n + 1)) (hs : size ≤ 0x4000) : HasBlock size k := by
  intro _ p k' hk
  obtain ⟨q, k₁, hq, -, -, hne, -⟩ := kmalloc_returns h hs
  obtain ⟨rfl, rfl⟩ := Prod.mk.inj (Option.some.inj (hk.symm.trans hq))
  exact hne

theorem copiesGranted_of_room (h : k.alloc.Room (n + 2 * vs.length)) (hvs : Copyable vs)
    (hr : Replaceable t k) : CopiesGranted t vs k := by
  induction vs generalizing k with
  | nil => trivial
  | cons v vs ih =>
      have hmore : k.alloc.Room (n + 2 * vs.length + 1 + 1) := h
      have hrest : Copyable vs := fun w hw => hvs w (List.mem_cons_of_mem _ hw)
      have hfirst : Copyable [v] := fun w hw hskip => by
        obtain rfl := List.mem_singleton.1 hw
        exact hvs w List.mem_cons_self hskip
      refine ⟨fun hskip => hasBlock_of_room hmore (hvs v List.mem_cons_self hskip).1, fun k' hk' => ?_⟩
      have hone : k.alloc.Room (n + 2 * vs.length + 2 * [v].length) := h
      obtain ⟨⟨⟩, k₁, h₁, hroom, -, -, hr₁⟩ := copyAreas_returns hone hfirst hr
      obtain ⟨-, rfl⟩ := Prod.mk.inj (Option.some.inj (hk'.symm.trans h₁))
      exact ih hroom hrest hr₁

/-- `fork` of a small process. -/
theorem fork_granted {cpu : ThreadContext}
    (h : k.alloc.Room (n + forkRoom (k.procs k.sched.currThread).vmaList)) (ho : k.oom = false)
    (hp : Forkable (k.procs k.sched.currThread)) :
    (KernelAct.fork cpu).Backs k ∧ (KernelAct.fork cpu).Granted k := by
  have hfive : k.alloc.Room (n + 3 + 2 * (k.procs k.sched.currThread).vmaList.length +
      (List.range (maxFd + 1)).length + 5) := by
    refine h.mono ?_
    unfold forkRoom
    rw [List.length_range]
    omega
  have hdata : (k.procs k.sched.currThread).datasize % 2 ^ 32 ≤ 0x4000 :=
    (Nat.mod_le _ _).trans hp.datasize
  refine ⟨fun b a hg => ?_, fun child k₁ k₂ h₁ h₂ => ?_⟩
  · have hsmall : ∀ r ∈ b.requests (k.procs k.sched.currThread).datasize, r.1 % 2 ^ 32 ≤ 0x4000 := by
      simpa [NewThread.requests, ustackSize, kstackSize, frameSize] using hdata
    have hne := grants_ne hg hsmall (hfive.mono (by simp [NewThread.requests]))
    exact hne (frameSize, b.signalSp) (by simp [NewThread.requests])
  · obtain ⟨s, b, a, hs, -, -, -⟩ := threadCreate_some h₁
    obtain ⟨r, k₁', h₁', hroom₁, ho₁, rfl, -⟩ := threadCreate_returns hfive hs hp.datasize
    obtain ⟨-, rfl⟩ := Prod.mk.inj (Option.some.inj (h₁'.symm.trans h₁))
    have hr₁ := threadCreate_replaceable hfive.settled (ho₁.trans ho) h₁
    have hrA := hr₁.inherit (k.procs k.sched.currThread).signalHandler
    have hroomA : (k₁'.setProc child (Process.inherit (k.procs k.sched.currThread).signalHandler)).alloc.Room
        (n + 3 + 2 * (k.procs k.sched.currThread).vmaList.length + (List.range (maxFd + 1)).length) := by
      rw [setProc_alloc]
      exact hroom₁
    obtain ⟨⟨⟩, k₂', h₂', hroom₂, -, hg₂⟩ : Returns (copyFiles k.sched.currThread child (List.range (maxFd + 1)))
        _ _ fun _ k' => Grows child _ k' := copyFiles_returns hroomA
    obtain ⟨-, rfl⟩ := Prod.mk.inj (Option.some.inj (h₂'.symm.trans h₂))
    exact copiesGranted_of_room hroom₂ hp.areas (hg₂.replaceable hrA)

/-! ## the first program -/

/-- An area with memory of its own is mapped. -/
theorem Partitioned.mapped {v : Vma} (h : Partitioned k) (hl : Living k t) (hv : v ∈ (k.procs t).alloced) :
    Mapped (physToVirt v.physAddr) v.areaSize := by
  by_cases h0 : v.areaSize = 0
  · exact Or.inl h0
  · obtain ⟨m, hm, hle⟩ := h.shares.backed _ _ (mem_held hl (h.block hv h0))
    exact mapped_of_region h.settled hm hle

theorem oneHome_of_ranges {vs : List Vma} {filesize : Nat}
    (h : vs.map Vma.range = imageRanges filesize ++ fixedRanges) : OneHome vs := by
  have hcount (a : Nat) : vs.countP (fun v => v.virtAddr = a) =
      (imageRanges filesize ++ fixedRanges).countP fun r => r.1 = a := by
    rw [← h, List.countP_map]
    rfl
  unfold OneHome
  rw [hcount, hcount]
  exact ⟨rfl, rfl⟩

theorem Booted.oneHome {data filesize : Nat} {uart : VnodeRef} (h : k.Booted data filesize uart) :
    OneHome (k.procs k.sched.currThread).vmaList := oneHome_of_ranges h.ranges

/-- A fork of the first program, if that has a byte. -/
theorem Booted.forkRoom_eq {data : Nat} {uart : VnodeRef} (h : k.Booted data 1 uart) :
    forkRoom (k.procs k.sched.currThread).vmaList = 35 := by
  have hlength := congrArg List.length h.ranges
  rw [List.length_map] at hlength
  rw [forkRoom, hlength]
  decide

/-- The first program, if it is small and no request was refused. -/
theorem Booted.forkable {data filesize : Nat} {uart : VnodeRef} (h : k.Booted data filesize uart)
    (hsize : filesize ≤ 0x4000) (hoom : k.oom = false) : Forkable (k.procs k.sched.currThread) := by
  have hmax : 0x4000 ≤ maxRequest := by decide
  have hpart := h.partitioned (hsize.trans hmax) hoom
  have hcurr := h.curr_ne
  have hl : Living k k.sched.currThread := hpart.toKernelOk.living hcurr
  have hown := hpart.owns hl
  obtain ⟨k₀, hk₀, hx⟩ := h
  obtain ⟨b, a, p, table, a₁, a₂, a₃, a₄, a₅, hg, hnull, hp⟩ := threadExec_loads hx
  have hvmas := congrArg Process.vmaList hp
  refine ⟨?_, fun v hv hskip => ?_, ?_⟩
  · rw [hp]
    exact hsize
  · -- the other areas are skipped
    have himage : v ∈ imageAreas (b.process data filesize k₀.defaultHandler p) a₁ a₂ := by
      rw [hvmas] at hv
      simp only [Process.enter, Process.addAreas, NewThread.process, List.nil_append,
        List.mem_append] at hv
      refine hv.resolve_right fun hf => hskip ?_
      simp only [fixedAreas, List.mem_cons, List.not_mem_nil, or_false] at hf
      unfold skipped
      rcases hf with rfl | rfl | rfl <;> simp
    have hsmall : v.areaSize ≤ 0x4000 ∧ v.isAlloced = true := by
      have hstack : roundPage ustackSize ≤ 0x4000 := by decide
      simp only [imageAreas, List.mem_cons, List.not_mem_nil, or_false] at himage
      cases himage with
      | inl he => exact he ▸ ⟨roundPage_le hsize (by decide), rfl⟩
      | inr he => exact he ▸ ⟨hstack, rfl⟩
    exact ⟨hsmall.1, hpart.mapped hl (Process.mem_alloced.2 ⟨hv, hsmall.2⟩)⟩
  · have hne : (k.procs k.sched.currThread).kernelSp ≠ 0 := by
      rw [hoom, hk₀.oom] at hnull
      simp only [NewThread.requests, List.any_cons, List.any_nil, Bool.false_or, Bool.or_false,
        Bool.false_eq, Bool.or_eq_false_iff, beq_eq_false_iff_ne] at hnull
      rw [hp]
      exact hnull.2.1
    have hm : ((k.procs k.sched.currThread).kernelSp, kstackSize) ∈
        (k.procs k.sched.currThread).blocks (fun n => n) k.words ++ [] := by
      simp [Process.blocks, ownBlock_of_ne hne]
    obtain ⟨m, hm, hle⟩ := hown.holds.holds.backed _ hm
    exact mapped_of_region hpart.settled hm hle

end Kernel

end RpiKernel
