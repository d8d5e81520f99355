import RpiKernel.Memory.Room
import RpiKernel.Process.Frame

/-!
# RpiKernel.Process.Progress

Kernel code comes back, and no `kmalloc` in it returns `NULL`, as long as the
allocator has a vacant chunk for every block that is asked for (`Alloc.Room`)
and every block is small.  The first program can be started on an allocator
that was just initialised (`smallBooted`).
-/

namespace RpiKernel

open Custody Sched Runs

namespace Kernel

variable {α β : Type} {k k' : Kernel} {m : KernelM α} {f : α → KernelM β} {t n j size : Nat}

/-- `m` comes back with an answer and a state that meet `Q`; no `kmalloc`
returned `NULL` and `n` chunks are left. -/
def Returns (m : KernelM α) (k : Kernel) (n : Nat) (Q : α → Kernel → Prop) : Prop :=
  ∃ a k', m k = some (a, k') ∧ k'.alloc.Room n ∧ k'.oom = k.oom ∧ Q a k'

theorem Returns.bind {Q : α → Kernel → Prop} {R : β → Kernel → Prop} (h : Returns m k j Q)
    (hf : ∀ a k', m k = some (a, k') → k'.alloc.Room j → Q a k' → Returns (f a) k' n R) :
    Returns (m >>= f) k n R := by
  obtain ⟨a, k₁, hm, hroom, ho, hq⟩ := h
  obtain ⟨b, k', hb, hroom', ho', hr⟩ := hf a k₁ hm hroom hq
  exact ⟨b, k', bind_some.2 ⟨a, k₁, hm, hb⟩, hroom', ho'.trans ho, hr⟩

theorem Returns.pure (a : α) (h : k.alloc.Room n) {Q : α → Kernel → Prop} (hq : Q a k) :
    Returns (pure a) k n Q := ⟨a, k, rfl, h, rfl, hq⟩

/-- A first part that asks for no block. -/
theorem Returns.step {a : α} {R : β → Kernel → Prop} (hm : m k = some (a, k')) (ho : k'.oom = k.oom)
    (h : Returns (f a) k' n R) : Returns (m >>= f) k n R := by
  obtain ⟨b, k'', hb, hroom, ho', hr⟩ := h
  exact ⟨b, k'', bind_some.2 ⟨a, k', hm, hb⟩, hroom, ho'.trans ho, hr⟩

theorem Returns.modify {g : Kernel → Kernel} (h : (g k).alloc.Room n) (ho : (g k).oom = k.oom)
    {Q : PUnit → Kernel → Prop} (hq : Q ⟨⟩ (g k)) : Returns (modify g : KernelM PUnit) k n Q :=
  ⟨⟨⟩, g k, rfl, h, ho, hq⟩

theorem Returns.mono {Q R : α → Kernel → Prop} (h : Returns m k n Q) (hQ : ∀ a k', Q a k' → R a k') :
    Returns m k n R := by
  obtain ⟨a, k', hm, hroom, ho, hq⟩ := h
  exact ⟨a, k', hm, hroom, ho, hQ a k' hq⟩

/-! ## blocks -/

theorem Mapped.mono {p m : Nat} (h : Mapped p n) (hm : m ≤ n) : Mapped p m := by
  unfold Mapped at h ⊢
  omega

/-- A block is mapped. -/
theorem mapped_of_region {a : Alloc} {p b : Nat} (h : a.Settled) (hr : a.Region p b) (hs : size ≤ b) :
    Mapped p size := by
  obtain ⟨-, hlo, hhi⟩ := h.managed hr
  unfold buddyMemoryBase memorySize totalFrame frameSize at *
  unfold Mapped kernelMapSize
  omega

/-- A request is granted with a new block. -/
theorem kmalloc_adds (h : k.alloc.Room (n + 1)) (ho : size2order size ≤ 2) (hs : size < 2 ^ 32) :
    Returns (kmalloc size) k n fun p k' => p ≠ 0 ∧ Mapped p (granted size) ∧
      ∃ a, k' = { k with alloc := a } ∧ k.alloc.Adds a p (granted size) := by
  obtain ⟨p, a, hres, hp, hadds, hroom⟩ := h.kmalloc_order ho
  have hregion : a.Region p (granted size) := (hadds.region _ _).2 (Or.inr ⟨rfl, rfl⟩)
  rw [← Nat.mod_eq_of_lt hs] at hres
  exact ⟨p, { k with alloc := a }, kmalloc_some.2 ⟨a, hres, by simp [hp]⟩, hroom, rfl, hp,
    mapped_of_region hroom.settled hregion (Nat.le_refl _), a, rfl, hadds⟩

theorem kmalloc_returns (h : k.alloc.Room (n + 1)) (hs : size ≤ 0x4000) :
    Returns (kmalloc size) k n fun p k' => p ≠ 0 ∧ Mapped p size ∧ ∃ a, k' = { k with alloc := a } := by
  have hle : size ≤ granted size := le_granted (by unfold maxRequest frameSize; omega)
  refine (kmalloc_adds h (size2order_le hs) (by omega)).mono fun p k' ⟨hp, hm, a, hk, _⟩ => ?_
  exact ⟨hp, hm.mono hle, a, hk⟩

theorem kmallocRecord_returns (h : k.alloc.Room (n + 1)) (hs : size ≤ 0x4000) :
    Returns (kmallocRecord size) k n fun p k' => p ≠ 0 ∧ ∃ a, k' = { k with alloc := a } := by
  unfold kmallocRecord
  refine (kmalloc_returns h hs).bind fun p k' _ hroom ⟨hp, _, a, hk⟩ => ?_
  rw [if_neg hp]
  exact .pure p hroom ⟨hp, a, hk⟩

theorem mmuAddVma_returns (va pa rwx : Nat) (b : Bool) (h : k.alloc.Room (n + 1)) :
    Returns (mmuAddVma t va size pa rwx b) k n fun _ k' => Frame t k k' := by
  unfold mmuAddVma
  refine (kmallocRecord_returns h (by decide)).bind fun p k' _ hroom ⟨hp, a, hk⟩ => ?_
  refine .modify hroom rfl ?_
  subst hk
  exact ((Frame.refl t k).mem a k.oom k.bytes k.files).setProc (Process.addAreas _)
    (Process.keeps_addAreas _ _)

theorem clearTable_returns {p : Nat} (h : k.alloc.Room n) (hm : Mapped p 0x1000) :
    Returns (clearTable p) k n fun _ k' => k'.sched = k.sched ∧ k'.procs = k.procs :=
  ⟨⟨⟩, _, clearTable_some.2 ⟨hm, rfl⟩, h, rfl, rfl, rfl⟩

theorem store_returns {p : Nat} {g : Nat → UInt8} (h : k.alloc.Room n) (hm : Mapped p size) :
    Returns (store p size g) k n fun _ k' => k'.sched = k.sched ∧ k'.procs = k.procs :=
  ⟨⟨⟩, _, store_some.2 ⟨hm, rfl⟩, h, rfl, rfl, rfl⟩

theorem openNode_returns (node : VnodeRef) (flags : Nat) (h : k.alloc.Room (n + 1)) :
    Returns (openNode node flags) k n fun _ k' => k'.sched = k.sched ∧ k'.procs = k.procs := by
  unfold openNode
  refine (kmallocRecord_returns h (by decide)).bind fun p k' _ hroom ⟨hp, a, hk⟩ => ?_
  subst hk
  refine .step (modify_some.2 rfl) rfl ?_
  refine Returns.pure p ?_ ?_
  · exact hroom
  · exact ⟨rfl, rfl⟩

/-! ## areas and threads -/

theorem addImageAreas_returns (h : k.alloc.Room (n + 2)) :
    Returns (addImageAreas t) k n fun _ k' => Frame t k k' := by
  unfold addImageAreas
  refine .step (proc_some.2 rfl) rfl ?_
  refine (mmuAddVma_returns _ _ _ _ h).bind fun _ k₂ _ hroom hf => ?_
  exact (mmuAddVma_returns _ _ _ _ hroom).mono fun _ _ hf' => hf.trans hf'

theorem addFixedAreas_returns (h : k.alloc.Room (n + 3)) :
    Returns (addFixedAreas t) k n fun _ k' => Frame t k k' := by
  unfold addFixedAreas
  refine (mmuAddVma_returns _ _ _ _ h).bind fun _ k₁ _ hroom hf => ?_
  refine .step (get_some.2 rfl) rfl ?_
  refine (mmuAddVma_returns _ _ _ _ hroom).bind fun _ k₂ _ hroom hf' => ?_
  refine .step (proc_some.2 rfl) rfl ?_
  exact (mmuAddVma_returns _ _ _ _ hroom).mono fun _ _ hf'' => (hf.trans hf').trans hf''

/-- `thread_create` takes a free slot and five blocks. -/
theorem threadCreate_returns {start filesize : Nat} {s : Sched} (h : k.alloc.Room (n + 5))
    (hs : RpiKernel.threadCreate k.sched = some (t, s)) (hsize : filesize ≤ 0x4000) :
    Returns (threadCreate start filesize) k n fun r k' =>
      r = some t ∧ k'.sched = s ∧ Mapped (k'.procs t).data filesize ∧
        Mapped (k'.procs t).kernelSp kstackSize ∧ ∀ u, u ≠ t → k'.procs u = k.procs u := by
  unfold threadCreate
  refine .step (get_some.2 rfl) rfl ?_
  rw [hs]
  refine .step (modify_some.2 rfl) rfl ?_
  have hstack : ustackSize ≤ 0x4000 := by decide
  have hframe : frameSize ≤ 0x4000 := by decide
  have hpage : 0x1000 ≤ 0x4000 := by decide
  have h₀ : ({ k with sched := s } : Kernel).alloc.Room (n + 5) := h
  refine (kmalloc_returns h₀ hstack).bind fun userSp k₁ _ h₁ ⟨_, _, a₁, hk₁⟩ => ?_
  refine (kmalloc_returns h₁ hstack).bind fun kernelSp k₂ _ h₂ ⟨_, hkm, a₂, hk₂⟩ => ?_
  refine (kmalloc_returns h₂ hframe).bind fun signalSp k₃ _ h₃ ⟨_, _, a₃, hk₃⟩ => ?_
  refine (kmalloc_returns h₃ hsize).bind fun data k₄ _ h₄ ⟨_, hdm, a₄, hk₄⟩ => ?_
  refine (kmalloc_returns h₄ hpage).bind fun pgd k₅ _ h₅ ⟨_, hpm, a₅, hk₅⟩ => ?_
  refine (clearTable_returns h₅ hpm).bind fun _ k₆ _ h₆ ⟨hsched, hprocs⟩ => ?_
  refine .step (get_some.2 rfl) rfl (.step (modifyProc_some.2 rfl) rfl (Returns.pure _ ?_ ?_))
  · exact h₆
  refine ⟨rfl, ?_⟩
  subst hk₁ hk₂ hk₃ hk₄ hk₅
  rw [setProc_procs]
  refine ⟨hsched, hdm, hkm, fun u hu => ?_⟩
  rw [setProc_procs_other _ hu, hprocs]

/-- A `for` loop each pass of which asks for one block. -/
theorem forIn_returns {g : Nat → KernelM (ForInStep PUnit)}
    (hg : ∀ i k n, k.alloc.Room (n + 1) → Returns (g i) k n fun r _ => r = .yield ⟨⟩)
    {is : List Nat} (h : k.alloc.Room (n + is.length)) :
    Returns (forIn is PUnit.unit fun i _ => g i) k n fun _ _ => True := by
  induction is generalizing k with
  | nil => exact ⟨_, k, rfl, h, rfl, trivial⟩
  | cons i is ih =>
      rw [List.forIn_cons]
      refine (hg i k _ h).bind fun r k' _ hroom hr => ?_
      subst hr
      exact ih hroom

/-- `thread_exec` takes thirteen blocks. -/
theorem threadExec_returns {data filesize : Nat} (uart : VnodeRef) {s : Sched}
    (h : k.alloc.Room (n + 13)) (hs : RpiKernel.threadCreate k.sched = some (t, s))
    (hsize : filesize ≤ 0x4000) : Returns (threadExec data filesize uart) k n fun _ _ => True := by
  unfold threadExec
  refine (threadCreate_returns h hs hsize).bind fun r k₁ hc h₁ ⟨hr, _, hdm, _⟩ => ?_
  subst hr
  dsimp only
  refine (addImageAreas_returns h₁).bind fun _ k₂ himg h₂ hf₂ => ?_
  refine (addFixedAreas_returns h₂).bind fun _ k₃ hfix h₃ hf₃ => ?_
  refine .step (modifyProc_some.2 rfl) rfl (.step (get_some.2 rfl) rfl (.step (proc_some.2 rfl) rfl ?_))
  have hdata : ((k₃.setProc t Process.enter).procs t).data = (k₁.procs t).data := by
    obtain ⟨a₁, a₂, hp₂⟩ := addImageAreas_child himg
    obtain ⟨a₃, a₄, a₅, hp₃⟩ := addFixedAreas_child hfix
    rw [setProc_procs, hp₃, hp₂]
    rfl
  have hmap : Mapped ((k₃.setProc t Process.enter).procs t).data filesize := hdata ▸ hdm
  have h₃' : (k₃.setProc t Process.enter).alloc.Room (n + 3) := h₃
  refine (store_returns h₃' hmap).bind fun _ k₄ _ h₄ _ => ?_
  refine .step (modify_some.2 rfl) rfl ?_
  -- one handle for each of the three standard files
  have hpass : ∀ (i : Nat) (k : Kernel) (n : Nat), k.alloc.Room (n + 1) →
      Returns (do
        let f ← openNode uart 0
        modifyProc t fun p =>
          { p with fileDescriptorsTable := Function.update p.fileDescriptorsTable i f }
        pure (ForInStep.yield PUnit.unit) : KernelM (ForInStep PUnit)) k n fun r _ =>
          r = .yield ⟨⟩ := by
    intro i k n h
    refine (openNode_returns uart 0 h).bind fun f k₁ _ h₁ _ => ?_
    refine .step (modifyProc_some.2 rfl) rfl (Returns.pure _ ?_ rfl)
    exact h₁
  have h₄' : ({ k₄ with sched := k₄.sched.setCurr t } : Kernel).alloc.Room (n + [0, 1, 2].length) := h₄
  refine (forIn_returns hpass h₄').bind fun _ k₅ _ h₅ _ => ?_
  exact Returns.pure _ h₅ trivial

/-- `mmap` takes two blocks when there is no area at the address. -/
theorem mmap_returns {addr len : Nat} (prot m : Nat) (h : k.alloc.Room (n + 2))
    (hlen : roundPage len ≤ 0x4000)
    (hfree : ∀ v ∈ (k.procs k.sched.currThread).vmaList,
      ¬ overlaps (roundPage addr) (roundPage len) v) :
    Returns (mmap (m + 1) addr len prot) k n fun r _ => r = roundPage addr := by
  unfold mmap
  refine .step (currThread_some.2 rfl) rfl (.step (proc_some.2 rfl) rfl ?_)
  have hnone : ((k.procs k.sched.currThread).vmaList.find? fun v =>
      overlaps (roundPage addr) (roundPage len) v) = none := by
    rw [List.find?_eq_none]
    exact fun v hv => by simpa using hfree v hv
  rw [hnone]
  refine (kmalloc_returns h hlen).bind fun ptr k₁ _ h₁ hptr => ?_
  refine (store_returns h₁ hptr.2.1).bind fun _ k₂ _ h₂ _ => ?_
  refine (mmuAddVma_returns _ _ _ _ h₂).bind fun _ k₃ _ h₃ _ => ?_
  exact Returns.pure _ h₃ rfl

/-! ## a state to start from -/

/-- The scheduler after `init_thread_sched`. -/
def schedInit : Sched := (initThreadSched staticSched).get (by decide)

theorem schedInit_eq : initThreadSched staticSched = some schedInit := (Option.some_get _).symm

/-- The kernel after `init_thread_sched`, on an allocator that was just
initialised. -/
def smallKernel : Kernel where
  alloc := initAllocator zeroAlloc smallBoot
  words := fun _ => 0
  bytes := fun _ => 0
  sched := schedInit
  procs := fun _ => ⟨⟨fun _ => 0, 0, 0, 0, 0⟩, 0, 0, 0, 0, 0, fun _ => 0, fun _ => 0, 0, false,
    ⟨fun _ => 0, 0, 0, 0, 0⟩, [], [], fun _ => 0⟩
  files := fun _ => ⟨0, 0, .uart, 0⟩
  defaultHandler := 0xffff000000080000
  handlerWrapper := 0xffff000000090000
  misc := []
  oom := false

theorem smallKernel_initial : smallKernel.Initial where
  sched := schedInit_eq
  areas := fun _ => rfl
  files := fun _ _ => rfl
  settled := smallBoot_room.settled
  misc := .of_live (List.nodup_nil) (by simp [smallKernel])
  oom := rfl

/-- The first program starts, and there is room for many blocks. -/
theorem smallBooted (uart : VnodeRef) {filesize : Nat} (hsize : filesize ≤ 0x4000) :
    ∃ k : Kernel, k.Booted 0 filesize uart ∧ k.alloc.Room 0x3000 ∧ k.oom = false := by
  have hroom : smallKernel.alloc.Room (0x3000 + 13) := smallBoot_room.mono (by decide)
  obtain ⟨r, hr⟩ : ∃ r, RpiKernel.threadCreate smallKernel.sched = some r := by
    have hs : (RpiKernel.threadCreate smallKernel.sched).isSome := by decide +kernel
    exact Option.isSome_iff_exists.1 hs
  obtain ⟨_, k', hx, hroom', ho, -⟩ := threadExec_returns uart hroom hr hsize
  exact ⟨k', ⟨smallKernel, smallKernel_initial, hx⟩, hroom', ho⟩

end Kernel

end RpiKernel
