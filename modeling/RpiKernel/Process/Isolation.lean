import RpiKernel.Process.Areas
import RpiKernel.Process.ExecFailure

/-!
# RpiKernel.Process.Isolation

The memory behind the areas of threads: each has its own, inside of one block
(`MemoryIsolated`), as long as no image near 4 GiB is executed, requests for memory are
granted, and forks are in order (`Partitioned.next`).
-/

namespace RpiKernel

open Custody Sched Runs

/-! ## the memory of areas -/

/-- The first range is a part of the second. -/
def Range.Inside (r s : Range) : Prop :=
  ∀ x, r.1 ≤ x → x < r.1 + r.2 → s.1 ≤ x ∧ x < s.1 + s.2

/-- The physical addresses of an area. -/
def Vma.memory (v : Vma) : Range := (v.physAddr, v.areaSize)

/-- The areas that have memory of their own. -/
def Process.alloced (p : Process) : List Vma := p.vmaList.filter fun v => v.isAlloced

theorem Process.mem_alloced {p : Process} {v : Vma} :
    v ∈ p.alloced ↔ v ∈ p.vmaList ∧ v.isAlloced = true := List.mem_filter

/-- An area has a block for its memory, if that is not empty. -/
structure Vma.Backed (v : Vma) : Prop where
  size : v.areaSize ≤ maxRequest
  phys : v.physAddr < 2 ^ 64
  block : v.isAlloced = true → 0 < v.areaSize → physToVirt v.physAddr ≠ 0

theorem Range.apart_of_empty {r s : Range} (h : r.2 = 0 ∨ s.2 = 0) : r.Apart s := by
  intro x hx
  omega

namespace Kernel

/-- The memory of every area lies in one live block, and no two areas share any. -/
structure MemoryIsolated (k : Kernel) : Prop where
  inside : ∀ t, k.sched.status t ≠ .free → ∀ v ∈ (k.procs t).alloced,
    ∃ p n, k.alloc.Region p n ∧ v.memory.Inside (virtToPhys p, n)
  apart : ∀ t, k.sched.status t ≠ .free →
    (k.procs t).alloced.Pairwise fun v w => v.memory.Apart w.memory
  others : ∀ t u, t ≠ u → k.sched.status t ≠ .free → k.sched.status u ≠ .free →
    ∀ v ∈ (k.procs t).alloced, ∀ w ∈ (k.procs u).alloced, v.memory.Apart w.memory

end Kernel

/-- The condition on a step: `exec` asks for less than 4 GiB, and no request for
an image that is not empty or for a stack is refused. -/
def KernelAct.Backs (k : Kernel) : KernelAct → Prop
  | .exec (some f) => Kernel.getsize f % 2 ^ 32 ≤ maxRequest ∧
      ∀ k₁ dropped data userSp signalSp a, Kernel.mmuDelAllVma k.sched.currThread k = some ((), k₁) →
        Grants k₁.alloc (Kernel.execRequests (Kernel.getsize f % 2 ^ 32) dropped data userSp signalSp) a →
        (0 < Kernel.getsize f % 2 ^ 32 → data ≠ 0) ∧ userSp ≠ 0 ∧ signalSp ≠ 0
  | .fork _ => ∀ (b : Kernel.NewThread) a,
      Grants k.alloc (b.requests (k.procs k.sched.currThread).datasize) a → b.signalSp ≠ 0
  | _ => True

namespace Kernel

/-- A request that is not empty is not refused. -/
def HasBlock (size : Nat) (k : Kernel) : Prop := 0 < size → ∀ p k', kmalloc size k = some (p, k') → p ≠ 0

/-- No request of the third loop of `fork` for the copy of an area is refused. -/
def CopiesGranted (child : Nat) : List Vma → Kernel → Prop
  | [], _ => True
  | v :: vs, k => (¬ skipped v → HasBlock v.areaSize k) ∧
      ∀ k', copyAreas child [v] k = some ((), k') → CopiesGranted child vs k'

end Kernel

/-- The condition on `mmap` and `fork`, which write through the `NULL` of a request that is refused to
the program's own address 0: there is a block for every area that is not empty, and the length given
to `mmap` is one that `kmalloc` can be asked for. -/
def KernelAct.Granted (k : Kernel) : KernelAct → Prop
  | .mmap _ len _ => Kernel.roundPage len < 2 ^ 32 ∧ Kernel.HasBlock (Kernel.roundPage len) k
  | .fork _ =>
      let p := k.procs k.sched.currThread
      ∀ child k₁ k₂, Kernel.threadCreate p.data p.datasize k = some (some child, k₁) →
        Kernel.copyFiles k.sched.currThread child (List.range (maxFd + 1))
          (k₁.setProc child (Process.inherit p.signalHandler)) = some ((), k₂) →
        Kernel.CopiesGranted child p.vmaList k₂
  | _ => True

namespace Kernel

variable {size : Nat → Nat} {k k' k₀ : Kernel} {t u n p q m : Nat} {v w : Vma} {vs : List Vma}

/-! ## areas with memory -/

/-- The block of an area. -/
theorem mem_areaBlocks (hv : v ∈ vs) (hall : v.isAlloced = true) (hne : physToVirt v.physAddr ≠ 0) :
    (physToVirt v.physAddr, size v.areaSize) ∈ areaBlocks size vs := by
  refine List.mem_flatMap.2 ⟨v, hv, ?_⟩
  rw [Vma.blocks, if_pos hall, ownBlock_of_ne hne]
  simp

/-- A part of a block, in physical addresses. -/
theorem inside_block (hv : v.physAddr < 2 ^ 64) (hn : v.areaSize ≤ n) :
    v.memory.Inside (virtToPhys (physToVirt v.physAddr), n) := by
  have hphys : virtToPhys (physToVirt v.physAddr) = v.physAddr := by
    unfold virtToPhys physToVirt
    omega
  intro x hx hlt
  unfold Vma.memory at hx hlt
  rw [hphys]
  dsimp only at hx hlt ⊢
  omega

/-- Parts of different blocks have nothing in common. -/
theorem apart_blocks {a : Alloc} (ha : a.Settled) (hv : v.physAddr < 2 ^ 64) (hw : w.physAddr < 2 ^ 64)
    (hp : a.Region (physToVirt v.physAddr) n) (hq : a.Region (physToVirt w.physAddr) m)
    (hn : v.areaSize ≤ n) (hm : w.areaSize ≤ m) (hne : physToVirt v.physAddr ≠ physToVirt w.physAddr) :
    v.memory.Apart w.memory := by
  have hdis := ha.disjoint hp hq hne
  have hlo := (ha.managed hp).2
  have hlo' := (ha.managed hq).2
  intro x ⟨hx, hx'⟩
  have hin := inside_block hv hn x hx.1 hx.2
  have hin' := inside_block hw hm x hx'.1 hx'.2
  generalize physToVirt v.physAddr = p at *
  generalize physToVirt w.physAddr = q at *
  dsimp only at hin hin'
  unfold virtToPhys at hin hin'
  unfold buddyMemoryBase memorySize totalFrame frameSize at hlo hlo'
  omega

/-- Threads own the memory of their areas, all of it. -/
structure Partitioned (k : Kernel) : Prop extends KernelOk (fun n => n) k where
  areas : ∀ t, ∀ v ∈ (k.procs t).vmaList, v.Backed
  idleAreas : (k.procs 0).vmaList = []

theorem Partitioned.living (h : Partitioned k) (ht : k.sched.status t ≠ .free) (hv : v ∈ (k.procs t).alloced) : Living k t := by
  refine ⟨fun h0 => ?_, ht⟩
  have hm := (Process.mem_alloced.1 hv).1
  rw [h0, h.idleAreas] at hm
  cases hm

/-- An area that is not empty has a block. -/
theorem Partitioned.block (h : Partitioned k) (hv : v ∈ (k.procs t).alloced) (hne : v.areaSize ≠ 0) :
    (physToVirt v.physAddr, v.areaSize) ∈ areaBlocks (fun n => n) (k.procs t).vmaList := by
  obtain ⟨hm, hall⟩ := Process.mem_alloced.1 hv
  exact mem_areaBlocks hm hall ((h.areas t v hm).block hall (by omega))

theorem mem_held (hl : Living k t) {e : Nat × Nat}
    (he : e ∈ areaBlocks (fun n => n) (k.procs t).vmaList) : e ∈ held (fun n => n) k (some t) := by
  rw [held_living hl, Process.blocks]
  exact List.mem_append_left _ he

theorem Partitioned.inside (h : Partitioned k) (hl : Living k t) (hv : v ∈ (k.procs t).alloced) :
    ∃ p n, k.alloc.Region p n ∧ v.memory.Inside (virtToPhys p, n) := by
  obtain ⟨hm, hall⟩ := Process.mem_alloced.1 hv
  by_cases hempty : v.areaSize = 0
  · -- the record is a block, at least
    have hrec : (v.addr, vmaBytes) ∈ areaBlocks (fun n => n) (k.procs t).vmaList :=
      List.mem_flatMap.2 ⟨v, hm, List.mem_cons_self⟩
    obtain ⟨n, hn, -⟩ := h.shares.backed _ _ (mem_held hl hrec)
    refine ⟨v.addr, n, hn, fun x hx hlt => ?_⟩
    unfold Vma.memory at hx hlt
    dsimp only at hx hlt
    omega
  · obtain ⟨n, hn, hle⟩ := h.shares.backed _ _ (mem_held hl (h.block hv hempty))
    exact ⟨_, n, hn, inside_block (h.areas t v hm).phys hle⟩

/-- Two areas whose blocks are not the same have no memory in common. -/
theorem Partitioned.apart (h : Partitioned k) (hl : Living k t) (hu : Living k u)
    (hv : v ∈ (k.procs t).alloced) (hw : w ∈ (k.procs u).alloced)
    (hne : v.areaSize ≠ 0 → w.areaSize ≠ 0 → physToVirt v.physAddr ≠ physToVirt w.physAddr) :
    v.memory.Apart w.memory := by
  by_cases hv0 : v.areaSize = 0
  · exact Range.apart_of_empty (Or.inl hv0)
  by_cases hw0 : w.areaSize = 0
  · exact Range.apart_of_empty (Or.inr hw0)
  obtain ⟨n, hn, hle⟩ := h.shares.backed _ _ (mem_held hl (h.block hv hv0))
  obtain ⟨m, hm, hle'⟩ := h.shares.backed _ _ (mem_held hu (h.block hw hw0))
  have hv64 := (h.areas t v (Process.mem_alloced.1 hv).1).phys
  have hw64 := (h.areas u w (Process.mem_alloced.1 hw).1).phys
  exact apart_blocks h.settled hv64 hw64 hn hm hle hle' (hne hv0 hw0)

/-- Blocks at different addresses belong to different areas. -/
theorem pairwise_areas {size : Nat → Nat} (hnd : (addrs (areaBlocks size vs)).Nodup) :
    (vs.filter fun v => v.isAlloced).Pairwise fun v w =>
      physToVirt v.physAddr ≠ 0 → physToVirt v.physAddr ≠ physToVirt w.physAddr := by
  induction vs with
  | nil => exact .nil
  | cons v vs ih =>
      rw [areaBlocks_cons, addrs_append, List.nodup_append] at hnd
      have htail := ih hnd.2.1
      by_cases hall : v.isAlloced = true
      · rw [List.filter_cons_of_pos hall]
        refine .cons (fun w hw hne he => ?_) htail
        obtain ⟨hm, hallw⟩ := List.mem_filter.1 hw
        have hv : (physToVirt v.physAddr, size v.areaSize) ∈ v.blocks size := by
          rw [Vma.blocks, if_pos hall, ownBlock_of_ne hne]
          simp
        have hw' : (physToVirt w.physAddr, size w.areaSize) ∈ areaBlocks size vs :=
          mem_areaBlocks hm hallw (he ▸ hne)
        exact hnd.2.2 _ (mem_addrs.2 ⟨_, hv⟩) _ (mem_addrs.2 ⟨_, hw'⟩) he
      · rw [List.filter_cons_of_neg hall]
        exact htail

/-- Who owns different blocks shares no memory. -/
theorem Partitioned.isolated (h : Partitioned k) : MemoryIsolated k := by
  refine ⟨fun t ht v hv => h.inside (h.living ht hv) hv, fun t ht => ?_, fun t u htu ht hu v hv w hw => ?_⟩
  · by_cases h0 : t = 0
    · subst h0
      have hnone : (k.procs 0).alloced = [] := by rw [Process.alloced, h.idleAreas, List.filter_nil]
      rw [hnone]
      exact .nil
    · have hl : Living k t := ⟨h0, ht⟩
      have hnd := h.shares.nodup (some t)
      rw [held_living hl, Process.blocks, addrs_append, List.nodup_append] at hnd
      have hpw := pairwise_areas hnd.1
      refine hpw.imp_of_mem fun {v w} hv hw hne => ?_
      obtain ⟨hm, hall⟩ := Process.mem_alloced.1 hv
      exact h.apart hl hl hv hw fun hv0 _ => hne ((h.areas t v hm).block hall (by omega))
  · refine h.apart (h.living ht hv) (h.living hu hw) hv hw fun hv0 hw0 => ?_
    have hvb := mem_held (h.living ht hv) (h.block hv hv0)
    have hwb := mem_held (h.living hu hw) (h.block hw hw0)
    have htu' : some t ≠ some u := fun he => htu (Option.some.inj he)
    have happart := h.shares.apart (some t) (some u) htu'
    exact happart (physToVirt v.physAddr, v.areaSize) hvb (physToVirt w.physAddr, w.areaSize) hwb

/-! ## new areas -/

/-- A request up to this size is large enough for its area. -/
theorem covers_of_le (hn : n ≤ maxRequest) : Covers (fun n => n) n := by
  have hlt : n < 2 ^ 32 := by
    unfold maxRequest frameSize at hn
    omega
  unfold Covers
  rw [Nat.mod_eq_of_lt hlt]
  by_cases h0 : n = 0
  · rw [h0]
    exact Nat.zero_le _
  · refine roundPage_le (le_granted hn) ?_
    unfold granted frameSize
    rw [if_neg h0]
    omega

/-- The blocks that were asked for, in physical addresses and back. -/
theorem grants_physToVirt {base : Nat → Nat → Prop} {L : Custody.Blocks} {a a' : Alloc}
    {rs : List (Nat × Nat)} (h : Grants a rs a') (hh : a.Holds base L) :
    ∀ r ∈ rs, physToVirt (virtToPhys r.2) = r.2 := by
  induction h generalizing L with
  | nil a =>
      intro r hr
      cases hr
  | @cons a a₁ a' n p rs hk _ ih =>
      have hown := hh.kmalloc_own hk (Nat.zero_le _)
      intro r hr
      cases List.mem_cons.1 hr with
      | inl he => exact he ▸ hown.physToVirt_own
      | inr hm => exact ih hown r hm

theorem virtToPhys_lt (q : Nat) : virtToPhys q < 2 ^ 64 := Nat.mod_lt _ (by decide)

/-- An area with a block. -/
theorem backed_own {q : Nat} (hq : physToVirt (virtToPhys q) = q) (hphys : v.physAddr = virtToPhys q)
    (hsize : v.areaSize ≤ maxRequest) (hne : 0 < v.areaSize → q ≠ 0) : v.Backed :=
  ⟨hsize, hphys ▸ virtToPhys_lt q, fun _ h0 => by rw [hphys, hq]; exact hne h0⟩

/-- An area of memory that is not its own. -/
theorem backed_foreign (hall : v.isAlloced = false) (hphys : v.physAddr < 2 ^ 64)
    (hsize : v.areaSize ≤ maxRequest) : v.Backed :=
  ⟨hsize, hphys, fun h => by rw [hall] at h; cases h⟩

theorem roundPage_le_maxRequest (hn : n ≤ maxRequest) : roundPage n ≤ maxRequest :=
  roundPage_le hn (by decide)

theorem pos_of_roundPage (h : 0 < roundPage n) : 0 < n := by
  by_contra h0
  have hn : n = 0 := by omega
  rw [hn] at h
  exact absurd h (by decide)

/-- The image and the stack of a program. -/
theorem imageAreas_backed {p : Process} {a₁ a₂ : Nat} (hsize : p.datasize ≤ maxRequest)
    (hdata : physToVirt (virtToPhys p.data) = p.data) (huser : physToVirt (virtToPhys p.userSp) = p.userSp)
    (hne : 0 < p.datasize → p.data ≠ 0) (hne' : p.userSp ≠ 0) : ∀ v ∈ imageAreas p a₁ a₂, v.Backed := by
  have himage := roundPage_le_maxRequest hsize
  have hstack : roundPage ustackSize ≤ maxRequest := by decide
  intro v hv
  simp only [imageAreas, List.mem_cons, List.not_mem_nil, or_false] at hv
  cases hv with
  | inl he => exact he ▸ backed_own hdata rfl himage fun h0 => hne (pos_of_roundPage h0)
  | inr he => exact he ▸ backed_own huser rfl hstack fun _ => hne'

/-- The areas that every process gets. -/
theorem fixedAreas_backed {wrapper s a₁ a₂ a₃ : Nat} (hs : physToVirt (virtToPhys s) = s) (hne : s ≠ 0) :
    ∀ v ∈ fixedAreas wrapper s a₁ a₂ a₃, v.Backed := by
  have hperipheral : peripheralStart < 2 ^ 64 ∧ roundPage (peripheralEnd - peripheralStart) ≤ maxRequest := by
    decide
  have hwrapper : roundPage 0x2000 ≤ maxRequest := by decide
  have hstack : roundPage frameSize ≤ maxRequest := by decide
  intro v hv
  simp only [fixedAreas, List.mem_cons, List.not_mem_nil, or_false] at hv
  rcases hv with rfl | rfl | rfl
  · exact backed_foreign rfl hperipheral.1 hperipheral.2
  · exact backed_foreign rfl (virtToPhys_lt _) hwrapper
  · exact backed_own hs rfl hstack fun _ => hne

theorem mapped_physToVirt {q : Nat} (h : Mapped q n) (h0 : 0 < n) :
    physToVirt (virtToPhys q) = q ∧ q ≠ 0 := by
  have hq := h.resolve_left (by omega)
  unfold kernelMapSize at hq
  exact ⟨physToVirt_virtToPhys (by omega), by omega⟩

/-- What holds of the copies of all areas holds of the areas of the child. -/
theorem copyAreas_forall {P : Vma → Prop} {child : Nat}
    (hcopy : ∀ v ∈ vs, ¬ skipped v → ∀ q addr, Mapped q (v.areaSize % 2 ^ 32) → P (v.copyTo q addr))
    (hold : ∀ v ∈ (k.procs child).vmaList, P v) (h : copyAreas child vs k = some ((), k')) :
    ∀ v ∈ (k'.procs child).vmaList, P v := by
  induction vs generalizing k with
  | nil =>
      unfold copyAreas at h
      obtain ⟨-, rfl⟩ := Prod.mk.inj (pure_some.1 h)
      exact hold
  | cons v vs ih =>
      obtain ⟨k₁, hc, hrun⟩ := copyAreas_cons h
      refine ih (fun w hw => hcopy w (List.mem_cons_of_mem _ hw)) ?_ hrun
      rcases hc with ⟨-, rfl⟩ | ⟨hs, q, addr, a₁, a₂, a₃, hc⟩
      · exact hold
      · have hvs : (k₁.procs child).vmaList = (k.procs child).vmaList ++ [v.copyTo q addr] := by
          rw [hc.eq, setProc_procs, adopt_vmaList]
          rfl
        intro w hw
        rw [hvs, List.mem_append, List.mem_singleton] at hw
        cases hw with
        | inl hw => exact hold w hw
        | inr he => exact he ▸ hcopy v List.mem_cons_self hs q addr hc.dst

/-- The copy of an area has memory, because it was written. -/
theorem copyTo_backed {q addr : Nat} (hv : v.areaSize ≤ maxRequest)
    (hm : Mapped q (v.areaSize % 2 ^ 32)) : (v.copyTo q addr).Backed := by
  have hlt : v.areaSize % 2 ^ 32 = v.areaSize := by
    unfold maxRequest frameSize at hv
    omega
  rw [hlt] at hm
  refine ⟨roundPage_le_maxRequest hv, virtToPhys_lt q, fun _ h0 => ?_⟩
  obtain ⟨hphys, hne⟩ := mapped_physToVirt hm (pos_of_roundPage h0)
  show physToVirt (virtToPhys q) ≠ 0
  rw [hphys]
  exact hne

/-! ## steps -/

/-- After `fork` the areas of the child have memory, if those of the parent have
and there is a block for the signal stack. -/
theorem fork_backed {base : Nat → Nat → Prop} {L : Custody.Blocks} {cpu : ThreadContext} {child : Nat}
    (hh : k.alloc.Holds base L) (hareas : ∀ v ∈ (k.procs k.sched.currThread).vmaList, v.Backed)
    (hb : (KernelAct.fork cpu).Backs k) (hf : fork cpu k = some (child, k')) :
    ∀ v ∈ (k'.procs child).vmaList, v.Backed := by
  obtain ⟨k₁, k₂, k₃, k₄, h₁, h₂, h₃, h₄, -, -, hk'⟩ := fork_some hf
  obtain ⟨s, b, a, -, hg, -, hk₁⟩ := threadCreate_some h₁
  have hsignal := grants_physToVirt hg hh _ (by simp [NewThread.requests] : (frameSize, b.signalSp) ∈ _)
  have hne := hb b a hg
  generalize hkA : k₁.setProc child (Process.inherit (k.procs k.sched.currThread).signalHandler) = kA at h₂
  have hpA : (kA.procs child).vmaList = [] ∧ (kA.procs child).signalSp = b.signalSp := by
    rw [← hkA, setProc_procs, hk₁, setProc_procs]
    exact ⟨rfl, rfl⟩
  obtain ⟨table, htable⟩ := copyFiles_child h₂
  have hnone : ∀ v ∈ (k₂.procs child).vmaList, v.Backed := by
    rw [htable]
    dsimp only
    rw [hpA.1]
    intro v hv
    cases hv
  have hcopies := copyAreas_forall (P := Vma.Backed)
    (fun v hv _ q addr hm => copyTo_backed (hareas v hv).size hm) hnone h₃
  have hsp : (k₃.procs child).signalSp = b.signalSp := by
    rw [((copyFiles_frame h₂).trans (copyAreas_frame h₃)).keeps.signalSp, hpA.2]
  obtain ⟨a₁, a₂, a₃, hfixed⟩ := addFixedAreas_child h₄
  have hvmas : (k'.procs child).vmaList =
      (k₃.procs child).vmaList ++ fixedAreas k₃.handlerWrapper b.signalSp a₁ a₂ a₃ := by
    rw [hk', setProc_vmaList (Process.resume_vmaList cpu _), setProc_vmaList (Process.save_vmaList cpu)]
    dsimp only
    rw [hfixed, hsp]
    rfl
  intro v hv
  rw [hvmas, List.mem_append] at hv
  cases hv with
  | inl hv => exact hcopies v hv
  | inr hv => exact fixedAreas_backed hsignal hne v hv

/-- What is left when the areas of a thread are deleted. -/
theorem Owns.delVma_holds {size : Nat → Nat} {base : Nat → Nat → Prop} {R : Custody.Blocks}
    (h : Owns size base R t k) (hdel : mmuDelAllVma t k = some ((), k')) : ∃ L, k'.alloc.Holds base L := by
  have hh := h.holds
  unfold Process.blocks at hh
  rw [List.append_assoc] at hh
  obtain ⟨a, hrun, hafter⟩ := delVmas_holds hh
  obtain ⟨k₁, hvmas, rfl⟩ := mmuDelAllVma_some hdel
  obtain ⟨-, rfl⟩ := Prod.mk.inj (Option.some.inj (hvmas.symm.trans hrun))
  exact ⟨_, hafter⟩

/-- After `exec` the areas of the program have memory. -/
theorem exec_backed {size : Nat → Nat} {base : Nat → Nat → Prop} {R : Custody.Blocks} {f : ExecFile}
    (h : Owns size base R k.sched.currThread k) (hb : (KernelAct.exec (some f)).Backs k)
    (hx : exec (some f) k = some ((), k')) : ∀ v ∈ (k'.procs k.sched.currThread).vmaList, v.Backed := by
  obtain ⟨k₁, dropped, data, userSp, signalSp, a, a₁, a₂, a₃, a₄, a₅, hdel, hg, hp⟩ := exec_loads hx
  obtain ⟨L, hh⟩ := h.delVma_holds hdel
  obtain ⟨hsize, hgranted⟩ := hb
  obtain ⟨hdata, huser, hsignal⟩ := hgranted k₁ dropped data userSp signalSp a hdel hg
  have hphys := grants_physToVirt hg hh
  unfold execRequests at hphys
  simp only [List.forall_mem_cons] at hphys
  obtain ⟨-, hdata', huser', hsignal', -⟩ := hphys
  have hvmas := congrArg Process.vmaList hp
  have himage : ∀ v ∈ imageAreas ((k.procs k.sched.currThread).noAreas.load (getsize f % 2 ^ 32) data
      userSp signalSp) a₁ a₂, v.Backed := imageAreas_backed hsize hdata' huser' hdata huser
  intro v hv
  rw [hvmas] at hv
  simp only [Process.inherit, Process.addAreas, Process.noAreas, Process.load, List.nil_append,
    List.mem_append] at hv
  cases hv with
  | inl hv => exact himage v hv
  | inr hv => exact fixedAreas_backed hsignal' hsignal v hv

/-- The area of `mmap` has memory, because it was cleared. -/
theorem mmap_backed {addr len prot r : Nat} (h : mmap n addr len prot k = some (r, k')) :
    roundPage len ≤ maxRequest ∧ ∃ v : Vma, v.Backed ∧
      k'.procs k.sched.currThread = (k.procs k.sched.currThread).addAreas [v] := by
  obtain ⟨-, ptr, a₁, rec, a₂, mem, -, hm, -, -, rfl⟩ := mmap_some h
  have hsize : roundPage len ≤ maxRequest := by
    unfold Mapped kernelMapSize at hm
    unfold maxRequest frameSize
    omega
  refine ⟨hsize, mapArea rec r (roundPage len) prot ptr, ⟨hsize, virtToPhys_lt ptr, fun _ h0 => ?_⟩,
    setProc_procs _⟩
  obtain ⟨hphys, hne⟩ := mapped_physToVirt hm h0
  show physToVirt (virtToPhys ptr) ≠ 0
  rw [hphys]
  exact hne

/-- A step that gives new areas to one thread. -/
theorem Partitioned.one (h : Partitioned k) (h0 : t ≠ 0)
    (hother : ∀ u, u ≠ t → (k'.procs u).vmaList = (k.procs u).vmaList)
    (hnew : ∀ v ∈ (k'.procs t).vmaList, v.Backed) :
    (∀ u, ∀ v ∈ (k'.procs u).vmaList, v.Backed) ∧ (k'.procs 0).vmaList = [] := by
  refine ⟨fun u => ?_, by rw [hother 0 h0.symm]; exact h.idleAreas⟩
  by_cases hu : u = t
  · exact hu ▸ hnew
  · rw [hother u hu]
    exact h.areas u

theorem Partitioned.areas_next {a : KernelAct} (h : Partitioned k) (hb : a.Backs k)
    (hs : kernelStep k (n, a) = some k') :
    (∀ u, ∀ v ∈ (k'.procs u).vmaList, v.Backed) ∧ (k'.procs 0).vmaList = [] := by
  obtain ⟨hen, hp⟩ := kernelStep_some hs
  have hquiet : ¬ a.MovesAreas →
      (∀ u, ∀ v ∈ (k'.procs u).vmaList, v.Backed) ∧ (k'.procs 0).vmaList = [] := by
    intro ha
    have hsame := kernelStep_vmaList hs ha
    exact ⟨fun u => by rw [hsame u]; exact h.areas u, by rw [hsame 0]; exact h.idleAreas⟩
  cases a with
  | fork cpu =>
      obtain ⟨⟨child, k'⟩, hf, rfl⟩ := Option.map_eq_some_iff.1 hp
      obtain ⟨hfree, -, -⟩ := threadCreate_spec (fork_sched hf)
      have h0 : child ≠ 0 := by
        obtain ⟨xs, hinv⟩ := h.sched
        exact fun he => hinv.idle_alive (he ▸ hfree)
      exact h.one h0 (fork_areas hf).1 (fork_backed (h.view none) (h.areas _) hb hf)
  | exec file =>
      obtain ⟨⟨_, k'⟩, hf, rfl⟩ := Option.map_eq_some_iff.1 hp
      cases file with
      | none =>
          obtain ⟨f, k₁, _, _, _, _, _, _, _, _, _, _, _, _, he, -⟩ := exec_some hf
          cases he
      | some f =>
          have hl : Living k k.sched.currThread := h.toKernelOk.living hen
          exact h.one hen (exec_areas hf).1 (exec_backed (h.owns hl) hb hf)
  | mmap addr len prot =>
      obtain ⟨⟨r, k'⟩, hf, rfl⟩ := Option.map_eq_some_iff.1 hp
      obtain ⟨-, v, hv, hproc⟩ := mmap_backed hf
      refine h.one hen (fun u hu => ?_) ?_
      · obtain ⟨-, ptr, a₁, rec, a₂, mem, -, -, -, -, rfl⟩ := mmap_some hf
        rw [setProc_procs_other _ hu]
      · rw [hproc]
        intro w hw
        cases List.mem_append.1 hw with
        | inl hw => exact h.areas _ w hw
        | inr hw => exact List.mem_singleton.1 hw ▸ hv
  | killZombies =>
      obtain ⟨⟨_, k'⟩, hf, rfl⟩ := Option.map_eq_some_iff.1 hp
      have hloop : killZombiesLoop n k.sched.rqHead k = some ((), k') := hf
      have hout := (killZombiesLoop_some hloop).2.2.2.2
      have hsub (u : Nat) : (k'.procs u).vmaList = (k.procs u).vmaList ∨ (k'.procs u).vmaList = [] := by
        rcases hout u with ⟨hpr, -⟩ | ⟨hpr, -⟩
        · exact Or.inl (by rw [hpr])
        · exact Or.inr (by rw [hpr]; rfl)
      refine ⟨fun u v hv => ?_, ?_⟩
      · cases hsub u with
        | inl he => exact h.areas u v (he ▸ hv)
        | inr he => rw [he] at hv; cases hv
      · exact (hsub 0).elim (fun he => he.trans h.idleAreas) id
  | openFile target flags => exact hquiet id
  | close fd => exact hquiet id
  | chdir path => exact hquiet id
  | fault far iss => exact hquiet id
  | exit => exact hquiet id
  | kill pid => exact hquiet id
  | signalDefault => exact hquiet id
  | schedule => exact hquiet id
  | take size => exact hquiet id
  | give ptr size => exact hquiet id

/-- The requests of a step are large enough for its areas. -/
theorem Partitioned.fits {a : KernelAct} (h : Partitioned k) (hb : a.Backs k)
    (hs : kernelStep k (n, a) = some k') : Fits (fun n => n) k a := by
  obtain ⟨-, hp⟩ := kernelStep_some hs
  cases a with
  | fork cpu => exact fun v hv _ => covers_of_le (h.areas _ v hv).size
  | exec file =>
      cases file with
      | none => trivial
      | some f => exact covers_of_le hb.1
  | mmap addr len prot =>
      obtain ⟨⟨r, k'⟩, hf, rfl⟩ := Option.map_eq_some_iff.1 hp
      exact covers_of_le (mmap_backed hf).1
  | _ => trivial

theorem Partitioned.next {a : KernelAct} (h : Partitioned k) (hw : ForksWell k a) (hb : a.Backs k)
    (hs : kernelStep k (n, a) = some k') : Partitioned k' := by
  have hustack : Covers (fun n => n) ustackSize := covers_of_le (by decide)
  have hframe : Covers (fun n => n) frameSize := covers_of_le (by decide)
  obtain ⟨hareas, hidle⟩ := h.areas_next hb hs
  exact ⟨h.toKernelOk.next hustack hframe hw (h.fits hb hs) hs, hareas, hidle⟩

/-! ## runs -/

variable {data filesize : Nat} {uart : VnodeRef}

/-- After booting the first program owns the memory of its areas. -/
theorem Booted.partitioned (h : k₀.Booted data filesize uart) (hsize : filesize ≤ maxRequest)
    (hoom : k₀.oom = false) : Partitioned k₀ := by
  have hustack : Covers (fun n => n) ustackSize := covers_of_le (by decide)
  have hframe : Covers (fun n => n) frameSize := covers_of_le (by decide)
  have hok : KernelOk (fun n => n) k₀ := h.ok hustack hframe (covers_of_le hsize)
  have hcurr := h.curr_ne
  refine ⟨hok, fun t v hv => ?_, h.areas_other hcurr.symm⟩
  by_cases ht : t = k₀.sched.currThread
  · subst ht
    obtain ⟨k, hk, hx⟩ := h
    have hkept : Kept (fun n => n) k := hk.kept
    obtain ⟨b, a, p, table, a₁, a₂, a₃, a₄, a₅, hg, hnull, hp⟩ := threadExec_loads hx
    have hphys := grants_physToVirt hg (hkept.view none)
    rw [hoom, hk.oom] at hnull
    simp only [NewThread.requests, List.forall_mem_cons] at hphys
    simp only [NewThread.requests, List.any_cons, List.any_nil, Bool.false_or, Bool.or_false,
      Bool.false_eq, Bool.or_eq_false_iff, beq_eq_false_iff_ne] at hnull
    have himage : ∀ v ∈ imageAreas (b.process data filesize k.defaultHandler p) a₁ a₂, v.Backed :=
      imageAreas_backed hsize hphys.2.2.2.1 hphys.1 (fun _ => hnull.2.2.2.1) hnull.1
    have hvmas := congrArg Process.vmaList hp
    rw [hvmas] at hv
    simp only [Process.enter, Process.addAreas, NewThread.process, List.nil_append, List.mem_append] at hv
    cases hv with
    | inl hv => exact himage v hv
    | inr hv => exact fixedAreas_backed hphys.2.2.1 hnull.2.2.1 v hv
  · rw [h.areas_other ht] at hv
    cases hv

/-- The image of the frame buffer has 4 GiB, more than there is memory; no request
for a block was refused. -/
theorem kernelRun_isolated_framebuffer : ∃ (k₀ k' : Kernel) (f : ExecFile), k₀.Booted 0 1 ⟨0, .uart⟩ ∧
    f.node.fOps = .framebuffer ∧ kernelStep k₀ (0, .exec (some f)) = some k' ∧ k'.oom = false ∧
    ¬ MemoryIsolated k' := by
  obtain ⟨k₀, k', s, f, hb, -, -, -, hx, hf, -, hoom⟩ := exec_framebuffer_boot
  have hcurr := hb.curr_ne
  have hs : kernelStep k₀ (0, .exec (some f)) = some k' :=
    kernelStep_of hcurr (congrArg (Option.map Prod.snd) hx)
  refine ⟨k₀, k', f, hb, hf, hs, hoom, fun hiso => ?_⟩
  have hok := hb.ok_zero
  have hwell : ForksWell k₀ (.exec (some f)) := trivial
  have hok' := hok.next_zero hwell hs
  obtain ⟨k₁, dropped, ptr, userSp, signalSp, a, a₁, a₂, a₃, a₄, a₅, -, -, hp⟩ := exec_loads hx
  have hround : roundPage (getsize f % 2 ^ 32) = 2 ^ 32 := by
    rw [getsize_framebuffer hf]
    decide
  have hmem : (⟨a₁, userKernelBase, virtToPhys ptr, roundPage (getsize f % 2 ^ 32), 0b111, true⟩ : Vma) ∈
      (k'.procs k₀.sched.currThread).alloced := by
    rw [Process.mem_alloced, hp]
    simp [Process.inherit, Process.addAreas, Process.noAreas, Process.load, imageAreas]
  rw [hround] at hmem
  have halive : k'.sched.status k₀.sched.currThread ≠ .free := by
    rw [exec_sched hx]
    exact hok.sched.curr
  obtain ⟨p, n, hreg, hin⟩ := hiso.inside _ halive _ hmem
  obtain ⟨-, hlo, hhi⟩ := hok'.settled.managed hreg
  -- the first and the last byte of the area
  have hfirst := hin (virtToPhys ptr) (Nat.le_refl _) (by unfold Vma.memory; dsimp only; omega)
  have hlast := hin (virtToPhys ptr + (2 ^ 32 - 1)) (by unfold Vma.memory; dsimp only; omega)
    (by unfold Vma.memory; dsimp only; omega)
  dsimp only at hfirst hlast
  have hmemory : memorySize < 2 ^ 31 := by decide
  omega

end Kernel

end RpiKernel
