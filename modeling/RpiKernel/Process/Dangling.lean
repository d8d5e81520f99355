import RpiKernel.Process.ForkReturns

/-!
# RpiKernel.Process.Dangling

Memory that is given back while an area still has it.

`fork` replaces the image of the child for every area at the address of the image, and its stack
for every area at that of the stack.  With two areas at one of these addresses the copy of the
first is freed, and the child keeps it (`fork_dangles`).
-/

namespace RpiKernel

open Custody

namespace Kernel

variable {k k' : Kernel} {t n p q addr home : Nat} {v : Vma} {vs : List Vma} {a₁ a₂ a₃ : Alloc}

/-- The memory of a copied area of `t` was given back: it is nobody's, or something else of `t` has
got it. -/
def Dangles (t : Nat) (k : Kernel) : Prop :=
  ∃ v ∈ (k.procs t).vmaList, ¬ skipped v ∧ physToVirt v.physAddr ∈ areaAddrs (k.procs t).vmaList ∧
    (¬ Live k (physToVirt v.physAddr) ∨ 2 ≤ (areaAddrs (k.procs t).vmaList).count (physToVirt v.physAddr))

/-- More areas, and blocks for them. -/
theorem Dangles.extend (h : Dangles t k) (hlist : (k'.procs t).vmaList = (k.procs t).vmaList ++ vs)
    (hlive : ∀ p, Live k' p → Live k p ∨ p ∈ areaAddrs vs) : Dangles t k' := by
  obtain ⟨v, hv, hskip, hmem, hdead⟩ := h
  have happ : areaAddrs (k'.procs t).vmaList = areaAddrs (k.procs t).vmaList ++ areaAddrs vs := by
    rw [hlist, areaAddrs, areaBlocks_append, addrs_append]
  refine ⟨v, hlist ▸ List.mem_append_left _ hv, hskip, happ ▸ List.mem_append_left _ hmem, ?_⟩
  rw [happ, List.count_append]
  generalize physToVirt v.physAddr = p at *
  have hpos := List.count_pos_iff.2 hmem
  by_cases hl : Live k' p
  · cases hdead with
    | inl hdead =>
        have hagain := List.count_pos_iff.2 ((hlive p hl).resolve_left hdead)
        exact Or.inr (by omega)
    | inr htwo => exact Or.inr (by omega)
  · exact Or.inl hl

/-! ## one copy -/

theorem not_live_null (hs : k.alloc.Settled) : ¬ Live k 0 := by
  rintro ⟨n, hn⟩
  obtain ⟨-, hlo, -⟩ := hs.managed hn
  unfold buddyMemoryBase at hlo
  omega

/-- Two blocks of a thread: its image and its stack. -/
theorem replaceable_holds (hs : k.alloc.Settled) (hr : Replaceable t k) :
    ∃ base, k.alloc.Holds base [((k.procs t).data, 0), ((k.procs t).userSp, 0)] := by
  obtain ⟨n, hn⟩ := hr.data
  obtain ⟨m, hm⟩ := hr.userSp
  refine ⟨_, hs, .of_live ?_ fun e he => ?_⟩
  · simpa using hr.ne
  · simp only [List.mem_cons, List.not_mem_nil, or_false] at he
    rcases he with rfl | rfl
    · exact ⟨n, hn, Nat.zero_le _⟩
    · exact ⟨m, hm, Nat.zero_le _⟩

theorem replaceable_of_holds {base : Nat → Nat → Prop} {L : Blocks}
    (h : k.alloc.Holds base (((k.procs t).data, 0) :: ((k.procs t).userSp, 0) :: L)) : Replaceable t k := by
  obtain ⟨n, hn, -⟩ := h.holds.backed _ List.mem_cons_self
  obtain ⟨m, hm, -⟩ := h.holds.backed _ (List.mem_cons_of_mem _ List.mem_cons_self)
  have hnd := h.holds.nodup
  simp only [addrs_cons, List.nodup_cons, List.mem_cons, not_or] at hnd
  exact ⟨⟨n, hn⟩, ⟨m, hm⟩, hnd.1.1⟩

/-- A block that was given back. -/
theorem not_live_of_holds {base : Nat → Nat → Prop} {L : Blocks} {a : Alloc} {m : Nat}
    (h : a.Holds base ((p, m) :: L)) (h' : k.alloc.Holds base L) : ¬ Live k p := by
  intro hl
  have hnd := h.holds.nodup
  rw [addrs_cons, List.nodup_cons] at hnd
  have hout := h.holds.not_base List.mem_cons_self
  exact hnd.1 ((h'.holds.live_iff.1 hl).resolve_left hout)

/-- A copy takes two blocks and gives back what it replaces. -/
theorem CopiesArea.live (h : CopiesArea t v q addr a₁ a₂ a₃ k k') (hs : k.alloc.Settled)
    (hr : Replaceable t k) (hq : q ≠ 0) :
    k'.alloc.Settled ∧ Replaceable t k' ∧ (∀ p, Live k' p → Live k p ∨ p ∈ areaAddrs [v.copyTo q addr]) ∧
      ¬ Live k' (replaced v.virtAddr (k.procs t)) := by
  obtain ⟨base, hbase⟩ := replaceable_holds hs hr
  have h₁ := hbase.kmalloc_own h.block (Nat.zero_le _)
  have hphys := h₁.physToVirt_own
  have h₂ := h₁.kmalloc_own h.record (Nat.zero_le _)
  rw [ownBlock_of_ne hq, ownBlock_of_ne h.ne] at h₂
  have hprocs : k'.procs t = adopt v.virtAddr q ((k.procs t).addAreas [v.copyTo q addr]) := by
    rw [h.eq, setProc_procs]
  have halloc : k'.alloc = a₃ := by rw [h.eq, setProc_alloc]
  have hcopy : areaAddrs [v.copyTo q addr] = [addr, q] := by
    simp [areaAddrs, Vma.blocks, Vma.copyTo, hphys, ownBlock_of_ne hq]
  have hdata := hr.data
  have huser := hr.userSp
  have hd0 : (k.procs t).data ≠ 0 := fun h0 => not_live_null hs (h0 ▸ hdata)
  have hu0 : (k.procs t).userSp ≠ 0 := fun h0 => not_live_null hs (h0 ▸ huser)
  -- what is replaced, the image and the stack now, and the rest
  obtain ⟨M, hsplit, hsub⟩ : ∃ M, a₂.Holds base (ownBlock (replaced v.virtAddr (k.procs t)) 0 ++
      (((k'.procs t).data, 0) :: ((k'.procs t).userSp, 0) :: M)) ∧
      ∀ p ∈ (k'.procs t).data :: (k'.procs t).userSp :: addrs M, Live k p ∨ p ∈ [addr, q] := by
    rw [hprocs]
    unfold replaced adopt
    by_cases himage : v.virtAddr = userKernelBase
    · refine ⟨[(addr, 0)], h₂.perm (perm_of_count fun e => ?_), ?_⟩
      · simp only [if_pos himage, Process.addAreas, ownBlock_of_ne hd0, List.count_append, List.count_cons,
          List.count_nil]
        omega
      · simp [if_pos himage, Process.addAreas, huser]
    · by_cases hstack : v.virtAddr = userStackBase - ustackSize
      · refine ⟨[(addr, 0)], h₂.perm (perm_of_count fun e => ?_), ?_⟩
        · simp only [if_neg himage, if_pos hstack, Process.addAreas, ownBlock_of_ne hu0, List.count_append,
            List.count_cons, List.count_nil]
          omega
        · simp [if_neg himage, if_pos hstack, Process.addAreas, hdata]
      · refine ⟨[(addr, 0), (q, 0)], h₂.perm (perm_of_count fun e => ?_), ?_⟩
        · simp only [if_neg himage, if_neg hstack, Process.addAreas, ownBlock_null, List.count_append,
            List.count_cons, List.count_nil]
          omega
        · simp [if_neg himage, if_neg hstack, Process.addAreas, hdata, huser]
  have hrest := hsplit.kfree_eq h.free
  rw [← halloc] at hrest
  refine ⟨hrest.settled, replaceable_of_holds hrest, fun p hp => ?_, ?_⟩
  · rw [hcopy]
    cases hrest.holds.live_iff.1 hp with
    | inl hb => exact Or.inl (hbase.holds.live_iff.2 (Or.inl hb))
    | inr hm => exact hsub p hm
  · by_cases h0 : replaced v.virtAddr (k.procs t) = 0
    · rw [h0]
      exact not_live_null hrest.settled
    · rw [ownBlock_of_ne h0] at hsplit
      exact not_live_of_holds hsplit hrest

/-! ## two areas at one address -/

/-- The addresses of the image and of the stack. -/
def IsHome (home : Nat) : Prop := home = userKernelBase ∨ home = userStackBase - ustackSize

/-- What the next copy at `home` would replace is the memory of an area. -/
def HomeHeld (home t : Nat) (k : Kernel) : Prop :=
  ∃ v ∈ (k.procs t).vmaList, ¬ skipped v ∧ physToVirt v.physAddr ∈ areaAddrs (k.procs t).vmaList ∧
    physToVirt v.physAddr = replaced home (k.procs t)

theorem IsHome.not_skipped (h : IsHome home) (hv : v.virtAddr = home) : ¬ skipped v := by
  have himage : userKernelBase ∉ [userSignalWrapperVa, peripheralStart, userSignalStkstartVa] := by decide
  have hstack : userStackBase - ustackSize ∉ [userSignalWrapperVa, peripheralStart, userSignalStkstartVa] := by
    decide
  unfold IsHome at h
  unfold skipped
  grind

/-- What a copy leaves to be replaced. -/
theorem replaced_adopt (h : IsHome home) (va q : Nat) (p : Process) :
    replaced home (adopt va q p) = if va = home then q else replaced home p := by
  have hne : userStackBase - ustackSize ≠ userKernelBase := by decide
  unfold IsHome at h
  unfold replaced adopt
  grind

section

variable (h : CopiesArea t v q addr a₁ a₂ a₃ k k')

include h

theorem CopiesArea.list : (k'.procs t).vmaList = (k.procs t).vmaList ++ [v.copyTo q addr] := by
  rw [h.eq, setProc_procs, adopt_vmaList]
  rfl

theorem CopiesArea.replaced (hhome : IsHome home) :
    replaced home (k'.procs t) = if v.virtAddr = home then q else replaced home (k.procs t) := by
  rw [h.eq, setProc_procs, replaced_adopt hhome]
  rfl

/-- The memory of an area that the copy replaces is given back. -/
theorem CopiesArea.dangles (hs : k.alloc.Settled) (hr : Replaceable t k) (hq : q ≠ 0) (hv : v.virtAddr = home)
    (hh : HomeHeld home t k) : Dangles t k' := by
  obtain ⟨w, hw, hskip, hmem, hphys⟩ := hh
  have hdead := (h.live hs hr hq).2.2.2
  rw [hv, ← hphys] at hdead
  refine ⟨w, ?_, hskip, ?_, Or.inl hdead⟩
  · rw [h.list]
    exact List.mem_append_left _ hw
  · rw [h.list, areaAddrs, areaBlocks_append, addrs_append]
    exact List.mem_append_left _ hmem

/-- After a copy at `home` an area has what the next copy there replaces. -/
theorem CopiesArea.holds_home (hq : q ≠ 0) (hphys : physToVirt (virtToPhys q) = q) (hhome : IsHome home)
    (hv : v.virtAddr = home ∨ HomeHeld home t k) : HomeHeld home t k' := by
  unfold HomeHeld
  rw [h.list, h.replaced hhome, areaAddrs, areaBlocks_append, addrs_append]
  by_cases hva : v.virtAddr = home
  · rw [if_pos hva]
    refine ⟨v.copyTo q addr, by simp, hhome.not_skipped (v := v.copyTo q addr) hva, ?_, hphys⟩
    simp [Vma.blocks, Vma.copyTo, hphys, ownBlock_of_ne hq]
  · rw [if_neg hva]
    obtain ⟨w, hw, hskip, hmem, hw'⟩ := hv.resolve_left hva
    exact ⟨w, List.mem_append_left _ hw, hskip, List.mem_append_left _ hmem, hw'⟩

end

theorem copyAreas_oom (h : copyAreas t vs k = some ((), k')) (ho : k'.oom = false) : k.oom = false := by
  induction vs generalizing k with
  | nil =>
      unfold copyAreas at h
      obtain ⟨-, rfl⟩ := Prod.mk.inj (pure_some.1 h)
      exact ho
  | cons v vs ih =>
      obtain ⟨k₁, hc, hrun⟩ := copyAreas_cons h
      have ho₁ := ih hrun
      rcases hc with ⟨-, rfl⟩ | ⟨-, q, addr, a₁, a₂, a₃, hc⟩
      · exact ho₁
      · rw [hc.eq, setProc_oom, Bool.or_eq_false_iff] at ho₁
        exact ho₁.1

/-- Of two areas at `home`, the copy of the first loses its memory. -/
theorem copyAreas_dangles (hhome : IsHome home) (hs : k.alloc.Settled) (hr : Replaceable t k)
    (h : copyAreas t vs k = some ((), k')) (ho : k'.oom = false)
    (hd : Dangles t k ∨ (HomeHeld home t k ∧ 1 ≤ vs.countP fun v => v.virtAddr = home) ∨
      2 ≤ vs.countP fun v => v.virtAddr = home) : k'.alloc.Settled ∧ Dangles t k' := by
  induction vs generalizing k with
  | nil =>
      unfold copyAreas at h
      obtain ⟨-, rfl⟩ := Prod.mk.inj (pure_some.1 h)
      exact ⟨hs, by simpa using hd⟩
  | cons v vs ih =>
      obtain ⟨k₁, hc, hrun⟩ := copyAreas_cons h
      rcases hc with ⟨hskip, rfl⟩ | ⟨hskip, q, addr, a₁, a₂, a₃, hc⟩
      · have hva : v.virtAddr ≠ home := fun hva => hhome.not_skipped hva hskip
        rw [List.countP_cons_of_neg (by simpa using hva)] at hd
        exact ih hs hr hrun hd
      · have ho₁ := copyAreas_oom hrun ho
        have hq : q ≠ 0 := by
          rw [hc.eq, setProc_oom, Bool.or_eq_false_iff, beq_eq_false_iff_ne] at ho₁
          exact ho₁.2
        obtain ⟨hs₁, hr₁, hlive, -⟩ := hc.live hs hr hq
        obtain ⟨base, hbase⟩ := replaceable_holds hs hr
        have hphys := (hbase.kmalloc_own hc.block (Nat.zero_le _)).physToVirt_own
        refine ih hs₁ hr₁ hrun ?_
        by_cases hva : v.virtAddr = home
        · rw [List.countP_cons_of_pos (by simpa using hva)] at hd
          rcases hd with hd | ⟨hheld, -⟩ | htwo
          · exact Or.inl (hd.extend hc.list hlive)
          · exact Or.inl (hc.dangles hs hr hq hva hheld)
          · exact Or.inr (Or.inl ⟨hc.holds_home hq hphys hhome (Or.inl hva), by omega⟩)
        · rw [List.countP_cons_of_neg (by simpa using hva)] at hd
          rcases hd with hd | ⟨hheld, hone⟩ | htwo
          · exact Or.inl (hd.extend hc.list hlive)
          · exact Or.inr (Or.inl ⟨hc.holds_home hq hphys hhome (Or.inr hheld), hone⟩)
          · exact Or.inr (Or.inr htwo)

/-! ## `fork` -/

/-- The records of the last areas are the child's. -/
theorem Dangles.fixed (h : Dangles t k) (hs : k.alloc.Settled) (hf : addFixedAreas t k = some ((), k')) :
    Dangles t k' := by
  obtain ⟨r₁, r₂, r₃, a, -, hg, hk⟩ := addFixedAreas_some hf
  obtain ⟨-, rfl⟩ := Prod.mk.inj hk
  refine h.extend (by rw [setProc_procs]; rfl) fun p hp => ?_
  refine (hg.live hs hp).imp_right fun ⟨r, hr, he⟩ => ?_
  have hrecord : r.2 ∈ (fixedAreas k.handlerWrapper (k.procs t).signalSp r₁ r₂ r₃).map Vma.addr := by
    obtain ⟨x, hx, rfl⟩ := List.mem_map.1 hr
    exact hx
  obtain ⟨x, hx, hxr⟩ := List.mem_map.1 hrecord
  exact he ▸ hxr ▸ mem_addrs.2 ⟨vmaBytes, List.mem_flatMap.2 ⟨x, hx, List.mem_cons_self⟩⟩

/-- Copying files writes to no area. -/
theorem copyFiles_same {parent : Nat} {is : List Nat} (h : copyFiles parent t is k = some ((), k')) :
    k'.oom = k.oom ∧ k'.bytes = k.bytes := by
  induction is generalizing k with
  | nil =>
      unfold copyFiles at h
      obtain ⟨-, rfl⟩ := Prod.mk.inj (pure_some.1 h)
      exact ⟨rfl, rfl⟩
  | cons i is ih =>
      obtain ⟨k₁, hc, hrun⟩ := copyFiles_cons h
      obtain ⟨hoom, hbytes⟩ := ih hrun
      rw [hoom, hbytes]
      rcases hc with ⟨-, rfl⟩ | ⟨-, f, k₂, hn, rfl⟩
      · exact ⟨rfl, rfl⟩
      · obtain ⟨a, -, rfl⟩ := hn.some
        exact ⟨rfl, rfl⟩

/-- Before the areas are copied the child has an image and a stack. -/
theorem newChild_replaceable {handlers : Nat → Nat} {start filesize child parent : Nat} {k₁ k₂ : Kernel}
    (hne : parent ≠ child) (hs : k.alloc.Settled) (ho : k₂.oom = false)
    (h₁ : threadCreate start filesize k = some (some child, k₁))
    (h₂ : copyFiles parent child (List.range (maxFd + 1)) (k₁.setProc child (Process.inherit handlers)) =
      some ((), k₂)) : k₂.alloc.Settled ∧ Replaceable child k₂ := by
  obtain ⟨b, hp₁, -, -, hholds⟩ := newChild_holds hne (covers_zero _) hs.holds_nothing h₁ h₂
  have ho₁ : k₁.oom = false := (copyFiles_same h₂).1.symm.trans ho
  have hr₁ := threadCreate_replaceable hs ho₁ h₁
  have hs₁ : k₁.alloc.Settled := by
    obtain ⟨b, -, hnew⟩ := threadCreate_holds (d := 0) (u := 0) (g := 0) hs.holds_nothing h₁ (Nat.zero_le _)
      (Nat.zero_le _) (Nat.zero_le _)
    exact hnew.holds.settled
  obtain ⟨table, hp₂⟩ := copyFiles_child h₂
  rw [setProc_procs] at hp₂
  have hdata : (k₂.procs child).data = (k₁.procs child).data := by rw [hp₂]; rfl
  have huser : (k₂.procs child).userSp = (k₁.procs child).userSp := by rw [hp₂]; rfl
  have hd0 : (k₂.procs child).data ≠ 0 := fun h0 => not_live_null hs₁ (h0 ▸ hdata.symm ▸ hr₁.data)
  have hu0 : (k₂.procs child).userSp ≠ 0 := fun h0 => not_live_null hs₁ (h0 ▸ huser.symm ▸ hr₁.userSp)
  rw [ownBlock_of_ne hd0, ownBlock_of_ne hu0] at hholds
  exact ⟨hholds.settled, replaceable_of_holds hholds⟩

/-- The copy of the first of two images, or stacks, loses its memory. -/
theorem fork_dangles {cpu : ThreadContext} {child : Nat} (hs : k.alloc.Settled)
    (hne : k.sched.currThread ≠ child) (hhome : ¬ SingleHomes (k.procs k.sched.currThread).vmaList)
    (hf : fork cpu k = some (child, k')) (ho : k'.oom = false) : Dangles child k' := by
  obtain ⟨k₁, k₂, k₃, k₄, h₁, h₂, h₃, h₄, -, -, hk'⟩ := fork_some hf
  generalize k.sched.currThread = parent at *
  have ho₄ : k₄.oom = false := by
    rw [hk', setProc_oom, setProc_oom] at ho
    exact ho
  have ho₃ : k₃.oom = false := (addFixedAreas_oom h₄).symm.trans ho₄
  obtain ⟨hs₂, hr₂⟩ := newChild_replaceable hne hs (copyAreas_oom h₃ ho₃) h₁ h₂
  obtain ⟨home, hhome, htwo⟩ : ∃ home, IsHome home ∧
      2 ≤ (k.procs parent).vmaList.countP fun v => v.virtAddr = home := by
    by_cases himage : 2 ≤ (k.procs parent).vmaList.countP fun v => v.virtAddr = userKernelBase
    · exact ⟨_, Or.inl rfl, himage⟩
    · refine ⟨_, Or.inr rfl, ?_⟩
      unfold SingleHomes at hhome
      omega
  obtain ⟨hs₃, hd⟩ := copyAreas_dangles hhome hs₂ hr₂ h₃ ho₃ (Or.inr (Or.inr htwo))
  obtain ⟨v, hv, hskip, hmem, hdead⟩ := hd.fixed hs₃ h₄
  have hlist : (k'.procs child).vmaList = (k₄.procs child).vmaList := by
    rw [hk', setProc_vmaList (Process.resume_vmaList cpu _), setProc_vmaList (Process.save_vmaList cpu)]
  have halloc : k'.alloc = k₄.alloc := by rw [hk', setProc_alloc, setProc_alloc]
  unfold Dangles Live
  rw [hlist, halloc]
  exact ⟨v, hv, hskip, hmem, hdead⟩

end Kernel

end RpiKernel
