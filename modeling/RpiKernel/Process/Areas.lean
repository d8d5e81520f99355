import Mathlib.Data.List.Pairwise
import RpiKernel.Process.Progress

/-!
# RpiKernel.Process.Areas

Where the areas of a thread lie: page aligned, below `2 ^ 48` and apart from
each other (`WellFormed`).  `fork` and the faults keep that; `exec` does as long
as the image ends below the peripherals, and `mmap` as long as there is room
for the new area at or above the address it was asked for.  Neither checks.
-/

namespace RpiKernel

open Custody Sched Runs

/-! ## ranges of addresses -/

/-- A start and a length. -/
abbrev Range := Nat × Nat

/-- Two half-open ranges have no address in common. -/
def Range.Apart (r s : Range) : Prop :=
  ∀ x, ¬ ((r.1 ≤ x ∧ x < r.1 + r.2) ∧ (s.1 ≤ x ∧ x < s.1 + s.2))

theorem Range.Apart.symm {r s : Range} (h : r.Apart s) : s.Apart r := fun x hx => h x hx.symm

theorem Range.apart_of_le {r s : Range} (h : r.1 + r.2 ≤ s.1 ∨ s.1 + s.2 ≤ r.1) : r.Apart s := by
  intro x hx
  omega

/-- Page aligned, in the addresses of users, and apart from each other. -/
structure RangesOk (rs : List Range) : Prop where
  aligned : ∀ r ∈ rs, r.1 % 0x1000 = 0 ∧ r.2 % 0x1000 = 0
  bounded : ∀ r ∈ rs, r.1 + r.2 ≤ 2 ^ 48
  apart : rs.Pairwise Range.Apart

theorem RangesOk.nil : RangesOk [] := ⟨by simp, by simp, .nil⟩

theorem RangesOk.sublist {rs rs' : List Range} (h : RangesOk rs) (hs : rs'.Sublist rs) :
    RangesOk rs' :=
  ⟨fun r hr => h.aligned r (hs.subset hr), fun r hr => h.bounded r (hs.subset hr),
    h.apart.sublist hs⟩

/-- Two lists together. -/
theorem RangesOk.append {rs rs' : List Range} (h : RangesOk rs) (h' : RangesOk rs')
    (hx : ∀ r ∈ rs, ∀ s ∈ rs', r.Apart s) : RangesOk (rs ++ rs') := by
  refine ⟨fun r hr => ?_, fun r hr => ?_, List.pairwise_append.2 ⟨h.apart, h'.apart, hx⟩⟩
  · exact (List.mem_append.1 hr).elim (h.aligned r) (h'.aligned r)
  · exact (List.mem_append.1 hr).elim (h.bounded r) (h'.bounded r)

theorem RangesOk.singleton {r : Range} (ha : r.1 % 0x1000 = 0 ∧ r.2 % 0x1000 = 0)
    (hb : r.1 + r.2 ≤ 2 ^ 48) : RangesOk [r] :=
  ⟨by simpa using ha, by simpa using hb, List.pairwise_singleton _ _⟩

/-! ## the areas of a thread -/

/-- The addresses of an area. -/
def Vma.range (v : Vma) : Range := (v.virtAddr, v.areaSize)

namespace Kernel

/-- The areas of a thread are as they should be. -/
def WellFormed (vs : List Vma) : Prop := RangesOk (vs.map Vma.range)

/-- The areas that every process has besides those of its program. -/
def fixedRanges : List Range :=
  [(peripheralStart, peripheralEnd - peripheralStart), (userSignalWrapperVa, 0x2000),
    (userSignalStkstartVa, frameSize)]

/-- They are there. -/
def HasFixed (vs : List Vma) : Prop := ∀ r ∈ fixedRanges, r ∈ vs.map Vma.range

theorem fixedRanges_ok : RangesOk fixedRanges := by
  unfold fixedRanges peripheralStart peripheralEnd userSignalWrapperVa userSignalStkstartVa frameSize
  refine ⟨by decide, by decide, ?_⟩
  refine .cons (fun s hs => ?_) (.cons (fun s hs => ?_) (List.pairwise_singleton _ _))
  · simp only [List.mem_cons, List.not_mem_nil, or_false] at hs
    rcases hs with rfl | rfl <;> exact Range.apart_of_le (by decide)
  · simp only [List.mem_cons, List.not_mem_nil, or_false] at hs
    rcases hs with rfl
    exact Range.apart_of_le (by decide)

theorem fixedAreas_range (w s a₁ a₂ a₃ : Nat) :
    (fixedAreas w s a₁ a₂ a₃).map Vma.range = fixedRanges := rfl

/-! ## the areas of a program -/

/-- The image and the stack. -/
def imageRanges (datasize : Nat) : List Range :=
  [(userKernelBase, roundPage datasize), (userStackBase - ustackSize, ustackSize)]

theorem imageAreas_range (p : Process) (a₁ a₂ : Nat) :
    (imageAreas p a₁ a₂).map Vma.range = imageRanges p.datasize := rfl

theorem roundPage_le {x y : Nat} (h : x ≤ y) (hy : y % 0x1000 = 0) : roundPage x ≤ y := by
  unfold roundPage
  split
  next hx => exact (Nat.mod_le _ _).trans (by omega)
  next => exact h

theorem le_roundPage {x : Nat} (h : x ≤ 2 ^ 63) : x ≤ roundPage x := by
  unfold roundPage
  split <;> omega

/-- The areas of a program are well formed exactly when its image ends below
the peripherals. -/
theorem programRanges_ok {datasize : Nat} (h32 : datasize < 2 ^ 32) :
    RangesOk (imageRanges datasize ++ fixedRanges) ↔ datasize ≤ peripheralStart := by
  constructor
  case mp =>
    intro h
    by_contra hgt
    have hle := le_roundPage (x := datasize) (by omega)
    have hpw := (List.pairwise_cons.1 h.apart).1 (peripheralStart, peripheralEnd - peripheralStart)
      (by simp [fixedRanges])
    refine hpw peripheralStart ?_
    unfold userKernelBase peripheralStart peripheralEnd at *
    dsimp only
    omega
  case mpr =>
    intro hle
    have hround := roundPage_le hle (by decide)
    have hmod := roundPage_mod datasize
    have himage : RangesOk [(userKernelBase, roundPage datasize)] := by
      refine .singleton ⟨rfl, hmod⟩ ?_
      unfold userKernelBase peripheralStart at *
      dsimp only
      omega
    have hstack : RangesOk [(userStackBase - ustackSize, ustackSize)] :=
      .singleton (by decide) (by decide)
    have himg : RangesOk (imageRanges datasize) := by
      refine himage.append hstack fun r hr s hs => ?_
      rw [List.mem_singleton.1 hr, List.mem_singleton.1 hs]
      refine Range.apart_of_le (Or.inl ?_)
      unfold userKernelBase userStackBase ustackSize peripheralStart at *
      dsimp only
      omega
    refine himg.append fixedRanges_ok fun r hr s hs => ?_
    unfold imageRanges at hr
    unfold fixedRanges at hs
    unfold userKernelBase userStackBase ustackSize at hr
    unfold peripheralStart peripheralEnd userSignalWrapperVa userSignalStkstartVa frameSize at hs
    unfold peripheralStart at hround
    simp only [List.mem_cons, List.not_mem_nil, or_false] at hr hs
    rcases hr with rfl | rfl <;> rcases hs with rfl | rfl | rfl <;>
      exact Range.apart_of_le (by dsimp only; omega)

/-! ## first fit -/

section

variable {vs : List Vma} {addr len r b : Nat}

/-- There is room for `len` bytes at or above `addr`, both rounded up. -/
def HasRoom (vs : List Vma) (addr len : Nat) : Prop :=
  ∃ b, roundPage addr ≤ b ∧ b + roundPage len ≤ 2 ^ 48 ∧
    ∀ v ∈ vs, b + roundPage len ≤ v.virtAddr ∨ v.virtAddr + v.areaSize ≤ b

theorem WellFormed.fin (h : WellFormed vs) {v : Vma} (hv : v ∈ vs) :
    v.virtAddr + v.areaSize ≤ 2 ^ 48 ∧ (v.virtAddr + v.areaSize) % 0x1000 = 0 := by
  have hm := List.mem_map_of_mem (f := Vma.range) hv
  have hal := h.aligned _ hm
  have hbd := h.bounded _ hm
  dsimp only [Vma.range] at hal hbd
  omega

/-- The search goes on behind the area that is in the way. -/
theorem WellFormed.restart (h : WellFormed vs) {v : Vma} (hv : v ∈ vs)
    (ho : overlaps (roundPage addr) len v) :
    roundPage addr < v.virtAddr + v.areaSize ∧
      roundPage ((v.virtAddr + v.areaSize) % 2 ^ 64) = v.virtAddr + v.areaSize := by
  obtain ⟨hb, ha⟩ := h.fin hv
  have hmod : (v.virtAddr + v.areaSize) % 2 ^ 64 = v.virtAddr + v.areaSize := by omega
  unfold overlaps at ho
  rw [hmod] at ho ⊢
  rw [roundPage_of_mod ha]
  exact ⟨by omega, rfl⟩

theorem Places.free (h : Places vs len addr r) : r % 0x1000 = 0 ∧ ∀ v ∈ vs, ¬ overlaps r len v := by
  induction h with
  | here addr hno => exact ⟨roundPage_mod addr, hno⟩
  | next addr _ _ _ ih => exact ih

/-- The search only goes up. -/
theorem Places.ge (h : Places vs len addr r) (hw : WellFormed vs) : roundPage addr ≤ r := by
  induction h with
  | here addr _ => exact Nat.le_refl _
  | next addr hv ho _ ih =>
      obtain ⟨hlt, he⟩ := hw.restart hv ho
      omega

/-- It does not pass a place that is large enough. -/
theorem Places.le (h : Places vs len addr r) (hw : WellFormed vs) (hb : roundPage addr ≤ b)
    (hlen : b + len ≤ 2 ^ 48)
    (hfree : ∀ v ∈ vs, b + len ≤ v.virtAddr ∨ v.virtAddr + v.areaSize ≤ b) : r ≤ b := by
  induction h with
  | here addr _ => exact hb
  | @next addr v r hv ho _ ih =>
      obtain ⟨hlt, he⟩ := hw.restart hv ho
      refine ih ?_
      rw [he]
      refine (hfree v hv).resolve_left fun hle => ho (Or.inl ?_)
      omega

/-- A new area is well placed exactly when there is room for it. -/
theorem Places.ok_iff (h : Places vs (roundPage len) addr r) (hw : WellFormed vs) :
    RangesOk (vs.map Vma.range ++ [(r, roundPage len)]) ↔ HasRoom vs addr len := by
  obtain ⟨hal, hno⟩ := h.free
  constructor
  case mp =>
    intro hok
    have hbd := hok.bounded (r, roundPage len) (by simp)
    dsimp only at hbd
    refine ⟨r, h.ge hw, hbd, fun v hv => ?_⟩
    have hv' := hno v hv
    have hfin := (hw.fin hv).1
    unfold overlaps at hv'
    omega
  case mpr =>
    intro ⟨b, hb, hlen, hfree⟩
    have hle := h.le hw hb hlen hfree
    have hnew : RangesOk [(r, roundPage len)] :=
      .singleton ⟨hal, roundPage_mod len⟩ (by dsimp only; omega)
    refine RangesOk.append hw hnew fun s hs q hq => ?_
    obtain ⟨v, hv, rfl⟩ := List.mem_map.1 hs
    rw [List.mem_singleton.1 hq]
    refine Range.apart_of_le ?_
    have hv' := hno v hv
    have hfin := (hw.fin hv).1
    unfold overlaps at hv'
    dsimp only [Vma.range]
    omega

end

/-! ## the areas of a child -/

/-- The child gets a copy of every area that is not skipped. -/
theorem copyAreas_list {k k' : Kernel} {child : Nat} {vs : List Vma}
    (h : copyAreas child vs k = some ((), k')) :
    ∃ cs, (k'.procs child).vmaList = (k.procs child).vmaList ++ cs ∧
      List.Forall₂ (fun v c => ∃ p addr, c = Vma.copyTo p addr v) (vs.filter fun v => ¬ skipped v) cs := by
  induction vs generalizing k with
  | nil =>
      unfold copyAreas at h
      obtain ⟨-, rfl⟩ := Prod.mk.inj (pure_some.1 h)
      exact ⟨[], by simp, .nil⟩
  | cons v vs ih =>
      obtain ⟨k₁, hc, h⟩ := copyAreas_cons h
      obtain ⟨cs, hcs, hcopies⟩ := ih h
      rcases hc with ⟨hs, rfl⟩ | ⟨hs, q, addr, a₁, a₂, a₃, hc⟩
      · exact ⟨cs, hcs, by simpa [hs] using hcopies⟩
      · have hvs : (k₁.procs child).vmaList = (k.procs child).vmaList ++ [v.copyTo q addr] := by
          rw [hc.eq, setProc_procs]
          unfold adopt
          split
          · rfl
          · split <;> rfl
        refine ⟨v.copyTo q addr :: cs, by rw [hcs, hvs]; simp, ?_⟩
        rw [List.filter_cons_of_pos (by simpa using hs)]
        exact .cons ⟨q, addr, rfl⟩ hcopies

/-- Every copy is one of an area. -/
theorem forall₂_right {α β : Type} {R : α → β → Prop} {xs : List α} {ys : List β} (h : List.Forall₂ R xs ys) :
    ∀ y ∈ ys, ∃ x ∈ xs, R x y := by
  induction h with
  | nil => simp
  | cons hr _ ih =>
      refine List.forall_mem_cons.2 ⟨⟨_, List.mem_cons_self, hr⟩, fun y hy => ?_⟩
      obtain ⟨x, hx, hxy⟩ := ih y hy
      exact ⟨x, List.mem_cons_of_mem _ hx, hxy⟩

/-- The copies lie where the areas lay. -/
theorem copies_range {vs cs : List Vma} (h : List.Forall₂ (fun v c => ∃ p addr, c = Vma.copyTo p addr v) vs cs) :
    cs.map Vma.range = vs.map fun v => (v.virtAddr, roundPage v.areaSize) := by
  induction h with
  | nil => rfl
  | cons hc _ ih =>
      obtain ⟨p, addr, rfl⟩ := hc
      rw [List.map_cons, List.map_cons, ih]
      rfl

/-- A child has the areas of its parent. -/
theorem WellFormed.child {vs : List Vma} (h : WellFormed vs) (hf : HasFixed vs) :
    RangesOk (((vs.filter fun v => ¬ skipped v).map fun v => (v.virtAddr, roundPage v.areaSize)) ++
      fixedRanges) := by
  have hround : ((vs.filter fun v => ¬ skipped v).map fun v => (v.virtAddr, roundPage v.areaSize)) =
      (vs.filter fun v => ¬ skipped v).map Vma.range := by
    refine List.map_congr_left fun v hv => ?_
    have hal := h.aligned _ (List.mem_map_of_mem (List.mem_of_mem_filter hv))
    unfold Vma.range at hal ⊢
    rw [roundPage_of_mod hal.2]
  rw [hround]
  have hsub : RangesOk ((vs.filter fun v => ¬ skipped v).map Vma.range) :=
    RangesOk.sublist h (List.filter_sublist.map _)
  refine hsub.append fixedRanges_ok fun r hr s hs => ?_
  obtain ⟨v, hv, rfl⟩ := List.mem_map.1 hr
  obtain ⟨w, hw, rfl⟩ := List.mem_map.1 (hf s hs)
  have hv' := List.mem_filter.1 hv
  have hskip : skipped w := by
    unfold fixedRanges Vma.range at hs
    unfold skipped
    simp only [List.mem_cons, Prod.mk.injEq, List.not_mem_nil, or_false] at hs
    tauto
  have hne : v ≠ w := fun he => by simp [he, hskip] at hv'
  have hpw := List.pairwise_map.1 h.apart
  have hsymm : Std.Symm fun v w : Vma => v.range.Apart w.range := ⟨fun _ _ hxy => hxy.symm⟩
  exact hpw.forall hv'.1 hw hne

end Kernel

/-! ## steps -/

/-- The condition on a step: the image of a new program ends below the
peripherals, and a new area finds room. -/
def KernelAct.PlacesWell (k : Kernel) : KernelAct → Prop
  | .exec (some f) => Kernel.getsize f % 2 ^ 32 ≤ peripheralStart
  | .mmap addr len _ => Kernel.HasRoom (k.procs k.sched.currThread).vmaList addr len
  | _ => True

/-- The steps that add areas to a thread, or take them away. -/
def KernelAct.MovesAreas : KernelAct → Prop
  | .fork _ | .exec _ | .mmap _ _ _ | .killZombies => True
  | _ => False

namespace Kernel

/-- The areas of every thread are well formed, and every thread but idle has
the fixed ones. -/
structure AreasOk (k : Kernel) : Prop where
  sched : Scheduled k.sched
  wellFormed : ∀ t, WellFormed (k.procs t).vmaList
  fixed : ∀ t, t ≠ 0 → k.sched.status t ≠ .free → HasFixed (k.procs t).vmaList

/-- What a step leaves of the areas. -/
structure AreasStep (k k' : Kernel) (good : Prop) : Prop where
  fixed : ∀ t, t ≠ 0 → k'.sched.status t ≠ .free → HasFixed (k'.procs t).vmaList
  iff : (∀ t, WellFormed (k'.procs t).vmaList) ↔ good

variable {k k' : Kernel} {t n : Nat}

/-- A step that changes no area; a slot that is free now may have lost its own. -/
theorem AreasOk.same (h : AreasOk k)
    (hs : ∀ t, (k'.procs t).vmaList = (k.procs t).vmaList ∧
        (k'.sched.status t = .free ↔ k.sched.status t = .free) ∨
      (k'.procs t).vmaList = [] ∧ k'.sched.status t = .free) : AreasStep k k' True := by
  refine ⟨fun t h0 ht => ?_, iff_of_true (fun t => ?_) trivial⟩
  · rcases hs t with ⟨hv, hst⟩ | ⟨-, hf⟩
    · exact hv ▸ h.fixed t h0 (mt hst.2 ht)
    · exact absurd hf ht
  · rcases hs t with ⟨hv, -⟩ | ⟨hv, -⟩
    · exact hv ▸ h.wellFormed t
    · exact hv ▸ RangesOk.nil

/-- A step that changes the areas of one thread. -/
theorem AreasOk.one (h : AreasOk k) {good : Prop}
    (hother : ∀ u, u ≠ t → (k'.procs u).vmaList = (k.procs u).vmaList ∧
      (k'.sched.status u = .free ↔ k.sched.status u = .free))
    (hfix : HasFixed (k'.procs t).vmaList) (hiff : WellFormed (k'.procs t).vmaList ↔ good) :
    AreasStep k k' good := by
  refine ⟨fun u h0 hu => ?_, ⟨fun hall => hiff.1 (hall t), fun hg u => ?_⟩⟩
  · by_cases hut : u = t
    · exact hut ▸ hfix
    · exact (hother u hut).1 ▸ h.fixed u h0 (mt (hother u hut).2.2 hu)
  · by_cases hut : u = t
    · exact hut ▸ hiff.2 hg
    · exact (hother u hut).1 ▸ h.wellFormed u

theorem HasFixed.of_append {vs vs' : List Vma} (h : vs'.map Vma.range = fixedRanges) :
    HasFixed (vs ++ vs') := by
  intro r hr
  rw [List.map_append, h]
  exact List.mem_append_right _ hr

theorem HasFixed.append {vs : List Vma} (h : HasFixed vs) (vs' : List Vma) : HasFixed (vs ++ vs') := by
  intro r hr
  rw [List.map_append]
  exact List.mem_append_left _ (h r hr)

/-! Changes of a thread that leave its areas alone. -/

theorem Process.setFile_vmaList (i f : Nat) (p : Process) : (p.setFile i f).vmaList = p.vmaList := rfl

theorem Process.chdir_vmaList (cwd : List Char) (p : Process) :
    ({ p with currWorkingDir := cwd } : Process).vmaList = p.vmaList := rfl

theorem Process.resume_vmaList (cpu : ThreadContext) (kernelSp : Nat) (p : Process) :
    (p.resume cpu kernelSp).vmaList = p.vmaList := rfl

theorem Process.save_vmaList (cpu : ThreadContext) (p : Process) :
    (p.save cpu).vmaList = p.vmaList := rfl

/-- A change of a thread that keeps a field keeps it for all threads. -/
theorem setProc_field {α : Type} {g : Process → α} {f : Process → Process} (hf : ∀ p, g (f p) = g p) (u : Nat) :
    g ((k.setProc t f).procs u) = g (k.procs u) := by
  by_cases hu : u = t
  · subst hu
    rw [setProc_procs, hf]
  · rw [setProc_procs_other _ hu]

theorem setProc_vmaList {f : Process → Process} (hf : ∀ p, (f p).vmaList = p.vmaList) (u : Nat) :
    ((k.setProc t f).procs u).vmaList = (k.procs u).vmaList :=
  setProc_field hf u

/-- The areas of a child after `fork`. -/
theorem fork_list {cpu : ThreadContext} {child : Nat} (h : fork cpu k = some (child, k')) :
    (∀ u, u ≠ child → (k'.procs u).vmaList = (k.procs u).vmaList) ∧
      ∃ cs w s a₁ a₂ a₃, (k'.procs child).vmaList = cs ++ fixedAreas w s a₁ a₂ a₃ ∧
        List.Forall₂ (fun v c => ∃ p addr, c = Vma.copyTo p addr v)
          ((k.procs k.sched.currThread).vmaList.filter fun v => ¬ skipped v) cs := by
  obtain ⟨k₁, k₂, k₃, k₄, h₁, h₂, h₃, h₄, -, -, rfl⟩ := fork_some h
  obtain ⟨s, b, a, -, -, -, rfl⟩ := threadCreate_some h₁
  have hf := ((copyFiles_frame h₂).trans (copyAreas_frame h₃)).trans (addFixedAreas_frame h₄)
  obtain ⟨cs, hcs, hcopies⟩ := copyAreas_list h₃
  obtain ⟨table, htable⟩ := copyFiles_child h₂
  obtain ⟨a₁, a₂, a₃, a', -, -, hr⟩ := addFixedAreas_some h₄
  obtain ⟨-, rfl⟩ := Prod.mk.inj hr
  constructor
  · intro u hu
    rw [setProc_vmaList (Process.resume_vmaList cpu _), setProc_vmaList (Process.save_vmaList cpu)]
    dsimp only
    rw [hf.other u hu, setProc_procs_other _ hu, setProc_procs_other _ hu]
    rfl
  · refine ⟨cs, k₃.handlerWrapper, (k₃.procs child).signalSp, a₁, a₂, a₃, ?_, hcopies⟩
    rw [setProc_vmaList (Process.resume_vmaList cpu _), setProc_vmaList (Process.save_vmaList cpu)]
    dsimp only
    rw [setProc_procs, Process.addAreas, hcs, htable, setProc_procs, setProc_procs]
    rfl

/-- Where they lie. -/
theorem fork_areas {cpu : ThreadContext} {child : Nat} (h : fork cpu k = some (child, k')) :
    (∀ u, u ≠ child → (k'.procs u).vmaList = (k.procs u).vmaList) ∧
      ∃ cs fs, (k'.procs child).vmaList = cs ++ fs ∧ fs.map Vma.range = fixedRanges ∧
        cs.map Vma.range = ((k.procs k.sched.currThread).vmaList.filter fun v => ¬ skipped v).map
          fun v => (v.virtAddr, roundPage v.areaSize) := by
  obtain ⟨hother, cs, w, s, a₁, a₂, a₃, hlist, hcopies⟩ := fork_list h
  exact ⟨hother, cs, _, hlist, fixedAreas_range w s a₁ a₂ a₃, copies_range hcopies⟩

/-- The areas of a program after `exec`. -/
theorem exec_areas {f : ExecFile} (h : exec (some f) k = some ((), k')) :
    (∀ u, u ≠ k.sched.currThread → (k'.procs u).vmaList = (k.procs u).vmaList) ∧
      ∃ is fs, (k'.procs k.sched.currThread).vmaList = is ++ fs ∧ fs.map Vma.range = fixedRanges ∧
        is.map Vma.range = imageRanges (getsize f % 2 ^ 32) := by
  obtain ⟨hother, data, userSp, signalSp, a₁, a₂, a₃, a₄, a₅, hp⟩ := exec_procs h
  refine ⟨fun u hu => by rw [hother u hu], _, _, ?_, fixedAreas_range k.handlerWrapper signalSp a₃ a₄ a₅,
    imageAreas_range ((k.procs k.sched.currThread).load (getsize f % 2 ^ 32) data userSp signalSp) a₁ a₂⟩
  rw [hp]
  rfl

/-- Every other step but `chdir` changes at most a file. -/
theorem kernelStep_procs {a : KernelAct} (hs : kernelStep k (n, a) = some k') (ha : ¬ a.MovesAreas)
    (hc : ∀ path, a ≠ .chdir path) (t : Nat) :
    k'.procs t = k.procs t ∨ ∃ i f, k'.procs t = (k.procs t).setFile i f := by
  have hset : ∀ (k₁ : Kernel) (u i f : Nat), k₁.procs = k.procs →
      (k₁.setProc u (Process.setFile i f)).procs t = k.procs t ∨
        ∃ j g, (k₁.setProc u (Process.setFile i f)).procs t = (k.procs t).setFile j g := by
    intro k₁ u i f hk
    by_cases ht : t = u
    · subst ht
      exact Or.inr ⟨i, f, by rw [setProc_procs, hk]⟩
    · exact Or.inl (by rw [setProc_procs_other _ ht, hk])
  obtain ⟨-, hp⟩ := kernelStep_some hs
  cases a with
  | fork cpu => exact absurd trivial ha
  | exec file => exact absurd trivial ha
  | mmap addr len prot => exact absurd trivial ha
  | killZombies => exact absurd trivial ha
  | chdir path => exact absurd rfl (hc path)
  | openFile target flags =>
      obtain ⟨⟨r, k'⟩, hf, rfl⟩ := Option.map_eq_some_iff.1 hp
      rcases openFile_some hf with rfl | ⟨i, -, -, node, k₁, hcr, f, k₂, hn, rfl⟩
      · exact Or.inl rfl
      · exact hset k₂ k.sched.currThread i f (hn.procs.trans hcr.procs)
  | close fd =>
      obtain ⟨⟨r, k'⟩, hf, rfl⟩ := Option.map_eq_some_iff.1 hp
      obtain ⟨-, -, ⟨-, rfl⟩ | ⟨-, a, -, rfl⟩⟩ := close_some hf
      · exact Or.inl rfl
      · exact hset { k with alloc := a } k.sched.currThread fd.toNat 0 rfl
  | fault far iss =>
      obtain ⟨⟨_, k'⟩, hf, rfl⟩ := Option.map_eq_some_iff.1 hp
      rw [fault_procs hf]
      exact Or.inl rfl
  | exit =>
      simp only [KernelAct.perform] at hp
      obtain ⟨⟨_, k'⟩, hf, rfl⟩ := Option.map_eq_some_iff.1 hp
      rw [onSched_procs hf]
      exact Or.inl rfl
  | kill pid =>
      obtain ⟨⟨_, k'⟩, hf, rfl⟩ := Option.map_eq_some_iff.1 hp
      rw [onSched_procs hf]
      exact Or.inl rfl
  | signalDefault =>
      obtain ⟨⟨_, k'⟩, hf, rfl⟩ := Option.map_eq_some_iff.1 hp
      rw [onSched_procs hf]
      exact Or.inl rfl
  | schedule =>
      obtain ⟨⟨_, k'⟩, hf, rfl⟩ := Option.map_eq_some_iff.1 hp
      rw [onSched_procs hf]
      exact Or.inl rfl
  | take size =>
      obtain ⟨⟨_, k'⟩, hf, rfl⟩ := Option.map_eq_some_iff.1 hp
      obtain ⟨-, p, a, -, rfl⟩ := take_some hf
      exact Or.inl rfl
  | give ptr size =>
      obtain ⟨⟨_, k'⟩, hf, rfl⟩ := Option.map_eq_some_iff.1 hp
      obtain ⟨-, a, -, rfl⟩ := give_some hf
      exact Or.inl rfl

/-- Every other step leaves the areas alone. -/
theorem kernelStep_vmaList {a : KernelAct} (hs : kernelStep k (n, a) = some k')
    (ha : ¬ a.MovesAreas) (t : Nat) : (k'.procs t).vmaList = (k.procs t).vmaList := by
  by_cases hc : ∃ path, a = .chdir path
  · obtain ⟨path, rfl⟩ := hc
    obtain ⟨⟨_, k'⟩, hf, rfl⟩ := Option.map_eq_some_iff.1 (kernelStep_some hs).2
    obtain ⟨cwd, rfl⟩ := chdir_some hf
    exact setProc_vmaList (Process.chdir_vmaList cwd) t
  · rcases kernelStep_procs hs ha (fun path he => hc ⟨path, he⟩) t with he | ⟨i, f, he⟩
    · rw [he]
    · rw [he, Process.setFile_vmaList]

/-- A property that every area has that the kernel makes. -/
structure MadeAreas (P : Vma → Prop) : Prop where
  image : ∀ p a₁ a₂, ∀ v ∈ imageAreas p a₁ a₂, P v
  fixed : ∀ w s a₁ a₂ a₃, ∀ v ∈ fixedAreas w s a₁ a₂ a₃, P v
  copy : ∀ v p addr, P v → P (v.copyTo p addr)
  mapped : ∀ addr r len prot ptr, r % 0x1000 = 0 → P (mapArea addr r (roundPage len) prot ptr)

/-- A step keeps it of all areas. -/
theorem MadeAreas.next {P : Vma → Prop} {a : KernelAct} (hP : MadeAreas P)
    (h : ∀ t, ∀ v ∈ (k.procs t).vmaList, P v) (hs : kernelStep k (n, a) = some k') :
    ∀ t, ∀ v ∈ (k'.procs t).vmaList, P v := by
  obtain ⟨-, hp⟩ := kernelStep_some hs
  by_cases hq : a.MovesAreas
  case neg => exact fun t => by rw [kernelStep_vmaList hs hq]; exact h t
  intro t
  cases a with
  | fork cpu =>
      obtain ⟨⟨child, k'⟩, hf, rfl⟩ := Option.map_eq_some_iff.1 hp
      obtain ⟨hother, cs, w, s, a₁, a₂, a₃, hlist, hcopies⟩ := fork_list hf
      by_cases ht : t = child
      · rw [ht, hlist]
        intro v hv
        cases List.mem_append.1 hv with
        | inl hv =>
            obtain ⟨v, hm, p, addr, rfl⟩ := forall₂_right hcopies _ hv
            exact hP.copy v p addr (h _ v (List.mem_of_mem_filter hm))
        | inr hv => exact hP.fixed _ _ _ _ _ v hv
      · rw [hother t ht]
        exact h t
  | exec file =>
      obtain ⟨⟨_, k'⟩, hf, rfl⟩ := Option.map_eq_some_iff.1 hp
      cases file with
      | none =>
          obtain ⟨f, k₁, dropped, data, userSp, signalSp, a, m, k₃, k₄, handle, k₅, mem, a', he, -⟩ :=
            exec_some hf
          cases he
      | some f =>
          obtain ⟨hother, data, userSp, signalSp, a₁, a₂, a₃, a₄, a₅, hload⟩ := exec_procs hf
          by_cases ht : t = k.sched.currThread
          · rw [ht, hload]
            intro v hv
            simp only [Process.inherit, Process.addAreas, Process.noAreas, Process.load, List.nil_append,
              List.mem_append] at hv
            cases hv with
            | inl hv => exact hP.image _ _ _ v hv
            | inr hv => exact hP.fixed _ _ _ _ _ v hv
          · rw [hother t ht]
            exact h t
  | mmap addr len prot =>
      obtain ⟨⟨r, k'⟩, hf, rfl⟩ := Option.map_eq_some_iff.1 hp
      obtain ⟨hpl, ptr, a₁, rec, a₂, mem, -, -, -, -, rfl⟩ := mmap_some hf
      by_cases ht : t = k.sched.currThread
      · rw [ht, setProc_procs]
        intro v hv
        cases List.mem_append.1 hv with
        | inl hv => exact h _ v hv
        | inr hv =>
            rw [List.mem_singleton.1 hv]
            exact hP.mapped _ _ _ _ _ hpl.free.1
      · rw [setProc_procs_other _ ht]
        exact h t
  | killZombies =>
      obtain ⟨⟨_, k'⟩, hf, rfl⟩ := Option.map_eq_some_iff.1 hp
      have hk : killZombiesLoop n k.sched.rqHead k = some ((), k') := hf
      rcases (killZombiesLoop_some hk).2.2.2.2 t with ⟨hpr, -⟩ | ⟨hpr, -⟩
      · rw [hpr]
        exact h t
      · rw [hpr]
        exact fun v hv => absurd hv List.not_mem_nil
  | _ => exact absurd hq id

/-- A step that changes no area. -/
theorem AreasOk.quiet {a : KernelAct} (h : AreasOk k) (hs : kernelStep k (n, a) = some k')
    (ha : ¬ a.MovesAreas) : AreasStep k k' True := by
  have hf : ∀ cpu, a ≠ .fork cpu := fun cpu he => ha (he ▸ trivial)
  have hz : a ≠ .killZombies := fun he => ha (he ▸ trivial)
  exact h.same fun t => Or.inl ⟨kernelStep_vmaList hs ha t, kernelStep_free hs h.sched hf hz t⟩

/-- What a step does to the areas. -/
theorem AreasOk.step {a : KernelAct} (h : AreasOk k) (hs : kernelStep k (n, a) = some k') :
    AreasStep k k' (a.PlacesWell k) := by
  obtain ⟨hen, hp⟩ := kernelStep_some hs
  cases a with
  | fork cpu =>
      obtain ⟨⟨child, k'⟩, hf, rfl⟩ := Option.map_eq_some_iff.1 hp
      obtain ⟨hother, cs, fs, heq, hfs, hcs⟩ := fork_areas hf
      obtain ⟨hfree, -, hst⟩ := threadCreate_spec (fork_sched hf)
      refine h.one (fun u hu => ⟨hother u hu, ?_⟩) (heq ▸ HasFixed.of_append hfs) (iff_of_true ?_ trivial)
      · rw [hst]
        simp [hu]
      · unfold WellFormed
        rw [heq, List.map_append, hcs, hfs]
        exact (h.wellFormed _).child (h.fixed _ hen h.sched.curr)
  | exec file =>
      obtain ⟨⟨_, k'⟩, hf, rfl⟩ := Option.map_eq_some_iff.1 hp
      cases file with
      | none =>
          obtain ⟨f, k₁, dropped, data, userSp, signalSp, a, m, k₃, k₄, handle, k₅, mem, a', he, -⟩ :=
            exec_some hf
          cases he
      | some f =>
          obtain ⟨hother, is, fs, heq, hfs, his⟩ := exec_areas hf
          have hsched : k'.sched = k.sched := exec_sched hf
          refine h.one (fun u hu => ⟨hother u hu, by rw [hsched]⟩) (heq ▸ HasFixed.of_append hfs) ?_
          unfold WellFormed
          rw [heq, List.map_append, his, hfs]
          exact programRanges_ok (Nat.mod_lt _ (by decide))
  | mmap addr len prot =>
      obtain ⟨⟨r, k'⟩, hf, rfl⟩ := Option.map_eq_some_iff.1 hp
      obtain ⟨hpl, ptr, a₁, rec, a₂, mem, -, -, -, -, rfl⟩ := mmap_some hf
      refine h.one (t := k.sched.currThread) (fun u hu => ⟨?_, Iff.rfl⟩) ?_ ?_
      · rw [setProc_procs_other _ hu]
      · rw [setProc_procs]
        exact (h.fixed _ hen h.sched.curr).append _
      · rw [setProc_procs]
        unfold WellFormed
        simp only [Process.addAreas, List.map_append]
        exact hpl.ok_iff (h.wellFormed _)
  | killZombies =>
      obtain ⟨⟨_, k'⟩, hf, rfl⟩ := Option.map_eq_some_iff.1 hp
      have hk : killZombiesLoop n k.sched.rqHead k = some ((), k') := hf
      refine h.same fun t => ?_
      rcases (killZombiesLoop_some hk).2.2.2.2 t with ⟨hpr, hst⟩ | ⟨hpr, hst⟩
      · exact Or.inl ⟨by rw [hpr], by rw [hst]⟩
      · exact Or.inr ⟨by rw [hpr]; rfl, hst⟩
  | openFile target flags => exact h.quiet hs id
  | close fd => exact h.quiet hs id
  | chdir path => exact h.quiet hs id
  | fault far iss => exact h.quiet hs id
  | exit => exact h.quiet hs id
  | kill pid => exact h.quiet hs id
  | signalDefault => exact h.quiet hs id
  | schedule => exact h.quiet hs id
  | take size => exact h.quiet hs id
  | give ptr size => exact h.quiet hs id

theorem AreasOk.next {a : KernelAct} (h : AreasOk k) (hs : kernelStep k (n, a) = some k')
    (hg : a.PlacesWell k) : AreasOk k' :=
  ⟨kernelStep_scheduled h.sched hs, (h.step hs).iff.2 hg, (h.step hs).fixed⟩

/-! ## runs -/

variable {k₀ : Kernel} {data filesize : Nat} {uart : VnodeRef}

/-- The areas of the first program. -/
theorem Booted.ranges (h : k₀.Booted data filesize uart) :
    (k₀.procs k₀.sched.currThread).vmaList.map Vma.range = imageRanges filesize ++ fixedRanges := by
  obtain ⟨k, hk, hx⟩ := h
  obtain ⟨hother, a₁, a₂, a₃, a₄, a₅, signalSp, p, hp, hcurr⟩ := threadExec_procs hx
  rw [hcurr, List.map_append, imageAreas_range, fixedAreas_range, hp]

theorem Booted.areas_other (h : k₀.Booted data filesize uart) (hu : t ≠ k₀.sched.currThread) :
    (k₀.procs t).vmaList = [] := by
  obtain ⟨k, hk, hx⟩ := h
  obtain ⟨hother, -⟩ := threadExec_procs hx
  rw [hother t hu, hk.areas t]

/-- What holds of all areas that the kernel makes holds after booting, and then in every state of a
run. -/
theorem MadeAreas.booted {P : Vma → Prop} (hP : MadeAreas P) (h : k₀.Booted data filesize uart) :
    ∀ t, ∀ v ∈ (k₀.procs t).vmaList, P v := by
  intro t v hv
  by_cases ht : t = k₀.sched.currThread
  · obtain ⟨k, hk, hx⟩ := h
    obtain ⟨-, a₁, a₂, a₃, a₄, a₅, signalSp, p, -, hcurr⟩ := threadExec_procs hx
    rw [ht, hcurr] at hv
    cases List.mem_append.1 hv with
    | inl hv => exact hP.image _ _ _ v hv
    | inr hv => exact hP.fixed _ _ _ _ _ v hv
  · rw [h.areas_other ht] at hv
    cases hv

theorem MadeAreas.reach {P : Vma → Prop} {good : Kernel → Nat × KernelAct → Prop} (hP : MadeAreas P)
    (h : k₀.Booted data filesize uart) (hr : Reach kernelStep good k₀ k) : ∀ t, ∀ v ∈ (k.procs t).vmaList, P v :=
  hr.inv (I := fun k => ∀ t, ∀ v ∈ (k.procs t).vmaList, P v) (hP.booted h) fun _ _ _ hI _ hs => hP.next hI hs

/-- After booting one thread has areas, those of its program. -/
theorem Booted.areas (h : k₀.Booted data filesize uart) (h32 : filesize < 2 ^ 32) :
    AreasStep k₀ k₀ (filesize ≤ peripheralStart) := by
  have hsched := h.sched
  have hranges := h.ranges
  have hc := h.curr
  refine ⟨fun t h0 ht => ?_, fun hall => ?_, fun hg t => ?_⟩
  · -- only idle and the program are alive
    have ht1 : t = k₀.sched.currThread := by
      by_contra hne
      exact ht (hsched ▸ schedBoot_free h0 (hc ▸ hne))
    intro r hr
    rw [ht1, hranges]
    exact List.mem_append_right _ hr
  · have hok := hall k₀.sched.currThread
    unfold WellFormed at hok
    rw [hranges] at hok
    exact (programRanges_ok h32).1 hok
  · by_cases ht : t = k₀.sched.currThread
    · unfold WellFormed
      rw [ht, hranges]
      exact (programRanges_ok h32).2 hg
    · rw [h.areas_other ht]
      exact RangesOk.nil

theorem Booted.areasOk (h : k₀.Booted data filesize uart) (h32 : filesize < 2 ^ 32)
    (hg : filesize ≤ peripheralStart) : AreasOk k₀ :=
  ⟨h.scheduled, (h.areas h32).iff.2 hg, (h.areas h32).fixed⟩

/-- The first program asks for a page at `2 ^ 48`, and gets it. -/
theorem kernelRun_areas_mmap : ∃ k₀ k' : Kernel, k₀.Booted 0 1 ⟨0, .uart⟩ ∧
    kernelStep k₀ (1, .mmap (2 ^ 48) 0x1000 3) = some k' ∧
    ¬ ∀ t, WellFormed (k'.procs t).vmaList := by
  obtain ⟨k₀, hb, hroom, -⟩ := smallBooted ⟨0, .uart⟩ (by decide : 1 ≤ 0x4000)
  have hok := hb.areasOk (by decide) (by decide)
  have hu := hb.curr_ne
  have haddr : roundPage (2 ^ 48) = 2 ^ 48 := roundPage_of_mod (by decide)
  have hfree : ∀ v ∈ (k₀.procs k₀.sched.currThread).vmaList,
      ¬ overlaps (roundPage (2 ^ 48)) (roundPage 0x1000) v := fun v hv ho => by
    have hfin := ((hok.wellFormed _).fin hv).1
    have hlt := ((hok.wellFormed _).restart hv ho).1
    omega
  have hroom' : k₀.alloc.Room (0x2ffe + 2) := hroom
  obtain ⟨r, k', hm, -, -, -⟩ := mmap_returns 3 0 hroom' (by decide) hfree
  have hs : kernelStep k₀ (1, .mmap (2 ^ 48) 0x1000 3) = some k' :=
    kernelStep_of hu (congrArg (Option.map Prod.snd) hm)
  refine ⟨k₀, k', hb, hs, fun hall => ?_⟩
  obtain ⟨b, hlo, hhi, -⟩ := (hok.step hs).iff.1 hall
  have hlen : roundPage 0x1000 = 0x1000 := roundPage_of_mod (by decide)
  omega

end Kernel

end RpiKernel
