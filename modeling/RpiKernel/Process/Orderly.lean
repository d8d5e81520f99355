import RpiKernel.Process.Handles

/-!
# RpiKernel.Process.Orderly

What the kernel keeps in every run whose steps are in order: each handle of a table has one owner
(`kernelRun_files`), the areas of a thread lie where they should (`kernelRun_areas`), and each has memory of
its own (`kernelRun_isolated`).

The first program meets all conditions when it maps a page, forks, and kills its child, which is
reaped (`kernelRun_orderly`).
-/

namespace RpiKernel

open Custody Sched Runs

namespace Kernel

variable {k k' k₀ : Kernel} {data filesize n : Nat} {uart : VnodeRef}

/-! ## a run -/

/-- All that is asked of a step. -/
structure Orderly (k : Kernel) (a : Nat × KernelAct) : Prop where
  forks : ForksWell k a.2
  backs : a.2.Backs k
  granted : a.2.Granted k
  places : a.2.PlacesWell k

theorem orderly_schedule (k : Kernel) (n : Nat) : Orderly k (n, .schedule) := ⟨trivial, trivial, trivial, trivial⟩

theorem orderly_kill (k : Kernel) (n : Nat) (pid : Int) : Orderly k (n, .kill pid) :=
  ⟨trivial, trivial, trivial, trivial⟩

theorem orderly_killZombies (k : Kernel) (n : Nat) : Orderly k (n, .killZombies) :=
  ⟨trivial, trivial, trivial, trivial⟩

/-- The first program, when it runs again, maps a page. -/
theorem Booted.mmap_page (hb : k₀.Booted 0 1 uart) (hp : k.procs = k₀.procs) (hcurr : k.sched.currThread = 1)
    (hroom : k.alloc.Room (n + 2)) : ∃ k', kernelStep k (1, .mmap 0x10000000 0x1000 3) = some k' ∧
      Orderly k (1, .mmap 0x10000000 0x1000 3) ∧ k'.sched = k.sched ∧ k'.alloc.Room n ∧ k'.oom = k.oom ∧
      (∀ u ≠ 1, k'.procs u = k.procs u) ∧ ∃ v, k'.procs 1 = (k.procs 1).addAreas [v] ∧
        v.virtAddr = 0x10000000 ∧ v.areaSize = 0x1000 ∧ Mapped (physToVirt v.physAddr) v.areaSize := by
  have hranges := hb.ranges
  rw [hb.curr, ← hp] at hranges
  have hapart : ∀ v ∈ (k.procs 1).vmaList, 0x10001000 ≤ v.virtAddr ∨ v.virtAddr + v.areaSize ≤ 0x10000000 := by
    have hclosed : ∀ r ∈ imageRanges 1 ++ fixedRanges, 0x10001000 ≤ r.1 ∨ r.1 + r.2 ≤ 0x10000000 := by decide
    exact fun v hv => hclosed v.range (hranges ▸ List.mem_map_of_mem hv)
  have haddr : roundPage 0x10000000 = 0x10000000 := roundPage_of_mod (by decide)
  have hlen : roundPage 0x1000 = 0x1000 := roundPage_of_mod (by decide)
  have hfree : ∀ v ∈ (k.procs k.sched.currThread).vmaList,
      ¬ overlaps (roundPage 0x10000000) (roundPage 0x1000) v := by
    rw [hcurr, haddr, hlen]
    intro v hv
    have hv := hapart v hv
    unfold overlaps
    omega
  have hcurr0 : k.sched.currThread ≠ 0 := by
    rw [hcurr]
    decide
  obtain ⟨r, k', hm, hroom', hoom, rfl⟩ := mmap_returns 3 0 hroom (by decide) hfree
  have hstep := kernelStep_of (n := 1) (a := .mmap 0x10000000 0x1000 3) hcurr0
    (congrArg (Option.map Prod.snd) hm)
  obtain ⟨-, ptr, a₁, rec, a₂, mem, -, hmapped, -, -, hk'⟩ := mmap_some hm
  rw [hcurr, haddr, hlen] at hk'
  rw [hlen] at hmapped
  have hplaces : HasRoom (k.procs k.sched.currThread).vmaList 0x10000000 0x1000 := by
    rw [hcurr]
    exact ⟨0x10000000, haddr.le, by rw [hlen]; decide, by rw [hlen]; exact hapart⟩
  have hgranted : (KernelAct.mmap 0x10000000 0x1000 3).Granted k :=
    ⟨by rw [hlen]; decide, hasBlock_of_room hroom (by decide)⟩
  refine ⟨k', hstep, ⟨trivial, trivial, hgranted, hplaces⟩, ?_, hroom', hoom, ?_,
    mapArea rec 0x10000000 0x1000 3 ptr, ?_, rfl, rfl, ?_⟩
  · rw [hk', setProc_sched]
  · intro u hu
    rw [hk', setProc_procs_other _ hu]
  · rw [hk', setProc_procs]
  · exact (mapped_physToVirt hmapped (by decide)).1.symm ▸ hmapped

/-- The first program with that page can be copied. -/
theorem Booted.forkable_page {v : Vma} (hb : k₀.Booted 0 1 uart) (hoom : k₀.oom = false)
    (haddr : v.virtAddr = 0x10000000) (hsize : v.areaSize = 0x1000)
    (hmapped : Mapped (physToVirt v.physAddr) v.areaSize) :
    Forkable ((k₀.procs 1).addAreas [v]) ∧ OneHome ((k₀.procs 1).addAreas [v]).vmaList ∧
      forkRoom ((k₀.procs 1).addAreas [v]).vmaList = 37 := by
  have hforkable := hb.forkable (by decide : 1 ≤ 0x4000) hoom
  have hhome := hb.oneHome
  have hneed := hb.forkRoom_eq
  rw [hb.curr] at hforkable hhome hneed
  have hvmas : ((k₀.procs 1).addAreas [v]).vmaList = (k₀.procs 1).vmaList ++ [v] := rfl
  refine ⟨⟨hforkable.datasize, fun w hw hskip => ?_, hforkable.stack⟩, ?_, ?_⟩
  · cases List.mem_append.1 hw with
    | inl hw => exact hforkable.areas w hw hskip
    | inr hw =>
        rw [List.mem_singleton.1 hw]
        exact ⟨by rw [hsize]; decide, hmapped⟩
  · unfold OneHome at hhome ⊢
    rw [hvmas, List.countP_append, List.countP_append, hhome.1, hhome.2, List.countP_singleton,
      List.countP_singleton, haddr]
    decide
  · unfold forkRoom at hneed ⊢
    rw [hvmas, List.length_append, List.length_singleton]
    omega

/-- The idle thread and the program take turns; the program maps a page and forks; its child is killed
and reaped. -/
def mapForkReap (cpu : ThreadContext) : List (Nat × KernelAct) :=
  [(9, .schedule), (9, .schedule), (1, .mmap 0x10000000 0x1000 3), (9, .fork cpu), (9, .kill 2),
    (9, .killZombies)]

theorem kernelRun_orderly : ∃ (k₀ k : Kernel) (cpu : ThreadContext), k₀.Booted 0 1 ⟨0, .uart⟩ ∧
    k₀.oom = false ∧ run kernelStep k₀ (mapForkReap cpu) = some k ∧
    Always kernelStep Orderly k₀ (mapForkReap cpu) := by
  obtain ⟨k₀, hb, hroom, hoom⟩ := smallBooted ⟨0, .uart⟩ (by decide : 1 ≤ 0x4000)
  obtain ⟨s₁, s₂, s₃, s₄, s₅, -, -, h₁, h₂, h₃, h₄, h₅, -, -, c₂, c₃, c₄, z₀, z₂, f₁, f₂, -⟩ :=
    schedBoot_reuse
  have hcurr := hb.curr
  have hstdin := hb.stdin
  rw [hcurr] at hstdin
  -- idle, and the program again
  obtain ⟨hrun₂, ok₂⟩ := schedule_twice hb.ok_zero (by rw [hb.sched]; exact h₁) h₂
  have hprocs₂ : ({ k₀ with sched := s₂ } : Kernel).procs = k₀.procs := rfl
  have hs₂ : ({ k₀ with sched := s₂ } : Kernel).sched = s₂ := rfl
  have hroom₂ : ({ k₀ with sched := s₂ } : Kernel).alloc.Room 0x3000 := hroom
  have hoom₂ : ({ k₀ with sched := s₂ } : Kernel).oom = false := hoom
  generalize ({ k₀ with sched := s₂ } : Kernel) = k₂ at *
  -- it maps a page
  obtain ⟨k₃, hstep₃, hgood₃, hs₃, hroom₃, hoom₃, hothers, v, hprog, haddr, hsize, hmapped⟩ :=
    hb.mmap_page hprocs₂ (by rw [hs₂]; exact c₂) (hroom₂.mono (by decide : 37 + 2 ≤ 0x3000))
  have ok₃ := ok₂.next_zero hgood₃.forks hstep₃
  obtain ⟨hforkable, hhome, hneed⟩ := hb.forkable_page hoom haddr hsize hmapped
  rw [hs₂] at hs₃
  rw [hprocs₂] at hprog hothers
  have hcurr₃ : k₃.sched.currThread = 1 := by
    rw [hs₃]
    exact c₂
  have hprog₃ : k₃.procs k₃.sched.currThread = (k₀.procs 1).addAreas [v] := by
    rw [hcurr₃]
    exact hprog
  rw [← hcurr₃] at f₁ c₃
  rw [← hprog₃] at hforkable hhome hneed
  -- it forks, and the child is killed and reaped
  have hempty (i : Nat) : (k₃.procs 2).fileDescriptorsTable i = 0 := by
    rw [hothers 2 (by decide)]
    exact hb.files_other (by rw [hcurr]; decide)
  have hstdin₃ : (k₃.procs k₃.sched.currThread).fileDescriptorsTable 0 ≠ 0 := by
    rw [hprog₃]
    exact hstdin
  have hroom₃' : k₃.alloc.Room (0 + forkRoom (k₃.procs k₃.sched.currThread).vmaList) := by
    rw [hneed]
    exact hroom₃
  have hoom₃' : k₃.oom = false := hoom₃.trans hoom₂
  have hcreate : RpiKernel.threadCreate k₃.sched = some (2, s₃) := hs₃ ▸ h₃
  obtain ⟨k₅, cpu, hrun₅, -⟩ := reaped_stale ok₃ hoom₃' hroom₃' hforkable hhome hstdin₃ hempty
    (by rw [hcurr₃]; decide) hcreate c₃ h₄ c₄ z₀ z₂ h₅ f₁ f₂
  have hrun₃ : run kernelStep k₂ [(1, .mmap 0x10000000 0x1000 3), (9, .fork cpu), (9, .kill 2),
      (9, .killZombies)] = some k₅ := (run_cons _ hstep₃).trans hrun₅
  refine ⟨k₀, k₅, cpu, hb, hoom, (run_append _ _ hrun₂).trans hrun₃, ?_⟩
  have hfork : Orderly k₃ (9, .fork cpu) := by
    obtain ⟨hbacks, hgranted⟩ := fork_granted hroom₃' hoom₃' hforkable
    exact ⟨forksWell_of_empty hhome hempty hcreate, hbacks, hgranted, trivial⟩
  have hidle : Always kernelStep Orderly k₀ [(9, .schedule), (9, .schedule)] :=
    ⟨orderly_schedule k₀ 9, fun k _ => ⟨orderly_schedule k 9, fun _ _ => trivial⟩⟩
  refine hidle.append hrun₂ ⟨hgood₃, fun k hk => ?_⟩
  rw [← Option.some.inj (hstep₃.symm.trans hk)]
  exact ⟨hfork, fun k _ => ⟨orderly_kill k 9 2, fun k _ => ⟨orderly_killZombies k 9, fun _ _ => trivial⟩⟩⟩

/-! ## what is kept -/

/-- **Isolation.**  In every run whose programs, stacks and areas get the memory they ask
for, and whose forks are in order, every area has memory of its own. -/
theorem kernelRun_isolated (hb : k₀.Booted data filesize uart) (hsize : filesize ≤ maxRequest)
    (hoom : k₀.oom = false)
    (hr : Reach kernelStep (fun k a => ForksWell k a.2 ∧ a.2.Backs k ∧ a.2.Granted k) k₀ k) :
    MemoryIsolated k := by
  have hp : Partitioned k := hr.inv (hb.partitioned hsize hoom) fun s a s' hs hg hstep =>
    hs.next hg.1 hg.2.1 hstep
  exact hp.isolated

theorem kernelRun_isolated_boot : ∃ (k₀ k : Kernel) (cpu : ThreadContext), k₀.Booted 0 1 ⟨0, .uart⟩ ∧
    run kernelStep k₀ (mapForkReap cpu) = some k ∧ MemoryIsolated k := by
  obtain ⟨k₀, k, cpu, hb, hoom, hrun, hgood⟩ := kernelRun_orderly
  have hr : Reach kernelStep (fun k a => ForksWell k a.2 ∧ a.2.Backs k ∧ a.2.Granted k) k₀ k :=
    (Reach.init.of_always hgood hrun).mono fun _ _ h => ⟨h.forks, h.backs, h.granted⟩
  exact ⟨k₀, k, cpu, hb, hrun, kernelRun_isolated hb (by decide) hoom hr⟩

/-- **Handles.**  In every run whose forks are in order, every handle in a table is
live, and no two entries share one. -/
theorem kernelRun_files (hb : k₀.Booted data filesize uart)
    (hr : Reach kernelStep (fun k a => ForksWell k a.2) k₀ k) : FilesOwned k :=
  (kernelRun_ok hb hr).filesOwned

theorem kernelRun_files_boot : ∃ (k₀ k : Kernel) (cpu : ThreadContext), k₀.Booted 0 1 ⟨0, .uart⟩ ∧
    run kernelStep k₀ (mapForkReap cpu) = some k ∧ FilesOwned k := by
  obtain ⟨k₀, k, cpu, hb, -, hrun, hgood⟩ := kernelRun_orderly
  have hr := (Reach.init.of_always hgood hrun).mono fun _ _ h => h.forks
  exact ⟨k₀, k, cpu, hb, hrun, kernelRun_files hb hr⟩

/-- **Areas.**  As long as every image ends below the peripherals and every
`mmap` finds room, the areas of every thread stay page aligned, below `2 ^ 48`
and apart; the first step that does otherwise ends that. -/
theorem kernelRun_areas (hb : k₀.Booted data filesize uart) (h32 : filesize < 2 ^ 32) :
    ((∀ t, WellFormed (k₀.procs t).vmaList) ↔ filesize ≤ peripheralStart) ∧
    (filesize ≤ peripheralStart →
      ∀ k, Reach kernelStep (fun k a => a.2.PlacesWell k) k₀ k →
        (∀ t, WellFormed (k.procs t).vmaList) ∧
        ∀ n a k', kernelStep k (n, a) = some k' →
          ((∀ t, WellFormed (k'.procs t).vmaList) ↔ a.PlacesWell k)) := by
  refine ⟨(hb.areas h32).iff, fun hg k hr => ?_⟩
  have hok : AreasOk k := hr.inv (hb.areasOk h32 hg) fun _ _ _ hI hgood hs => hI.next hs hgood
  exact ⟨hok.wellFormed, fun n a k' hs => (hok.step hs).iff⟩

theorem kernelRun_areas_boot : ∃ (k₀ k : Kernel) (cpu : ThreadContext), k₀.Booted 0 1 ⟨0, .uart⟩ ∧
    run kernelStep k₀ (mapForkReap cpu) = some k ∧ ∀ t, WellFormed (k.procs t).vmaList := by
  obtain ⟨k₀, k, cpu, hb, -, hrun, hgood⟩ := kernelRun_orderly
  have hr := (Reach.init.of_always hgood hrun).mono fun _ _ h => h.places
  exact ⟨k₀, k, cpu, hb, hrun, ((kernelRun_areas hb (by decide)).2 (by decide) k hr).1⟩

end Kernel

end RpiKernel
