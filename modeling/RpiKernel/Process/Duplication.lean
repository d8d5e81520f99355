import RpiKernel.Process.Copying
import RpiKernel.Process.Reaping
import RpiKernel.Process.WorkingDirs

/-!
# RpiKernel.Process.Duplication

What a child of `fork` has in common with its parent (`Duplicates`): areas with the same bytes and
rights in memory of its own, the signal handlers, copies of the handles, and the working directory.

The first three hold if the parent has one image and one stack at most and the slot has no files
that the parent lacks.  The working directory is not copied: `thread_create` sets it to `/`, and
`fork` leaves it there (`fork_duplicates`, `fork_duplicates_directory`).
-/

namespace RpiKernel

open Custody Sched Runs

/-- The byte that a process finds at the address `va` of an area. -/
def Vma.read (v : Vma) (k : Kernel) (va : Nat) : UInt8 := k.bytes (physToVirt (v.physAddr + (va - v.virtAddr)))

namespace Kernel

variable {k k' k₀ : Kernel} {child n : Nat} {cpu : ThreadContext}

/-! ## duplicates -/

/-- The area `c` of `k'` is a copy of `v`, in memory that was nobody's. -/
structure CopiedArea (k k' : Kernel) (v c : Vma) : Prop where
  virtAddr : c.virtAddr = v.virtAddr
  areaSize : c.areaSize = v.areaSize
  rwx : c.rwx = v.rwx
  bytes : ∀ va, v.virtAddr ≤ va → va < v.virtAddr + v.areaSize → c.read k' va = v.read k va
  fresh : ¬ Live k (physToVirt c.physAddr)
  live : ∃ n, k'.alloc.Region (physToVirt c.physAddr) n ∧ c.areaSize ≤ n

/-- The entry `c` of a table of files has a copy of the handle `f`, if there is one. -/
structure CopiedFile (k k' : Kernel) (f c : Nat) : Prop where
  absent : f = 0 → c = 0
  same : f ≠ 0 → k'.files c = k.files f
  fresh : f ≠ 0 → ¬ Live k c
  live : f ≠ 0 → ∃ n, k'.alloc.Region c n ∧ fileBytes ≤ n

/-- In `k'` the thread `child` is a duplicate of the one that runs in `k`, of which only the
registers were saved. -/
structure Duplicates (cpu : ThreadContext) (child : Nat) (k k' : Kernel) : Prop where
  areas : ∃ cs fixed, (k'.procs child).vmaList = cs ++ fixed ∧ (∀ v ∈ fixed, skipped v) ∧
    List.Forall₂ (CopiedArea k k') ((k.procs k.sched.currThread).vmaList.filter fun v => ¬ skipped v) cs
  separate : (freed child k').Nodup
  handlers : ∀ i ≤ signalMax,
    (k'.procs child).signalHandler i = (k.procs k.sched.currThread).signalHandler i
  files : ∀ i ≤ maxFd, CopiedFile k k' ((k.procs k.sched.currThread).fileDescriptorsTable i)
    ((k'.procs child).fileDescriptorsTable i)
  directory : (k'.procs child).currWorkingDir = (k.procs k.sched.currThread).currWorkingDir
  parent : k'.procs k.sched.currThread = (k.procs k.sched.currThread).save cpu
  kept : ∀ p n, k.alloc.Region p n →
    k'.alloc.Region p n ∧ (∀ x, p ≤ x → x < p + n → k'.bytes x = k.bytes x) ∧ k'.files p = k.files p
  tables : SameTables k.alloc.Region k k'

/-- The thread that runs has at most one image and one stack, the first free slot has no files that
it lacks, and it is in the directory in which threads start. -/
structure CopiesWell (k : Kernel) : Prop where
  homes : SingleHomes (k.procs k.sched.currThread).vmaList
  slot : ∀ c s, RpiKernel.threadCreate k.sched = some (c, s) →
    NoStaleFile (k.procs k.sched.currThread) (k.procs c)
  directory : (k.procs k.sched.currThread).currWorkingDir = ['/']

/-! ## areas -/

theorem physToVirt_add {p i : Nat} (hm : Mapped (physToVirt p) n) (hi : i < n) :
    physToVirt (p + i) = physToVirt p + i := by
  have hin := hm.resolve_left (by omega)
  unfold kernelMapSize at hin
  unfold physToVirt at hin ⊢
  omega

/-- The byte of an area in kernel memory. -/
theorem read_eq {v : Vma} {va : Nat} (hm : Mapped (physToVirt v.physAddr) v.areaSize) (hlo : v.virtAddr ≤ va)
    (hhi : va < v.virtAddr + v.areaSize) :
    v.read k va = k.bytes (physToVirt v.physAddr + (va - v.virtAddr)) := by
  unfold Vma.read
  rw [physToVirt_add hm (by omega)]

/-- What `fork` copies is a block of the parent. -/
theorem Partitioned.source {t : Nat} {v : Vma} (h : Partitioned k) (hl : Living k t) (hplain : Plain v)
    (hv : v ∈ (k.procs t).vmaList) (hskip : ¬ skipped v) : Source k.alloc.Region v := by
  refine ⟨hplain, (h.areas t v hv).size, fun i hi => ?_⟩
  have hall : v ∈ (k.procs t).alloced := Process.mem_alloced.2 ⟨hv, hplain.alloced hskip⟩
  obtain ⟨m, hm, hle⟩ := h.shares.backed _ _ (mem_held hl (h.block hall (by omega)))
  dsimp only at hm hle
  exact Or.inl ⟨_, m, hm, Nat.le_add_right _ _, by omega⟩

/-- A copy that the child owns. -/
theorem CopyOf.copied {R : Blocks} {v c : Vma} (h : CopyOf k.bytes k'.bytes v c) (hsrc : Source k.alloc.Region v)
    (hm : Mapped (physToVirt v.physAddr) v.areaSize)
    (hown : Owns (fun n => n) k.alloc.Region R child k') (hc : c ∈ (k'.procs child).vmaList) :
    CopiedArea k k' v c := by
  obtain ⟨q, addr, hcopy⟩ := h.eq
  have hsize : c.areaSize = v.areaSize := by
    rw [hcopy]
    exact roundPage_of_mod hsrc.size
  have hall : c.isAlloced = true := by
    rw [hcopy]
    rfl
  have hblock : (physToVirt c.physAddr, c.areaSize) ∈ (k'.procs child).blocks (fun n => n) k'.words ++ R := by
    refine List.mem_append_left _ ?_
    rw [Process.blocks]
    exact List.mem_append_left _ (mem_areaBlocks hc hall h.ne)
  obtain ⟨m, hm', hle⟩ := hown.holds.holds.backed _ hblock
  have hmapped : Mapped (physToVirt c.physAddr) c.areaSize := mapped_of_region hown.holds.settled hm' hle
  have hvirt : c.virtAddr = v.virtAddr := by rw [hcopy]; rfl
  refine ⟨hvirt, hsize, by rw [hcopy]; rfl, fun va hlo hhi => ?_, ?_, m, hm', hle⟩
  · rw [read_eq hmapped (by omega) (by omega), read_eq hm hlo hhi, hvirt]
    exact h.bytes _ (by omega)
  · exact hown.holds.holds.not_base (mem_addrs.2 ⟨_, hblock⟩)

theorem fixedAreas_skipped (w s r₁ r₂ r₃ : Nat) : ∀ v ∈ fixedAreas w s r₁ r₂ r₃, skipped v := by
  simp [fixedAreas, skipped]

/-! ## `fork` -/

/-- A handle of the parent is live. -/
theorem Partitioned.handle {t i : Nat} (h : Partitioned k) (hl : Living k t) (hi : i ≤ maxFd)
    (h0 : (k.procs t).fileDescriptorsTable i ≠ 0) : Live k ((k.procs t).fileDescriptorsTable i) := by
  have ho : Opened k t i := ⟨hl.2, hi, h0⟩
  have hheld : ((k.procs t).fileDescriptorsTable i, fileBytes) ∈ held (fun n => n) k (some t) := by
    rw [held_living hl]
    exact ho.mem_blocks k.words
  obtain ⟨m, hm, -⟩ := h.shares.backed _ _ hheld
  exact ⟨m, hm⟩

/-- The handle that a child owns where its parent has one. -/
theorem Owns.copiedFile {R : Blocks} {i : Nat} (hown : Owns (fun n => n) k.alloc.Region R child k')
    (hne : k.sched.currThread ≠ child) (hi : i ≤ maxFd)
    (h0 : (k.procs k.sched.currThread).fileDescriptorsTable i ≠ 0) (hf : fork cpu k = some (child, k'))
    (hsame : k'.files ((k'.procs child).fileDescriptorsTable i) =
      k.files ((k.procs k.sched.currThread).fileDescriptorsTable i)) :
    CopiedFile k k' ((k.procs k.sched.currThread).fileDescriptorsTable i)
      ((k'.procs child).fileDescriptorsTable i) := by
  have hi' : i ∈ List.range (maxFd + 1) := List.mem_range.2 (Nat.lt_succ_of_le hi)
  have hblock : ((k'.procs child).fileDescriptorsTable i, fileBytes) ∈
      (k'.procs child).blocks (fun n => n) k'.words ++ R := by
    refine List.mem_append_left _ ?_
    rw [Process.blocks]
    exact List.mem_append_right _ (List.mem_append_left _ (mem_fileBlocks hi' (fork_present hne hi h0 hf)))
  exact ⟨fun h => absurd h h0, fun _ => hsame, fun _ => hown.holds.holds.not_base (mem_addrs.2 ⟨_, hblock⟩),
    fun _ => hown.holds.holds.backed _ hblock⟩

/-- A fork in order makes a duplicate. -/
theorem Partitioned.duplicates (h : Partitioned k) (hcurr : k.sched.currThread ≠ 0)
    (hplain : ∀ v ∈ (k.procs k.sched.currThread).vmaList, Plain v) (hw : CopiesWell k)
    (hf : fork cpu k = some (child, k')) (ho : k'.oom = false) : Duplicates cpu child k k' := by
  have hsched := fork_sched hf
  obtain ⟨hfree, -, -⟩ := threadCreate_spec hsched
  have hne : k.sched.currThread ≠ child := fun he => h.sched.curr (he ▸ hfree)
  have hl : Living k k.sched.currThread := h.toKernelOk.living hcurr
  have hstale := hw.slot child _ hsched
  have hnothing := h.settled.holds_nothing
  obtain ⟨lost, -, hdrop, htables, -⟩ := fork_copies hne hw.homes
    (fun v hv _ => covers_of_le (h.areas _ v hv).size) (covers_of_le (by decide)) (h.last _) hnothing hf
  have hown := fork_holds hne hstale hf hdrop
  have hsrc : ∀ v ∈ (k.procs k.sched.currThread).vmaList, ¬ skipped v → Source k.alloc.Region v :=
    fun v hv => h.source hl (hplain v hv) hv
  obtain ⟨hbytes, cs, w, s, r₁, r₂, r₃, hlist, hcopies⟩ := fork_areaBytes h.settled hne hw.homes hsrc hf ho hown
  obtain ⟨hfiles, hhandles⟩ := fork_files h.settled hne (fun i hi h0 => h.handle hl hi h0) hf
  have hareas : List.Forall₂ (CopiedArea k k')
      ((k.procs k.sched.currThread).vmaList.filter fun v => ¬ skipped v) cs := by
    rw [List.forall₂_iff_zip] at hcopies ⊢
    refine ⟨hcopies.1, fun {v c} hvc => ?_⟩
    obtain ⟨hv, hc⟩ := List.of_mem_zip hvc
    obtain ⟨hv, hskip⟩ := List.mem_filter.1 hv
    have hskip : ¬ skipped v := by simpa using hskip
    have hall : v ∈ (k.procs k.sched.currThread).alloced :=
      Process.mem_alloced.2 ⟨hv, (hplain v hv).alloced hskip⟩
    have hc : c ∈ (k'.procs child).vmaList := by
      rw [hlist]
      exact List.mem_append_left _ hc
    exact (hcopies.2 hvc).copied (hsrc v hv hskip) (h.mapped hl hall) hown hc
  have hseparate : (freed child k').Nodup := by
    obtain ⟨lost', -, hdrop', -, -⟩ := fork_copies hne hw.homes (fun _ _ _ => covers_zero _) (covers_zero _)
      (h.last _) hnothing hf
    have hnd := (fork_holds hne hstale hf hdrop').holds.holds.nodup
    rw [addrs_append] at hnd
    exact (List.nodup_append.1 hnd).1
  refine ⟨⟨cs, _, hlist, fixedAreas_skipped w s r₁ r₂ r₃, hareas⟩, hseparate, fun i hi => fork_handlers hi hf,
    fun i hi => ?_, ?_, fork_parent hne hf, fun p n hp => ⟨hown.holds.holds.keep p n hp, ?_, hfiles p ⟨n, hp⟩⟩,
    htables⟩
  · by_cases h0 : (k.procs k.sched.currThread).fileDescriptorsTable i = 0
    · refine ⟨fun _ => ?_, fun h => absurd h0 h, fun h => absurd h0 h, fun h => absurd h0 h⟩
      rw [fork_absent hne h0 hf]
      exact hstale i hi h0
    · exact hown.copiedFile hne hi h0 hf (hhandles i hi h0)
  · rw [fork_cwd hf, if_pos rfl, hw.directory]
  · exact fun x hlo hhi => hbytes x (Or.inl ⟨p, n, hp, hlo, hhi⟩)

/-- A duplicate was made in order. -/
theorem Duplicates.copiesWell (h : Duplicates cpu child k k') (hs : k.alloc.Settled)
    (hne : k.sched.currThread ≠ child) (hf : fork cpu k = some (child, k')) (ho : k'.oom = false) :
    CopiesWell k := by
  refine ⟨?_, fun c s hc i hi h0 => ?_, ?_⟩
  · -- otherwise a copy lost its memory
    by_contra hhome
    obtain ⟨v, hv, hskip, -, hdead⟩ := fork_dangles hs hne hhome hf ho
    obtain ⟨cs, fixed, hlist, hfixed, hcopies⟩ := h.areas
    rw [hlist, List.mem_append] at hv
    obtain ⟨w, -, hw⟩ := forall₂_right hcopies v (hv.resolve_right fun hm => hskip (hfixed v hm))
    obtain ⟨m, hm, -⟩ := hw.live
    have hnd := h.separate
    rw [freed, Process.blocks, addrs_append] at hnd
    have hone : (areaAddrs (k'.procs child).vmaList).count (physToVirt v.physAddr) ≤ 1 :=
      List.nodup_iff_count_le_one.1 (List.nodup_append.1 hnd).1 _
    cases hdead with
    | inl hdead => exact hdead ⟨m, hm⟩
    | inr htwo => omega
  · obtain ⟨rfl, -⟩ := Prod.mk.inj (Option.some.inj (hc.symm.trans (fork_sched hf)))
    rw [← fork_absent hne h0 hf]
    exact (h.files i hi).absent h0
  · rw [← h.directory, fork_cwd hf, if_pos rfl]

/-! ## runs -/

variable {data filesize : Nat} {uart : VnodeRef}

/-! Whether a request was ever refused does not matter for what is a duplicate. -/

theorem CopiedArea.oom {v c : Vma} (h : CopiedArea k k' v c) (o : Bool) :
    CopiedArea { k with oom := o } k' v c := ⟨h.virtAddr, h.areaSize, h.rwx, h.bytes, h.fresh, h.live⟩

theorem CopiedFile.oom {f c : Nat} (h : CopiedFile k k' f c) (o : Bool) :
    CopiedFile { k with oom := o } k' f c := ⟨h.absent, h.same, h.fresh, h.live⟩

theorem Duplicates.oom (h : Duplicates cpu child k k') (o : Bool) :
    Duplicates cpu child { k with oom := o } k' := by
  obtain ⟨cs, fixed, hlist, hfixed, hcopies⟩ := h.areas
  exact ⟨⟨cs, fixed, hlist, hfixed, hcopies.imp fun _ _ hc => hc.oom o⟩, h.separate, h.handlers,
    fun i hi => (h.files i hi).oom o, h.directory, h.parent, h.kept, h.tables⟩

theorem CopiesWell.oom (h : CopiesWell k) (o : Bool) : CopiesWell { k with oom := o } :=
  ⟨h.homes, h.slot, h.directory⟩

theorem Partitioned.oom (h : Partitioned k) (o : Bool) : Partitioned { k with oom := o } :=
  ⟨⟨⟨h.settled, h.shares, h.tree, h.last, h.idle⟩, h.sched⟩, h.areas, h.idleAreas⟩

/-- **Duplication.**  After a `fork` for which no request was refused, the child is a duplicate of its
parent if and only if the parent has one image and one stack at most, the slot has no files that it
lacks, and it is in `/`. -/
theorem fork_duplicates (hb : k₀.Booted data filesize uart) (hsize : filesize ≤ maxRequest)
    (hoom : k₀.oom = false) (hr : Reach kernelStep (fun k a => ForksWell k a.2 ∧ a.2.Backs k) k₀ k)
    (hcurr : k.sched.currThread ≠ 0) (hf : fork cpu { k with oom := false } = some (child, k'))
    (ho : k'.oom = false) : Duplicates cpu child k k' ↔ CopiesWell k := by
  have hp : Partitioned k := hr.inv (hb.partitioned hsize hoom) fun _ _ _ hs hg hstep =>
    hs.next hg.1 hg.2 hstep
  have hplain := madeAreas_plain.reach hb hr
  constructor
  case mp =>
    intro h
    obtain ⟨hfree, -, -⟩ := threadCreate_spec (fork_sched hf)
    have hne : k.sched.currThread ≠ child := fun he => hp.sched.curr (he ▸ hfree)
    exact ((h.oom false).copiesWell hp.settled hne hf ho).oom k.oom
  case mpr =>
    intro hw
    exact ((hp.oom false).duplicates hcurr (hplain _) (hw.oom false) hf ho).oom k.oom

/-! ## the first program -/

/-- Timer ticks only schedule. -/
theorem ticks_sched {as : List (Nat × KernelAct)} (has : ∀ a ∈ as, a.2 = .schedule)
    (hrun : run kernelStep k₀ as = some k) : ∃ s, k = { k₀ with sched := s } := by
  have hr : Reach kernelStep (fun _ a => a.2 = .schedule) k₀ k := Reach.init.run (fun a ha _ => has a ha) hrun
  refine hr.inv (I := fun k => ∃ s, k = { k₀ with sched := s }) ⟨k₀.sched, rfl⟩ fun k a k' hk ha hstep => ?_
  obtain ⟨m, a⟩ := a
  obtain rfl : a = .schedule := ha
  obtain ⟨s, rfl⟩ := hk
  obtain ⟨⟨⟨⟩, k'⟩, hf, rfl⟩ := Option.map_eq_some_iff.1 (kernelStep_some hstep).2
  obtain ⟨s', -, hr'⟩ := onSched_some.1 hf
  exact ⟨s', (Prod.mk.inj hr').2⟩

theorem fork_duplicates_boot : ∃ (k₀ k k' : Kernel) (cpu : ThreadContext), k₀.Booted 0 1 ⟨0, .uart⟩ ∧
    run kernelStep k₀ [(9, .schedule), (9, .schedule)] = some k ∧
    fork cpu { k with oom := false } = some (2, k') ∧ k'.oom = false ∧ CopiesWell k ∧ Duplicates cpu 2 k k' := by
  obtain ⟨k₀, k, hb, hrun, h⟩ := FirstParent.ticks
  have hr : Reach kernelStep (fun k a => ForksWell k a.2 ∧ a.2.Backs k) k₀ k :=
    Reach.init.run (by simp [ForksWell, KernelAct.Backs]) hrun
  obtain ⟨s, hk⟩ := ticks_sched (by simp) hrun
  have hw : CopiesWell k := by
    refine ⟨?_, fun c s hc i _ _ => ?_, ?_⟩
    · rw [h.curr]
      exact (oneHome_of_ranges h.ranges).single
    · obtain ⟨s', hs'⟩ := h.dies.1
      obtain ⟨rfl, -⟩ := Prod.mk.inj (Option.some.inj (hc.symm.trans hs'))
      exact h.empty i
    · rw [h.curr, hk]
      exact hb.curr ▸ hb.cwd
  have hlen : (k.procs 1).vmaList.length ≤ 6 := h.length.le.trans (by decide)
  obtain ⟨cpu, k', -, -, hf, ho, -⟩ := fork_dies (k := { k with oom := false }) h.dies
    (h.room.mono (by decide)) rfl (h.curr ▸ h.forkable) (h.curr ▸ hlen)
  refine ⟨k₀, k, k', cpu, hb, hrun, hf, ho, hw, ?_⟩
  have hoom : k₀.oom = false := by
    rw [← h.oom, hk]
  exact (fork_duplicates hb (by decide) hoom hr h.curr_ne hf ho).2 hw

/-- **The directory.**  The first program goes to `/dev` and calls `fork`; the child is in `/`. -/
theorem fork_duplicates_directory : ∃ (k₀ k k' : Kernel) (cpu : ThreadContext), k₀.Booted 0 1 ⟨0, .uart⟩ ∧
    run kernelStep k₀ [(9, .schedule), (9, .schedule), (1, .chdir ['/', 'd', 'e', 'v'])] = some k ∧
    fork cpu { k with oom := false } = some (2, k') ∧ k'.oom = false ∧ ¬ Duplicates cpu 2 k k' := by
  obtain ⟨k₀, k, hb, hrun, h⟩ := FirstParent.ticks
  obtain ⟨s, hk⟩ := ticks_sched (by simp) hrun
  have hcwd : (k.procs k.sched.currThread).currWorkingDir = ['/'] := by
    rw [h.curr, hk]
    exact hb.curr ▸ hb.cwd
  have habs : getAbsolutePath ['/', 'd', 'e', 'v'] (k.procs k.sched.currThread).currWorkingDir =
      ['/', 'd', 'e', 'v'] := by
    rw [hcwd]
    decide
  have hstep := kernelStep_chdir (n := 1) h.curr_ne (by decide) habs (by decide)
  rw [h.curr] at hstep
  generalize hk₁ : (k.setProc 1 fun p => { p with currWorkingDir := ['/', 'd', 'e', 'v'] }) = k₁ at hstep
  have hproc : k₁.procs 1 = { k.procs 1 with currWorkingDir := ['/', 'd', 'e', 'v'] } := by
    rw [← hk₁, setProc_procs]
  have hsched : k₁.sched = k.sched := by rw [← hk₁, setProc_sched]
  have hcurr₁ : k₁.sched.currThread = 1 := hsched ▸ h.curr
  have hforkable : Forkable (k₁.procs 1) := by
    rw [hproc]
    exact ⟨h.forkable.datasize, h.forkable.areas, h.forkable.stack⟩
  have hroom : k₁.alloc.Room 40 := by
    rw [← hk₁, setProc_alloc]
    exact h.room.mono (by decide)
  have hlen : (k₁.procs 1).vmaList.length ≤ 6 := by
    rw [hproc]
    exact h.length.le.trans (by decide)
  obtain ⟨cpu, k', -, -, hf, ho, -⟩ := fork_dies (k := { k₁ with oom := false }) (hsched ▸ h.dies) hroom rfl
    (hcurr₁ ▸ hforkable) (hcurr₁ ▸ hlen)
  refine ⟨k₀, k₁, k', cpu, hb, ?_, hf, ho, fun hd => ?_⟩
  · refine (run_append _ [(1, .chdir ['/', 'd', 'e', 'v'])] hrun).trans ?_
    rw [run_cons _ hstep]
    rfl
  · have hdir := hd.directory
    rw [fork_cwd hf, if_pos rfl, hcurr₁, hproc] at hdir
    exact absurd hdir (by simp)

end Kernel

end RpiKernel
