import RpiKernel.Memory.SlabRun
import RpiKernel.Process.ExecFailure

/-!
# RpiKernel.Process.ForkFailure

`fork` without a free slot, or without memory.

`thread_create` answers `NULL` when no slot is free, and `kmalloc` does when no block is;
`fork` looks at neither answer, and `thread_create` not at those of `kmalloc`.  So `fork` never
fails: it writes through `NULL`, which is not followed, or it returns the number of a child that has
its slot and its place in the run queue (`fork_neverFails`).
-/

namespace RpiKernel

open CallM Runs Sched

/-! ## the call -/

section

variable {env : Answers} {tpf tpf' : Trapframe} {k k' : Kernel}

/-- Up to its accesses, the call is `fork`. -/
theorem Call.result_fork (cpu : ThreadContext) (k : Kernel) : (Call.fork cpu k).2 = Kernel.fork cpu k := by
  have hhandlers : Bounded (accessAll (Call.upTo signalMax .signalHandler)) :=
    Call.bounded_upTo fun i hi => ⟨by omega, by omega⟩
  have hcounts : Bounded (accessAll (Call.upTo signalMax .sigcount)) :=
    Call.bounded_upTo fun i hi => ⟨by omega, by omega⟩
  have hfiles : Bounded (accessAll (Call.upTo (maxFd + 1) .fileDescriptorsTable)) :=
    Call.bounded_upTo fun i hi => ⟨by omega, by omega⟩
  have hget : (Call.fork cpu k).2 = ((accessAll (Call.slots k.sched) >>= fun _ =>
      accessAll (Call.upTo signalMax .signalHandler) >>= fun _ =>
      accessAll (Call.upTo signalMax .sigcount) >>= fun _ =>
      accessAll (Call.upTo (signalMax + 1) .signalHandler) >>= fun _ =>
      accessAll (Call.upTo (maxFd + 1) .fileDescriptorsTable) >>= fun _ =>
      lift (Kernel.fork cpu)) k).2 := rfl
  rw [hget, result_accessAll_bind (Call.bounded_slots _), result_accessAll_bind hhandlers,
    result_accessAll_bind hcounts, result_accessAll_bind Call.bounded_signalHandlers,
    result_accessAll_bind hfiles]
  rfl

/-- What `fork` leaves in the parent's registers. -/
def Trapframe.forked (tpf : Trapframe) (child : Nat) : Trapframe :=
  { tpf with x0 := BitVec.ofNat 64 child }

theorem sync64Router_fork (hcall : tpf.x8.toNat = 4) :
    (sync64Router env tpf k).2 = some (tpf', k') ↔
      ∃ child, Kernel.fork env.cpu k = some (child, k') ∧ tpf' = tpf.forked child := by
  have hrun : sync64Router env tpf = Call.fork env.cpu >>= fun child => pure (tpf.forked child) := by
    unfold sync64Router
    simp only [hcall]
    rfl
  rw [hrun, result_bind]
  constructor
  case mp =>
    intro ⟨child, k₁, hf, hpure⟩
    obtain ⟨rfl, rfl⟩ := Prod.mk.inj (Option.some.inj hpure)
    exact ⟨child, (Call.result_fork env.cpu k).symm.trans hf, rfl⟩
  case mpr =>
    intro ⟨child, hf, htpf⟩
    exact ⟨child, k', (Call.result_fork env.cpu k).trans hf, htpf ▸ rfl⟩

end

/-! ## requests -/

/-- Every answer is `NULL`. -/
theorem Grants.refused {a a' : Alloc} {rs : List (Nat × Nat)} (h : Grants a rs a')
    (hnull : ∀ size, size ≠ 0 → RpiKernel.kmalloc size a = some (0, a)) (hrs : ∀ r ∈ rs, r.1 % 2 ^ 32 ≠ 0) :
    ∀ r ∈ rs, r.2 = 0 := by
  induction h with
  | nil a => simp
  | cons hm _ ih =>
      obtain ⟨hr, hrest⟩ := List.forall_mem_cons.1 hrs
      rw [hnull _ hr] at hm
      obtain ⟨rfl, rfl⟩ := Prod.mk.inj (Option.some.inj hm)
      exact List.forall_mem_cons.2 ⟨rfl, ih hnull hrest⟩

namespace Kernel

variable {env : Answers} {tpf : Trapframe} {k k' : Kernel} {cpu : ThreadContext}

/-! ## failing -/

/-- `fork` returns a negative value; the thread table, the run queue and the blocks are as they
were. -/
def ForkFails (k : Kernel) (result : Option (Trapframe × Kernel)) : Prop :=
  ∃ tpf k', result = some (tpf, k') ∧ toInt tpf.x0.toNat < 0 ∧ k'.sched = k.sched ∧
    ∀ p n, k'.alloc.Region p n ↔ k.alloc.Region p n

/-- From `k` to `k'` the slot `child` was taken, and the thread there queued. -/
structure Joins (child : Nat) (k k' : Kernel) : Prop where
  free : k.sched.status child = .free
  le : child ≤ maxThreadCount
  sched : k'.sched = pushRq child (k.sched.setStatus child .active)

theorem fork_joins {child : Nat} (h : fork cpu k = some (child, k')) : Joins child k k' := by
  obtain ⟨hfree, hle, hs⟩ := threadCreate_spec (fork_sched h)
  exact ⟨hfree, hle, hs⟩

/-- The number of a slot is not negative. -/
theorem toInt_forked {child : Nat} (hle : child ≤ maxThreadCount) :
    toInt (tpf.forked child).x0.toNat = child := by
  unfold maxThreadCount at hle
  simp only [Trapframe.forked, BitVec.toNat_ofNat]
  unfold toInt
  rw [Nat.mod_eq_of_lt (by omega)]
  exact Int.bmod_eq_of_le (by omega) (by omega)

theorem not_forkFails (hcall : tpf.x8.toNat = 4) : ¬ ForkFails k (sync64Router env tpf k).2 := by
  intro ⟨tpf', k', hr, hneg, _⟩
  obtain ⟨child, hf, rfl⟩ := (sync64Router_fork hcall).1 hr
  rw [toInt_forked (fork_joins hf).le] at hneg
  omega

/-- **`fork` never fails**, whatever slots and memory are left.  Without a free slot it goes on
through the `NULL` of `thread_create`, into the program's own page at 0, and is not followed.  If it
comes back, also when `kmalloc` answered `NULL` on the way, it returns the number of a child that
took a slot and was queued. -/
theorem fork_neverFails (env : Answers) (tpf : Trapframe) (k : Kernel) (hcall : tpf.x8.toNat = 4) :
    ¬ ForkFails k (sync64Router env tpf k).2 ∧
      ((∀ th ≤ maxThreadCount, k.sched.status th ≠ .free) → (sync64Router env tpf k).2 = none) ∧
      ∀ tpf' k', (sync64Router env tpf k).2 = some (tpf', k') →
        ∃ child : Nat, toInt tpf'.x0.toNat = child ∧ Joins child k k' := by
  have hret : ∀ tpf' k', (sync64Router env tpf k).2 = some (tpf', k') →
      ∃ child : Nat, toInt tpf'.x0.toNat = child ∧ Joins child k k' := by
    intro tpf' k' hr
    obtain ⟨child, hf, rfl⟩ := (sync64Router_fork hcall).1 hr
    have hj := fork_joins hf
    exact ⟨child, toInt_forked hj.le, hj⟩
  constructor
  · exact not_forkFails hcall
  constructor
  · intro hfull
    cases hr : (sync64Router env tpf k).2 with
    | none => rfl
    | some r =>
        obtain ⟨child, -, hj⟩ := hret r.1 r.2 hr
        exact absurd hj.free (hfull child hj.le)
  · exact hret

/-! ## running out of memory -/

open Classical in
/-- Where no block starts. -/
noncomputable def vacancies (k : Kernel) : Finset Nat :=
  (Finset.range memorySize).filter fun i => ¬ Live k (buddyMemoryBase + i)

theorem mem_vacancies {i : Nat} : i ∈ vacancies k ↔ i < memorySize ∧ ¬ Live k (buddyMemoryBase + i) := by
  simp only [vacancies, Finset.mem_filter, Finset.mem_range]

/-- A new block takes a place. -/
theorem vacancies_lt {p n : Nat} (hs : k'.alloc.Settled) (h : k.alloc.Adds k'.alloc p n) :
    (vacancies k').card < (vacancies k).card := by
  have hp : k'.alloc.Region p n := (h.region _ _).2 (Or.inr ⟨rfl, rfl⟩)
  obtain ⟨hpos, hlo, hhi⟩ := hs.managed hp
  have haddr : buddyMemoryBase + (p - buddyMemoryBase) = p := Nat.add_sub_cancel' hlo
  have hmem : p - buddyMemoryBase ∈ vacancies k :=
    mem_vacancies.2 ⟨by omega, haddr.symm ▸ fun ⟨m, hm⟩ => h.fresh m hm⟩
  have hnot : p - buddyMemoryBase ∉ vacancies k' := fun hv => (mem_vacancies.1 hv).2 (haddr.symm ▸ ⟨n, hp⟩)
  have hsub : vacancies k' ⊆ vacancies k := by
    intro i hi
    obtain ⟨hlt, hdead⟩ := mem_vacancies.1 hi
    exact mem_vacancies.2 ⟨hlt, fun ⟨m, hm⟩ => hdead ⟨m, (h.region _ _).2 (Or.inl hm)⟩⟩
  exact Finset.card_lt_card ((Finset.ssubset_iff_of_subset hsub).2 ⟨_, hmem, hnot⟩)

/-- Only memory was taken. -/
structure OnlyTakes (k k' : Kernel) : Prop where
  settled : k'.alloc.Settled
  oom : k'.oom = k.oom
  sched : k'.sched = k.sched
  procs : k'.procs = k.procs

/-- A request of the rest of the kernel: it is refused, or there is less memory then. -/
theorem take_or_refuses {size : Nat} (hs : k.alloc.Settled) (hle : size ≤ maxRequest) :
    k.alloc.Refuses size ∨ ∃ k', take size k = some ((), k') ∧ OnlyTakes k k' ∧
      (vacancies k').card < (vacancies k).card := by
  obtain ⟨T, hT⟩ := hs
  obtain ⟨p, a, hres, hout⟩ := hT.kmalloc size
  cases hout with
  | inl hnull => exact Or.inl ((hT.kmalloc_null_iff hres).1 hnull.1)
  | inr hsome =>
      obtain ⟨hp, hadds, T', hT', -⟩ := hsome
      have hmod : size % 2 ^ 32 = size := Nat.mod_eq_of_lt (by unfold maxRequest frameSize at hle; omega)
      have htake : take size k = some ((), { k with alloc := a, misc := (p, size) :: k.misc }) := by
        unfold take
        refine guard_some.2 ⟨by omega, bind_some.2 ⟨p, { k with alloc := a }, ?_, ?_⟩⟩
        · exact kmalloc_some.2 ⟨a, hmod.symm ▸ hres, by simp [hp]⟩
        · rw [if_pos hp]
          rfl
      exact Or.inr ⟨_, htake, ⟨⟨T', hT'⟩, rfl, rfl, rfl⟩, vacancies_lt ⟨T', hT'⟩ hadds⟩

/-- The rest of the kernel takes pages. -/
def TakesPage (_ : Kernel) (a : Nat × KernelAct) : Prop := a.2 = .take 0x1000

/-- When it goes on taking pages, there is none left in the end. -/
theorem runs_out (hs : k.alloc.Settled) :
    ∃ k', Reach kernelStep TakesPage k k' ∧ OnlyTakes k k' ∧ k'.alloc.Refuses 0x1000 := by
  have hstep : ∀ k₁, OnlyTakes k k₁ → k₁.alloc.Refuses 0x1000 ∨ ∃ a k₂, TakesPage k₁ a ∧
      kernelStep k₁ a = some k₂ ∧ OnlyTakes k k₂ ∧ (vacancies k₂).card < (vacancies k₁).card := by
    intro k₁ h₁
    cases take_or_refuses h₁.settled (by decide : 0x1000 ≤ maxRequest) with
    | inl href => exact Or.inl href
    | inr htake =>
        obtain ⟨k₂, ht, h₂, hlt⟩ := htake
        have hperform : kernelStep k₁ (0, .take 0x1000) = some k₂ :=
          kernelStep_of trivial (congrArg (Option.map Prod.snd) ht)
        exact Or.inr ⟨(0, .take 0x1000), k₂, rfl, hperform,
          ⟨h₂.settled, h₂.oom.trans h₁.oom, h₂.sched.trans h₁.sched, h₂.procs.trans h₁.procs⟩, hlt⟩
  exact Reach.of_decreasing (fun k => (vacancies k).card) hstep ⟨hs, rfl, rfl, rfl⟩

/-- Without a page there is nothing larger. -/
theorem kmalloc_refused {a : Alloc} {size : Nat} (hs : a.Settled) (href : a.Refuses 0x1000) (h0 : size ≠ 0) :
    RpiKernel.kmalloc size a = some (0, a) := by
  obtain ⟨T, hT⟩ := hs
  have horder : size2order 0x1000 = 0 := by decide
  rw [kmalloc_pos h0, hT.mallocB_null fun i k _ => href.noBlock i k (horder ▸ Nat.zero_le k)]

/-- `thread_create` clears the page table that it did not get. -/
theorem fork_refused (hnull : ∀ size, size ≠ 0 → RpiKernel.kmalloc size k.alloc = some (0, k.alloc))
    (hsize : (k.procs k.sched.currThread).datasize % 2 ^ 32 ≠ 0) : fork cpu k = none := by
  cases hf : fork cpu k with
  | none => rfl
  | some r =>
      obtain ⟨child, k'⟩ := r
      obtain ⟨k₁, k₂, k₃, k₄, hc, -⟩ := fork_some hf
      obtain ⟨s, b, a, -, hgrants, hmapped, -⟩ := threadCreate_some hc
      have hpositive : ∀ q ∈ b.requests (k.procs k.sched.currThread).datasize, q.1 % 2 ^ 32 ≠ 0 := by
        simp only [NewThread.requests, List.mem_cons, List.not_mem_nil, or_false, forall_eq_or_imp, forall_eq]
        exact ⟨by decide, by decide, by decide, hsize, by decide⟩
      have hpgd : b.pgd = 0 := hgrants.refused hnull hpositive (0x1000, b.pgd) (by simp [NewThread.requests])
      rw [hpgd] at hmapped
      exact absurd hmapped (by decide)

/-- The trapframe of `fork`. -/
def forkTrapframe : Trapframe := ⟨0, 0, 0, 0, 0, 0, 4, 0, 0⟩

/-- A kernel all of whose slots are taken. -/
def fullKernel : Kernel := { smallKernel with sched := { schedInit with threads := fun _ => ⟨.active, none, none⟩ } }

theorem fork_neverFails_full : ¬ ForkFails fullKernel (sync64Router (fileAnswers none) forkTrapframe fullKernel).2 ∧
    (sync64Router (fileAnswers none) forkTrapframe fullKernel).2 = none := by
  have h := fork_neverFails (fileAnswers none) forkTrapframe fullKernel (by decide)
  exact ⟨h.1, h.2.1 fun th _ hfree => by cases hfree⟩

/-- The first program forks when the rest of the kernel has taken all pages: a slot is free, and
`kmalloc` answers `NULL` to all that `thread_create` asks for. -/
theorem fork_starved : ∃ k₀ k : Kernel, k₀.Booted 0 1 ⟨0, .uart⟩ ∧ Reach kernelStep TakesPage k₀ k ∧
    k.oom = false ∧ k.sched.status 2 = .free ∧
    (∀ size, size ≠ 0 → RpiKernel.kmalloc size k.alloc = some (0, k.alloc)) ∧
    (sync64Router (fileAnswers none) forkTrapframe k).2 = none ∧
    ¬ ForkFails k (sync64Router (fileAnswers none) forkTrapframe k).2 := by
  obtain ⟨k₀, hb, hroom, hoom⟩ := smallBooted ⟨0, .uart⟩ (by decide : 1 ≤ 0x4000)
  obtain ⟨k, hr, htakes, href⟩ := runs_out hroom.settled
  have hfree : k.sched.status 2 = .free := by
    rw [htakes.sched, hb.sched]
    decide
  have hnull : ∀ size, size ≠ 0 → RpiKernel.kmalloc size k.alloc = some (0, k.alloc) := fun size h0 =>
    kmalloc_refused htakes.settled href h0
  have hsize : (k.procs k.sched.currThread).datasize = 1 := by
    obtain ⟨k₁, -, hx⟩ := hb
    obtain ⟨b, a, p, table, a₁, a₂, a₃, a₄, a₅, -, -, hp⟩ := threadExec_loads hx
    rw [htakes.sched, htakes.procs, hp]
    rfl
  have hnone : (sync64Router (fileAnswers none) forkTrapframe k).2 = none := by
    cases hs : (sync64Router (fileAnswers none) forkTrapframe k).2 with
    | none => rfl
    | some r =>
        obtain ⟨child, hf, -⟩ := (sync64Router_fork (by decide)).1 (hs : _ = some (r.1, r.2))
        rw [fork_refused hnull (by rw [hsize]; decide)] at hf
        cases hf
  exact ⟨k₀, k, hb, hr, htakes.oom.trans hoom, hfree, hnull, hnone, not_forkFails (by decide)⟩

end Kernel

end RpiKernel
