import RpiKernel.Process.ForkReturns
import RpiKernel.Process.Isolation

/-!
# RpiKernel.Process.Handles

The handles in the tables of files: each of them is a live block that one entry
refers to and nothing else (`FilesOwned`), as long as forks are in order.

`kill_zombies` frees the handles of a thread but leaves them in its table, and
`thread_create` does not clear the table.  A `fork` into the slot overwrites the
entries that the parent has, and leaves the others (`kernelRun_files_stale`).
-/

namespace RpiKernel

open Custody Sched Runs

namespace Kernel

variable {k k' k₀ : Kernel} {t u n i j : Nat} {size : Nat → Nat} {table : Nat → Nat} {is : List Nat}

/-- An entry of a thread refers to a handle. -/
structure Opened (k : Kernel) (t i : Nat) : Prop where
  alive : k.sched.status t ≠ .free
  le : i ≤ maxFd
  ne : (k.procs t).fileDescriptorsTable i ≠ 0

/-- What a thread holds besides its files. -/
def otherBlocks (w : Nat → Nat) (p : Process) : Blocks :=
  areaBlocks (fun _ => 0) p.vmaList ++
    (ownBlock p.kernelSp kstackSize ++ tableBlocks w (physToVirt p.context.pgd))

/-- Every handle is a live block, one entry refers to it, and it is nothing else. -/
structure FilesOwned (k : Kernel) : Prop where
  live : ∀ t i, Opened k t i →
    ∃ n, k.alloc.Region ((k.procs t).fileDescriptorsTable i) n ∧ fileBytes ≤ n
  distinct : ∀ t i u j, Opened k t i → Opened k u j →
    (k.procs t).fileDescriptorsTable i = (k.procs u).fileDescriptorsTable j → t = u ∧ i = j
  other : ∀ t i, Opened k t i → (k.procs t).fileDescriptorsTable i ∉ addrs k.misc ∧
    ∀ u, Living k u → (k.procs t).fileDescriptorsTable i ∉ addrs (otherBlocks k.words (k.procs u))

/-! ## from owners to handles -/

theorem blocks_files (w : Nat → Nat) (p : Process) : (p.blocks (fun _ => 0) w).Perm
    (fileBlocks p.fileDescriptorsTable (List.range (maxFd + 1)) ++ otherBlocks w p) := by
  refine perm_of_count fun e => ?_
  simp only [Process.blocks, otherBlocks, List.count_append]
  omega

theorem mem_fileBlocks (hi : i ∈ is) (h0 : table i ≠ 0) :
    (table i, fileBytes) ∈ fileBlocks table is := by
  refine List.mem_flatMap.2 ⟨i, hi, ?_⟩
  rw [ownBlock_of_ne h0]
  exact List.mem_singleton_self _

/-- Handles at different addresses are in different entries. -/
theorem fileBlocks_inj (hnd : (addrs (fileBlocks table is)).Nodup) (hi : i ∈ is) (hj : j ∈ is)
    (h0 : table i ≠ 0) (he : table i = table j) : i = j := by
  induction is with
  | nil => cases hi
  | cons x is ih =>
      rw [fileBlocks_cons, addrs_append, List.nodup_append] at hnd
      have hx (m : Nat) (hm : m ∈ is) (hm0 : table m ≠ 0) : table x ≠ table m := by
        intro hxm
        have hin : table m ∈ addrs (fileBlocks table is) := mem_addrs.2 ⟨_, mem_fileBlocks hm hm0⟩
        refine hnd.2.2 (table x) ?_ (table m) hin hxm
        rw [ownBlock_of_ne (hxm ▸ hm0)]
        exact List.mem_singleton_self _
      cases List.mem_cons.1 hi with
      | inl hix =>
          cases List.mem_cons.1 hj with
          | inl hjx => rw [hix, hjx]
          | inr hj' => exact absurd (hix ▸ he) (hx j hj' (he ▸ h0))
      | inr hi' =>
          cases List.mem_cons.1 hj with
          | inl hjx => exact absurd (hjx ▸ he.symm) (hx i hi' h0)
          | inr hj' => exact ih hnd.2.1 hi' hj'

theorem Kept.opened_living (h : Kept size k) (ho : Opened k t i) : Living k t :=
  ⟨fun h0 => ho.ne (h0 ▸ h.idle i), ho.alive⟩

theorem Opened.mem_blocks (ho : Opened k t i) (w : Nat → Nat) :
    ((k.procs t).fileDescriptorsTable i, fileBytes) ∈ (k.procs t).blocks size w := by
  have hi : i ∈ List.range (maxFd + 1) := List.mem_range.2 (Nat.lt_succ_of_le ho.le)
  exact List.mem_append_right _ (List.mem_append_left _ (mem_fileBlocks hi ho.ne))

/-- Who has blocks of their own has handles of their own. -/
theorem Kept.filesOwned (h : Kept (fun _ => 0) k) : FilesOwned k := by
  have hheld (t i : Nat) (ho : Opened k t i) :
      ((k.procs t).fileDescriptorsTable i, fileBytes) ∈ held (fun _ => 0) k (some t) := by
    rw [held_living (h.opened_living ho)]
    exact ho.mem_blocks k.words
  have hnodup (t : Nat) (ht : Living k t) : (addrs (fileBlocks (k.procs t).fileDescriptorsTable
      (List.range (maxFd + 1)) ++ otherBlocks k.words (k.procs t))).Nodup := by
    have hnd := h.shares.nodup (some t)
    rw [held_living ht] at hnd
    exact ((blocks_files k.words (k.procs t)).map Prod.fst).nodup_iff.1 hnd
  refine ⟨fun t i ho => ?_, fun t i u j ho ho' he => ?_, fun t i ho => ⟨fun hm => ?_, fun u hu hm => ?_⟩⟩
  · exact h.shares.backed (some t) _ (hheld t i ho)
  · by_cases htu : t = u
    · subst htu
      have hnd := hnodup t (h.opened_living ho)
      rw [addrs_append, List.nodup_append] at hnd
      exact ⟨rfl, fileBlocks_inj hnd.1 (List.mem_range.2 (Nat.lt_succ_of_le ho.le))
        (List.mem_range.2 (Nat.lt_succ_of_le ho'.le)) ho.ne he⟩
    · have htu' : some t ≠ some u := fun hs => htu (Option.some.inj hs)
      exact absurd he (h.shares.apart _ _ htu' _ (hheld t i ho) _ (hheld u j ho'))
  · obtain ⟨m, hm⟩ := mem_addrs.1 hm
    have happart := h.shares.apart (some t) none nofun
    exact happart _ (hheld t i ho) _ hm rfl
  · obtain ⟨m, hm'⟩ := mem_addrs.1 hm
    by_cases htu : t = u
    · subst htu
      have hnd := hnodup t hu
      rw [addrs_append, List.nodup_append] at hnd
      have hi : i ∈ List.range (maxFd + 1) := List.mem_range.2 (Nat.lt_succ_of_le ho.le)
      exact hnd.2.2 _ (mem_addrs.2 ⟨_, mem_fileBlocks hi ho.ne⟩) _ hm rfl
    · have htu' : some t ≠ some u := fun hs => htu (Option.some.inj hs)
      have hin : ((k.procs t).fileDescriptorsTable i, m) ∈ held (fun _ => 0) k (some u) := by
        rw [held_living hu]
        exact (blocks_files k.words (k.procs u)).mem_iff.2 (List.mem_append_right _ hm')
      exact h.shares.apart _ _ htu' _ (hheld t i ho) _ hin rfl

/-! ## a slot that is used again -/

theorem Opens.opened {flags : Nat} {node : VnodeRef} (h : Opens t i node flags k k') :
    (k'.procs t).fileDescriptorsTable i ≠ 0 := by
  obtain ⟨f, k₁, hn, rfl⟩ := h
  rw [setProc_procs]
  show Function.update _ _ _ _ ≠ 0
  rw [Function.update_self]
  exact hn.ne

/-- A program starts with a handle at entry 0. -/
theorem Booted.stdin {data filesize : Nat} {uart : VnodeRef} (h : k.Booted data filesize uart) :
    (k.procs k.sched.currThread).fileDescriptorsTable 0 ≠ 0 := by
  obtain ⟨k₀, -, hx⟩ := h
  obtain ⟨t, k₁, k₂, k₃, k₄, k₅, mem, -, -, -, h₄, h₅, h₆⟩ := threadExec_some hx
  have hcurr : k.sched.currThread = t := by
    rw [((h₄.frame.trans h₅.frame).trans h₆.frame).sched]
    rfl
  rw [hcurr, h₆.entry (by decide), h₅.entry (by decide)]
  exact h₄.opened

theorem Booted.files_other {data filesize : Nat} {uart : VnodeRef} (h : k.Booted data filesize uart)
    (ht : t ≠ k.sched.currThread) : (k.procs t).fileDescriptorsTable i = 0 := by
  obtain ⟨k₀, hk, hx⟩ := h
  rw [(threadExec_procs hx).1 t ht]
  exact hk.files t i

/-- An entry that is not `NULL` stays so. -/
theorem CopiesFile.keeps {parent : Nat} (h : CopiesFile parent t j k k')
    (h0 : (k.procs t).fileDescriptorsTable i ≠ 0) : (k'.procs t).fileDescriptorsTable i ≠ 0 := by
  rcases h with ⟨-, rfl⟩ | ⟨-, f, k₁, hn, rfl⟩
  · exact h0
  · rw [setProc_procs, hn.procs]
    show Function.update _ _ _ _ ≠ 0
    by_cases hij : i = j
    · rw [hij, Function.update_self]
      exact hn.ne
    · rwa [Function.update_of_ne hij]

theorem CopiesFile.present {parent : Nat} (h : CopiesFile parent t i k k')
    (h0 : (k.procs parent).fileDescriptorsTable i ≠ 0) : (k'.procs t).fileDescriptorsTable i ≠ 0 := by
  rcases h with ⟨hz, -⟩ | ⟨-, f, k₁, hn, rfl⟩
  · exact absurd hz h0
  · rw [setProc_procs]
    show Function.update _ _ _ _ ≠ 0
    rw [Function.update_self]
    exact hn.ne

theorem CopiesFile.parent {parent : Nat} (h : CopiesFile parent t i k k') (hne : parent ≠ t) :
    k'.procs parent = k.procs parent := h.frame.other parent hne

theorem copyFiles_keeps {parent : Nat} (h : copyFiles parent t is k = some ((), k'))
    (h0 : (k.procs t).fileDescriptorsTable i ≠ 0) : (k'.procs t).fileDescriptorsTable i ≠ 0 := by
  induction is generalizing k with
  | nil =>
      unfold copyFiles at h
      obtain ⟨-, rfl⟩ := Prod.mk.inj (pure_some.1 h)
      exact h0
  | cons j is ih =>
      obtain ⟨k₁, hc, hrun⟩ := copyFiles_cons h
      exact ih hrun (hc.keeps h0)

/-- An entry of the parent is copied. -/
theorem copyFiles_present {parent : Nat} (hne : parent ≠ t) (hi : i ∈ is)
    (h0 : (k.procs parent).fileDescriptorsTable i ≠ 0) (h : copyFiles parent t is k = some ((), k')) :
    (k'.procs t).fileDescriptorsTable i ≠ 0 := by
  induction is generalizing k with
  | nil => cases hi
  | cons j is ih =>
      obtain ⟨k₁, hc, hrun⟩ := copyFiles_cons h
      cases List.mem_cons.1 hi with
      | inl hij =>
          subst hij
          exact copyFiles_keeps hrun (hc.present h0)
      | inr hi' => exact ih hi' (by rw [hc.parent hne]; exact h0) hrun

/-- After `fork` the registers of the parent are saved, and nothing else of it
has changed. -/
theorem fork_parent {cpu : ThreadContext} {child : Nat} (hne : k.sched.currThread ≠ child)
    (h : fork cpu k = some (child, k')) :
    k'.procs k.sched.currThread = (k.procs k.sched.currThread).save cpu := by
  obtain ⟨k₁, k₂, k₃, k₄, h₁, h₂, h₃, h₄, -, -, rfl⟩ := fork_some h
  obtain ⟨s, b, a, -, -, -, rfl⟩ := threadCreate_some h₁
  have hf := ((copyFiles_frame h₂).trans (copyAreas_frame h₃)).trans (addFixedAreas_frame h₄)
  rw [setProc_procs_other _ hne, setProc_procs]
  dsimp only
  rw [hf.other _ hne, setProc_procs_other _ hne, setProc_procs_other _ hne, took]

/-- The child has a handle wherever the parent has. -/
theorem fork_present {cpu : ThreadContext} {child : Nat} (hne : k.sched.currThread ≠ child)
    (hi : i ≤ maxFd) (h0 : (k.procs k.sched.currThread).fileDescriptorsTable i ≠ 0)
    (h : fork cpu k = some (child, k')) : (k'.procs child).fileDescriptorsTable i ≠ 0 := by
  obtain ⟨k₁, k₂, k₃, k₄, h₁, h₂, h₃, h₄, -, -, hk'⟩ := fork_some h
  obtain ⟨s, b, a, -, -, -, rfl⟩ := threadCreate_some h₁
  rw [fork_table hne h₃ h₄ hk']
  refine copyFiles_present hne (List.mem_range.2 (Nat.lt_succ_of_le hi)) ?_ h₂
  rw [setProc_procs_other _ hne, setProc_procs_other _ hne, took]
  exact h0

/-- A handle that was freed and that the parent does not overwrite: no block of the
child can be at its address but another of the child's own. -/
theorem fork_stale {cpu : ThreadContext} {child : Nat} (h : KernelOk (fun _ => 0) k)
    (hhome : OneHome (k.procs k.sched.currThread).vmaList) (hf : fork cpu k = some (child, k'))
    (hi : i ≤ maxFd) (h0 : (k.procs k.sched.currThread).fileDescriptorsTable i = 0)
    (hstale : (k.procs child).fileDescriptorsTable i ≠ 0)
    (hdead : ¬ Live k ((k.procs child).fileDescriptorsTable i)) : ¬ FilesOwned k' := by
  intro hown
  obtain ⟨hfree, -, hs⟩ := threadCreate_spec (fork_sched hf)
  have hne : k.sched.currThread ≠ child := fun he => h.sched.curr (he ▸ hfree)
  have hview := h.view (some child)
  rw [held_free fun hl => hl.2 hfree] at hview
  obtain ⟨lost, hone, hchild, -⟩ := fork_copies hne hhome.single (fun _ _ _ => covers_zero _) (covers_zero _)
    (h.last _) hview hf
  obtain rfl := hone hhome
  have hentry := fork_absent hne h0 hf
  have halive : k'.sched.status child ≠ .free := by
    rw [hs]
    simp
  have hopened : Opened k' child i := ⟨halive, hi, hentry ▸ hstale⟩
  have hliving : Living k' child := by
    refine ⟨fun he => ?_, halive⟩
    obtain ⟨xs, hinv⟩ := h.sched
    exact hinv.idle_alive (he ▸ hfree)
  obtain ⟨n, hn, -⟩ := hown.live child i hopened
  have hholds := hchild.holds.holds
  rw [setProc_procs, List.append_nil, List.append_nil, setProc_alloc, setProc_words] at hholds
  cases hholds.total _ n hn with
  | inl hbase => exact hdead (hentry ▸ ⟨n, hbase.1⟩)
  | inr hm =>
      obtain ⟨m, hm⟩ := mem_addrs.1 hm
      cases List.mem_append.1 ((blocks_files k'.words _).mem_iff.1 hm) with
      | inr hother => exact (hown.other child i hopened).2 child hliving (mem_addrs.2 ⟨m, hother⟩)
      | inl hfile =>
          -- another entry of the child, which the parent has
          obtain ⟨j, hj, hm⟩ := List.mem_flatMap.1 hfile
          have he := mem_ownBlock (mem_addrs.2 ⟨m, hm⟩)
          by_cases hz : (k.procs k.sched.currThread).fileDescriptorsTable j = 0
          · exact hopened.ne (he.trans (if_pos hz))
          · have he' := he.trans (if_neg hz)
            have hopened' : Opened k' child j :=
              ⟨halive, Nat.le_of_lt_succ (List.mem_range.1 hj), he' ▸ hopened.ne⟩
            have hij := (hown.distinct child i child j hopened hopened' he').2
            exact hz (hij ▸ h0)

/-- A handle is closed. -/
theorem close_returns {fd : Nat} (hroom : k.alloc.Room n) (hfd : fd ≤ maxFd)
    (h0 : (k.procs k.sched.currThread).fileDescriptorsTable fd ≠ 0)
    (hl : Live k ((k.procs k.sched.currThread).fileDescriptorsTable fd)) :
    ∃ a : Alloc, close fd k = some (true, ({ k with alloc := a } : Kernel).setProc k.sched.currThread
      (Process.setFile fd 0)) ∧ a.Room n ∧ ∀ q, Live { k with alloc := a } q → Live k q := by
  obtain ⟨a, hfree, hroom', hlive⟩ := kfree_live hroom hl
  refine ⟨a, ?_, hroom', fun q hq => ((hlive q).1 hq).1⟩
  unfold close
  rw [guard_some]
  refine ⟨by omega, ?_⟩
  simp only [currThread_bind, proc_bind, Int.toNat_natCast, if_neg h0]
  exact bind_some.2 ⟨(), _, kfree_some.2 ⟨a, hfree, rfl⟩, rfl⟩

theorem kernelStep_schedule {s : Sched} (h : RpiKernel.schedule n k.sched = some s) :
    kernelStep k (n, .schedule) = some { k with sched := s } := by
  refine kernelStep_of trivial ?_
  have hs : onSched (RpiKernel.schedule n) k = some ((), { k with sched := s }) := onSched_some.2 ⟨s, h, rfl⟩
  exact congrArg (Option.map Prod.snd) hs

theorem kernelStep_kill {pid : Int} {s : Sched} (hen : k.sched.currThread ≠ 0)
    (h : RpiKernel.kill n pid k.sched = some s) :
    kernelStep k (n, .kill pid) = some { k with sched := s } := by
  refine kernelStep_of hen ?_
  have hs : onSched (RpiKernel.kill n pid) k = some ((), { k with sched := s }) := onSched_some.2 ⟨s, h, rfl⟩
  exact congrArg (Option.map Prod.snd) hs

/-- Twice the idle thread runs, a child is made, killed and reaped, and a child is
made again: it gets the same slot. -/
theorem schedBoot_reuse : ∃ s₁ s₂ s₃ s₄ s₅ s₆ s₇, RpiKernel.schedule 9 schedBoot = some s₁ ∧
    RpiKernel.schedule 9 s₁ = some s₂ ∧ RpiKernel.threadCreate s₂ = some (2, s₃) ∧
    RpiKernel.kill 9 2 s₃ = some s₄ ∧ RpiKernel.killZombies 9 s₄ = some s₅ ∧
    RpiKernel.schedule 9 s₅ = some s₆ ∧ RpiKernel.threadCreate s₆ = some (2, s₇) ∧
    s₂.currThread = 1 ∧ s₃.currThread = 1 ∧ s₄.currThread = 0 ∧ s₄.status 0 ≠ .zombie ∧
    s₄.status 2 = .zombie ∧ s₅.status 1 ≠ .free ∧ s₅.status 2 = .free ∧ s₆.currThread = 1 := by
  have hrun : ((RpiKernel.schedule 9 schedBoot).bind fun s₁ => (RpiKernel.schedule 9 s₁).bind fun s₂ =>
      (RpiKernel.threadCreate s₂).bind fun r₃ => (RpiKernel.kill 9 2 r₃.2).bind fun s₄ =>
      (RpiKernel.killZombies 9 s₄).bind fun s₅ => (RpiKernel.schedule 9 s₅).bind fun s₆ =>
      (RpiKernel.threadCreate s₆).map fun r₇ =>
        ([r₃.1, r₇.1, s₂.currThread, r₃.2.currThread, s₄.currThread, s₆.currThread],
          [s₄.status 0, s₄.status 2, s₅.status 1, s₅.status 2])) =
      some ([2, 2, 1, 1, 0, 1], [.active, .zombie, .active, .free]) := by decide +kernel
  simp only [Option.bind_eq_some_iff, Option.map_eq_some_iff, Prod.exists, Prod.mk.injEq, List.cons.injEq,
    and_true] at hrun
  obtain ⟨s₁, h₁, s₂, h₂, t₃, s₃, h₃, s₄, h₄, s₅, h₅, s₆, h₆, t₇, s₇, h₇, ⟨rfl, rfl, c₂, c₃, c₄, c₆⟩, z₀, z₂, f₁,
    f₂⟩ := hrun
  refine ⟨s₁, s₂, s₃, s₄, s₅, s₆, s₇, h₁, h₂, h₃, h₄, h₅, h₆, h₇, c₂, c₃, c₄, ?_, z₂, ?_, f₂, c₆⟩
  · rw [z₀]
    decide
  · rw [f₁]
    decide

/-- A fork into a slot without handles. -/
theorem forksWell_of_empty {cpu : ThreadContext} {child : Nat} {s : Sched}
    (hhome : OneHome (k.procs k.sched.currThread).vmaList)
    (hempty : ∀ i, (k.procs child).fileDescriptorsTable i = 0)
    (hs : RpiKernel.threadCreate k.sched = some (child, s)) : ForksWell k (.fork cpu) := by
  refine ⟨hhome, fun c s' hc i _ _ => ?_⟩
  rw [hs] at hc
  obtain ⟨rfl, -⟩ := Prod.mk.inj (Option.some.inj hc)
  exact hempty i

/-- A child that is made, killed and reaped leaves its handles, which are freed, in
its slot. -/
theorem reaped_stale {child m : Nat} {s₃ s₄ s₅ : Sched} (h : KernelOk (fun _ => 0) k) (hoom : k.oom = false)
    (hroom : k.alloc.Room (n + forkRoom (k.procs k.sched.currThread).vmaList))
    (hp : Forkable (k.procs k.sched.currThread)) (hhome : OneHome (k.procs k.sched.currThread).vmaList)
    (hfile : (k.procs k.sched.currThread).fileDescriptorsTable 0 ≠ 0)
    (hempty : ∀ i, (k.procs child).fileDescriptorsTable i = 0) (hcurr : k.sched.currThread ≠ 0)
    (h₃ : RpiKernel.threadCreate k.sched = some (child, s₃)) (c₃ : s₃.currThread = k.sched.currThread)
    (h₄ : RpiKernel.kill m child s₃ = some s₄) (c₄ : s₄.currThread = 0) (z₀ : s₄.status 0 ≠ .zombie)
    (z₂ : s₄.status child = .zombie) (h₅ : RpiKernel.killZombies m s₄ = some s₅)
    (f₁ : s₅.status k.sched.currThread ≠ .free) (f₂ : s₅.status child = .free) :
    ∃ k' cpu, run kernelStep k [(m, .fork cpu), (m, .kill child), (m, .killZombies)] = some k' ∧
      KernelOk (fun _ => 0) k' ∧ k'.alloc.Room n ∧
      k'.oom = false ∧ k'.sched = s₅ ∧
      k'.procs k.sched.currThread = (k.procs k.sched.currThread).save cpu ∧
      (k'.procs child).fileDescriptorsTable 0 ≠ 0 ∧
      ¬ Live k' ((k'.procs child).fileDescriptorsTable 0) := by
  obtain ⟨hfree, -, -⟩ := threadCreate_spec h₃
  have hne : k.sched.currThread ≠ child := fun he => h.sched.curr (he ▸ hfree)
  -- the child is made
  let cpu : ThreadContext := ⟨fun _ => 0, 0, 0, 0, 0⟩
  obtain ⟨c, k₃, hf, hroom₃, hoom₃, hc⟩ : Returns (fork cpu) k n fun r _ => r = child :=
    fork_returns hroom hoom h₃ hp
  rw [hc] at hf
  have hs₃ : k₃.sched = s₃ := by
    have hs := fork_sched hf
    rw [h₃] at hs
    exact (Prod.mk.inj (Option.some.inj hs)).2.symm
  have hstep₃ : kernelStep k (m, .fork cpu) = some k₃ :=
    kernelStep_of hcurr (congrArg (Option.map Prod.snd) hf)
  have hok₃ := h.next_zero (forksWell_of_empty hhome hempty h₃) hstep₃
  have hparent := fork_parent hne hf
  have hpresent := fork_present hne (Nat.zero_le _) hfile hf
  -- it is killed
  have hcurr₃ : k₃.sched.currThread ≠ 0 := by
    rw [hs₃, c₃]
    exact hcurr
  have hstep₄ := kernelStep_kill (k := k₃) hcurr₃ (hs₃ ▸ h₄)
  have hwell₄ : ForksWell k₃ (.kill child) := trivial
  have hok₄ := hok₃.next_zero hwell₄ hstep₄
  generalize hk₄ : ({ k₃ with sched := s₄ } : Kernel) = k₄ at hstep₄ hok₄
  have hs₄ : k₄.sched = s₄ := by rw [← hk₄]
  have hprocs₄ : k₄.procs = k₃.procs := by rw [← hk₄]
  have hroom₄ : k₄.alloc.Room n := by
    rw [← hk₄]
    exact hroom₃
  -- and reaped
  have hz : k₄.sched.status 0 ≠ .zombie := hs₄ ▸ z₀
  have hloop : RpiKernel.killZombiesLoop m k₄.sched.rqHead k₄.sched = some s₅ := hs₄ ▸ h₅
  obtain ⟨k₅, hrun, -, hroom₅, hregion⟩ := hok₄.toKept.killZombiesLoop hz hloop
  obtain ⟨hsched, -, hoom₅, -, hout⟩ := killZombiesLoop_some hrun
  have hs₅ : k₅.sched = s₅ := Option.some.inj (hsched.symm.trans hloop)
  have hidle : k₄.sched.currThread = 0 := hs₄ ▸ c₄
  have hstep₅ : kernelStep k₄ (m, .killZombies) = some k₅ :=
    kernelStep_of hidle (congrArg (Option.map Prod.snd) hrun)
  have hwell₅ : ForksWell k₄ .killZombies := trivial
  have hok₅ := hok₄.next_zero hwell₅ hstep₅
  have hreach : run kernelStep k [(m, .fork cpu), (m, .kill child), (m, .killZombies)] = some k₅ := by
    rw [run_cons _ hstep₃, run_cons _ hstep₄, run_cons _ hstep₅]
    rfl
  have htable : (k₅.procs child).fileDescriptorsTable = (k₃.procs child).fileDescriptorsTable := by
    rw [← hprocs₄]
    rcases hout child with ⟨hproc, -⟩ | ⟨hproc, -⟩
    · rw [hproc]
    · rw [hproc]
      rfl
  refine ⟨k₅, cpu, hreach, hok₅, hroom₅ n hroom₄, ?_, hs₅, ?_, ?_, ?_⟩
  · rw [hoom₅, ← hk₄]
    exact hoom₃.trans hoom
  · rw [← hparent, ← hprocs₄]
    rcases hout k.sched.currThread with ⟨hproc, -⟩ | ⟨-, hst⟩
    · exact hproc
    · exact absurd (hs₅ ▸ hst) f₁
  · rw [htable]
    exact hpresent
  · rintro ⟨q, hq⟩
    have hopened : Opened k₄ child 0 := by
      refine ⟨?_, Nat.zero_le _, by rw [hprocs₄]; exact hpresent⟩
      rw [hs₄, z₂]
      decide
    have hdead := ((hregion _ q).1 hq).2 child (hs₄ ▸ z₂) (hs₅ ▸ f₂)
    refine hdead ?_
    rw [htable, ← hprocs₄]
    exact mem_addrs.2 ⟨_, hopened.mem_blocks k₄.words⟩

/-- The scheduler takes its turn twice. -/
theorem schedule_twice {s₁ s₂ : Sched} (h : KernelOk (fun _ => 0) k)
    (h₁ : RpiKernel.schedule n k.sched = some s₁) (h₂ : RpiKernel.schedule n s₁ = some s₂) :
    run kernelStep k [(n, .schedule), (n, .schedule)] = some { k with sched := s₂ } ∧
      KernelOk (fun _ => 0) { k with sched := s₂ } := by
  have step₁ := kernelStep_schedule h₁
  have step₂ : kernelStep { k with sched := s₁ } (n, .schedule) = some { k with sched := s₂ } :=
    kernelStep_schedule h₂
  have well₁ : ForksWell k .schedule := trivial
  have well₂ : ForksWell { k with sched := s₁ } .schedule := trivial
  exact ⟨by rw [run_cons _ step₁, run_cons _ step₂]; rfl,
    (h.next_zero well₁ step₁).next_zero well₂ step₂⟩

/-- A thread closes an entry that it has. -/
theorem closes_entry {m fd : Nat} (h : KernelOk (fun _ => 0) k) (hroom : k.alloc.Room n)
    (hcurr : k.sched.currThread = t) (ht : t ≠ 0) (hfd : fd ≤ maxFd)
    (h0 : (k.procs t).fileDescriptorsTable fd ≠ 0) :
    ∃ k', kernelStep k (m, .close fd) = some k' ∧ KernelOk (fun _ => 0) k' ∧ k'.alloc.Room n ∧
      k'.oom = k.oom ∧ k'.sched = k.sched ∧ k'.procs t = (k.procs t).setFile fd 0 ∧
      (∀ u ≠ t, k'.procs u = k.procs u) ∧ ∀ q, Live k' q → Live k q := by
  subst hcurr
  have hopened : Opened k k.sched.currThread fd := ⟨h.sched.curr, hfd, h0⟩
  obtain ⟨q, hq, -⟩ := h.filesOwned.live _ fd hopened
  obtain ⟨a, hclose, hroom', hfewer⟩ := close_returns hroom hfd h0 ⟨q, hq⟩
  have hstep := kernelStep_of (n := m) (a := .close fd) ht (congrArg (Option.map Prod.snd) hclose)
  have hwell : ForksWell k (.close fd) := trivial
  refine ⟨_, hstep, h.next_zero hwell hstep, hroom', rfl, rfl, ?_, ?_, hfewer⟩
  · rw [setProc_procs]
  · intro u hu
    rw [setProc_procs_other _ hu]

/-- **A stale handle.**  The first program makes a child, which is killed and reaped,
closes its entry 0 and makes another child. -/
theorem kernelRun_files_stale : ∃ k₀ k : Kernel, k₀.Booted 0 1 ⟨0, .uart⟩ ∧
    Reach kernelStep (fun _ _ => True) k₀ k ∧ k.oom = false ∧ ¬ FilesOwned k := by
  obtain ⟨k₀, hb, hroom, hoom⟩ := smallBooted ⟨0, .uart⟩ (by decide : 1 ≤ 0x4000)
  obtain ⟨s₁, s₂, s₃, s₄, s₅, s₆, s₇, h₁, h₂, h₃, h₄, h₅, h₆, h₇, c₂, c₃, c₄, z₀, z₂, f₁, f₂, c₆⟩ :=
    schedBoot_reuse
  have hcurr := hb.curr
  have hforkable := hb.forkable (by decide : 1 ≤ 0x4000) hoom
  have hhome := hb.oneHome
  have hstdin := hb.stdin
  have hneed := hb.forkRoom_eq
  rw [hcurr] at hforkable hhome hstdin hneed
  -- idle, and the program again
  obtain ⟨hreach₂, ok₂⟩ := schedule_twice hb.ok_zero (by rw [hb.sched]; exact h₁) h₂
  have hprocs₂ : ({ k₀ with sched := s₂ } : Kernel).procs = k₀.procs := rfl
  have hs₂ : ({ k₀ with sched := s₂ } : Kernel).sched = s₂ := rfl
  have hroom₂ : ({ k₀ with sched := s₂ } : Kernel).alloc.Room 0x3000 := hroom
  have hoom₂ : ({ k₀ with sched := s₂ } : Kernel).oom = false := hoom
  generalize ({ k₀ with sched := s₂ } : Kernel) = k₂ at *
  have hcurr₂ : k₂.sched.currThread = 1 := by
    rw [hs₂]
    exact c₂
  -- the first child
  have hmore : k₂.alloc.Room (100 + forkRoom (k₂.procs k₂.sched.currThread).vmaList) := by
    rw [hcurr₂, hprocs₂, hneed]
    exact hroom₂.mono (by decide)
  have hempty (i : Nat) : (k₂.procs 2).fileDescriptorsTable i = 0 := by
    rw [hprocs₂]
    exact hb.files_other (by rw [hcurr]; decide)
  have hcurr₂' : k₂.sched.currThread ≠ 0 := by
    rw [hcurr₂]
    decide
  rw [← hprocs₂, ← hcurr₂] at hforkable hhome hstdin hneed
  rw [← hcurr₂] at f₁ c₃
  obtain ⟨k₅, cpu, hreach₅, ok₅, hroom₅, hoom₅, hs₅, hparent, hpresent, hdead⟩ :=
    reaped_stale ok₂ hoom₂ hmore hforkable hhome hstdin hempty hcurr₂' (hs₂ ▸ h₃) c₃ h₄ c₄ z₀ z₂ h₅ f₁ f₂
  rw [hcurr₂] at hparent hforkable hhome hstdin hneed
  -- the program again; it closes its entry 0
  have step₆ : kernelStep k₅ (9, .schedule) = some { k₅ with sched := s₆ } :=
    kernelStep_schedule (hs₅ ▸ h₆)
  have well₆ : ForksWell k₅ .schedule := trivial
  have hstdin₆ : (({ k₅ with sched := s₆ } : Kernel).procs 1).fileDescriptorsTable 0 ≠ 0 := by
    rw [hparent]
    exact hstdin
  obtain ⟨k₇, step₇, ok₇, hroom₇, hoom₇, hs₇, hparent₇, hothers₇, hfewer⟩ :=
    closes_entry (m := 9) (ok₅.next_zero well₆ step₆) hroom₅ c₆ (by decide) (Nat.zero_le _) hstdin₆
  have hcurr₇ : k₇.sched.currThread = 1 := by
    rw [hs₇]
    exact c₆
  have hparent₇' : k₇.procs 1 = ((k₂.procs 1).save cpu).setFile 0 0 := by
    rw [hparent₇, ← hparent]
  have hchild₇ : k₇.procs 2 = k₅.procs 2 := hothers₇ 2 (by decide)
  -- the second child
  have hforkable₇ : Forkable (k₇.procs k₇.sched.currThread) := by
    rw [hcurr₇, hparent₇']
    exact ⟨hforkable.datasize, hforkable.areas, hforkable.stack⟩
  have hroom₇' : k₇.alloc.Room (0 + forkRoom (k₇.procs k₇.sched.currThread).vmaList) := by
    have hvmas : (k₇.procs k₇.sched.currThread).vmaList = (k₂.procs 1).vmaList := by
      rw [hcurr₇, hparent₇']
      rfl
    rw [hvmas, hneed]
    exact hroom₇.mono (by decide)
  have hoom₇' : k₇.oom = false := hoom₇.trans hoom₅
  have hfree₇ : RpiKernel.threadCreate k₇.sched = some (2, s₇) := by
    rw [hs₇]
    exact h₇
  obtain ⟨c, k₈, hf, -, hoom₈, hc⟩ : Returns (fork cpu) k₇ 0 fun r _ => r = 2 :=
    fork_returns hroom₇' hoom₇' hfree₇ hforkable₇
  rw [hc] at hf
  have hcurr₇' : k₇.sched.currThread ≠ 0 := by
    rw [hcurr₇]
    decide
  have step₈ : kernelStep k₇ (9, .fork cpu) = some k₈ :=
    kernelStep_of hcurr₇' (congrArg (Option.map Prod.snd) hf)
  have hreach : Reach kernelStep (fun _ _ => True) k₅ k₈ :=
    ((Reach.init.step _ trivial step₆).step _ trivial step₇).step _ trivial step₈
  have hfirst : Reach kernelStep (fun _ _ => True) k₀ k₅ :=
    .run (.run .init (fun _ _ _ => trivial) hreach₂) (fun _ _ _ => trivial) hreach₅
  refine ⟨k₀, k₈, hb, hfirst.trans hreach, hoom₈.trans hoom₇', ?_⟩
  refine fork_stale ok₇ ?_ hf (Nat.zero_le _) ?_ ?_ ?_
  · rw [hcurr₇, hparent₇']
    exact hhome
  · rw [hcurr₇, hparent₇']
    show Function.update (k₂.procs 1).fileDescriptorsTable 0 0 0 = 0
    exact Function.update_self ..
  · rw [hchild₇]
    exact hpresent
  · rw [hchild₇]
    exact fun hl => hdead (hfewer _ hl)

end Kernel

end RpiKernel
