import RpiKernel.Process.Dangling
import RpiKernel.Process.Handles

/-!
# RpiKernel.Process.Reaping

The memory of a child, from `fork` to the reaper.

What `fork` acquires for a child, and the child acquires later, is what the reaper gives back,
each block once (`fork_conserves`): the child owns it, and everything that was live before the
fork is somebody else's (`Grown`).  This holds of forks that copy one image and one stack into
slots without files.  `mmap(0, 0)` makes a second area at the address of the image; its copy
frees the copy of the image, which stays in an area of the child (`fork_conserves_secondHome`).
-/

namespace RpiKernel

open Custody Sched Runs

namespace Kernel

variable {base : Nat → Nat → Prop} {L R : Blocks} {size : Nat → Nat} {k k' k₀ k₁ : Kernel} {t n : Nat}

/-! ## conservation -/

/-- The pointers that the reaper passes to `kfree`: of areas, files, the kernel stack and the
page tables. -/
abbrev freed (t : Nat) (k : Kernel) : List Nat := addrs ((k.procs t).blocks (fun _ => 0) k.words)

/-- The reaper gives back what was acquired for `t` since `k₀`, each block once, and no other.  The
nodes of new files are the file system's. -/
structure Conserves (t : Nat) (k₀ k : Kernel) : Prop where
  once : (freed t k).Nodup
  acquired : ∃ R, k.misc = R ++ k₀.misc ∧
    ∀ q, q ∈ freed t k ↔ Live k q ∧ ¬ Live k₀ q ∧ q ∉ addrs R
  reaps : ∃ k', reap t k = some ((), k') ∧
    ∀ q n, k'.alloc.Region q n ↔ k.alloc.Region q n ∧ q ∉ freed t k
  ends : k.sched.currThread = 0 → ∃ n k', killZombies n k = some ((), k')
  passes : k.sched.currThread = 0 → ∀ n k', killZombies n k = some ((), k') →
    ∀ q m, k'.alloc.Region q m ↔ k.alloc.Region q m ∧
      ∀ z, k.sched.status z = .zombie → k'.sched.status z = .free → q ∉ freed z k

/-- What a child does until it is dead: page faults, `mmap`, `open`, `close`, and the default
signal handler.  Timer ticks come in between. -/
def LivesOn (t : Nat) (k : Kernel) (a : Nat × KernelAct) : Prop :=
  match a.2 with
  | .fault _ _ | .mmap _ _ _ | .openFile _ _ | .close _ | .signalDefault => k.sched.currThread = t
  | .schedule => True
  | _ => False

section

variable {a : Nat × KernelAct}

/-- A child takes no slot and gives none back. -/
theorem LivesOn.ne_fork (h : LivesOn t k a) (cpu : ThreadContext) : a.2 ≠ .fork cpu := by
  intro he
  rw [LivesOn, he] at h
  exact h

theorem LivesOn.ne_killZombies (h : LivesOn t k a) : a.2 ≠ .killZombies := by
  intro he
  rw [LivesOn, he] at h
  exact h

theorem LivesOn.forksWell (h : LivesOn t k a) : ForksWell k a.2 := by
  have hne := h.ne_fork
  generalize a.2 = act at *
  cases act with
  | fork cpu => exact absurd rfl (hne cpu)
  | _ => trivial

end

/-! ## what a child acquires -/

/-- Since `k₀` the child acquired its blocks, and the file system the nodes of new files; nobody
else took or gave back any. -/
def Grown (t : Nat) (k₀ k : Kernel) : Prop :=
  ∃ R, k.misc = R ++ k₀.misc ∧ Owns (fun _ => 0) k₀.alloc.Region R t k

theorem Grown.sched {s : Sched} (h : Grown t k₀ k) : Grown t k₀ { k with sched := s } := by
  obtain ⟨R, hmisc, hown⟩ := h
  exact ⟨R, hmisc, hown.alike (.refl _) rfl rfl⟩

theorem Grown.onSched {f : Sched → Option Sched} {u : Unit} (h : Grown t k₀ k)
    (hf : Kernel.onSched f k = some (u, k')) : Grown t k₀ k' := by
  obtain ⟨s, -, hr⟩ := onSched_some.1 hf
  obtain ⟨-, rfl⟩ := Prod.mk.inj hr
  exact h.sched

/-- The node of a new file is the file system's. -/
theorem Owns.creates (h : Owns size base R t k) (hc : Creates k k') :
    ∃ new, k'.misc = new ++ k.misc ∧ Owns size base (new ++ R) t k' := by
  obtain ⟨new, hm, hh⟩ := creates_holds h.holds hc
  have hwords : k'.words = k.words := by
    cases hc with
    | inl hsame => rw [hsame]
    | inr hnew =>
        obtain ⟨v, hv⟩ := hnew
        obtain ⟨inode, data, a, -, -, -, rfl⟩ := tmpfsCreateVnode_some hv
        rfl
  refine ⟨new, hm, ?_, ?_, ?_⟩
  · rw [hc.procs, hwords]
    refine hh.perm (perm_of_count fun e => ?_)
    simp only [List.count_append]
    omega
  · rw [hc.procs, hwords]
    exact h.tree
  · rw [hc.procs]
    exact h.last

/-- A file that is opened: its node is the file system's, the handle is the child's. -/
theorem Grown.openFile {target : OpenTarget} {flags : Nat} {r : Option Nat}
    (h : Grown k.sched.currThread k₀ k) (ho : Kernel.openFile target flags k = some (r, k')) :
    Grown k.sched.currThread k₀ k' := by
  obtain ⟨R, hmisc, hown⟩ := h
  cases openFile_some ho with
  | inl hsame =>
      subst hsame
      exact ⟨R, hmisc, hown⟩
  | inr hopens =>
      obtain ⟨i, hi, hz, node, k₁, hc, hopens⟩ := hopens
      obtain ⟨new, hm, hown₁⟩ := hown.creates hc
      have hframe := hopens.frame (t := k.sched.currThread)
      refine ⟨new ++ R, ?_, hown₁.opens hi (by rw [hc.procs]; exact hz) hopens⟩
      rw [hframe.misc, hm, hmisc, List.append_assoc]

/-- A page fault: a page is mapped, or the child dies. -/
theorem Grown.fault {far iss : Nat} (h : Grown k.sched.currThread k₀ k)
    (hf : mmuMemfailAbortHandle n far iss k = some ((), k')) : Grown k.sched.currThread k₀ k' := by
  obtain ⟨R, hmisc, hown⟩ := h
  simp only [mmuMemfailAbortHandle, bind_some] at hf
  obtain ⟨b, k₁, hm, hf⟩ := hf
  have hmisc₁ : k₁.misc = k.misc := by
    cases memfailAbort_some hm with
    | inl hdies => rw [hdies.2]
    | inr hmaps =>
        obtain ⟨-, v, -, -, va, pa, m, -, rfl⟩ := hmaps
        rfl
  have h₁ : Grown k.sched.currThread k₀ k₁ := ⟨R, hmisc₁.trans hmisc, (hown.memfailAbort hm).1⟩
  split at hf
  next => exact h₁.onSched hf
  next =>
    obtain ⟨-, rfl⟩ := Prod.mk.inj (pure_some.1 hf)
    exact h₁

theorem Grown.next {a : Nat × KernelAct} (h : Grown t k₀ k) (ha : LivesOn t k a)
    (hs : kernelStep k a = some k') : Grown t k₀ k' := by
  obtain ⟨n, a⟩ := a
  obtain ⟨-, hp⟩ := kernelStep_some hs
  cases a with
  | fault far iss =>
      obtain rfl : k.sched.currThread = t := ha
      obtain ⟨⟨⟨⟩, k'⟩, hf, rfl⟩ := Option.map_eq_some_iff.1 hp
      exact h.fault hf
  | mmap addr len prot =>
      obtain rfl : k.sched.currThread = t := ha
      obtain ⟨⟨r, k'⟩, hf, rfl⟩ := Option.map_eq_some_iff.1 hp
      obtain ⟨R, hmisc, hown⟩ := h
      have hown' := hown.mmap (covers_zero _) hf
      obtain ⟨-, ptr, a₁, rec, a₂, mem, -, -, -, -, rfl⟩ := mmap_some hf
      exact ⟨R, hmisc, hown'⟩
  | openFile target flags =>
      obtain rfl : k.sched.currThread = t := ha
      obtain ⟨⟨r, k'⟩, hf, rfl⟩ := Option.map_eq_some_iff.1 hp
      exact h.openFile hf
  | close fd =>
      obtain rfl : k.sched.currThread = t := ha
      obtain ⟨⟨r, k'⟩, hf, rfl⟩ := Option.map_eq_some_iff.1 hp
      obtain ⟨R, hmisc, hown⟩ := h
      have hown' := hown.close hf
      obtain ⟨-, -, ⟨-, rfl⟩ | ⟨-, a, -, rfl⟩⟩ := close_some hf
      · exact ⟨R, hmisc, hown'⟩
      · exact ⟨R, hmisc, hown'⟩
  | signalDefault =>
      obtain ⟨⟨⟨⟩, k'⟩, hf, rfl⟩ := Option.map_eq_some_iff.1 hp
      exact h.onSched hf
  | schedule =>
      obtain ⟨⟨⟨⟩, k'⟩, hf, rfl⟩ := Option.map_eq_some_iff.1 hp
      exact h.onSched hf
  | _ => cases ha

/-! ## from owners to the reaper -/

theorem Grown.of_fork {cpu : ThreadContext} {child : Nat} (h : KernelOk (fun _ => 0) k)
    (hw : ForksWell k (.fork cpu)) (hf : fork cpu k = some (child, k')) : Grown child k k' := by
  have hsched := fork_sched hf
  obtain ⟨hfree, -, -⟩ := threadCreate_spec hsched
  have hne : k.sched.currThread ≠ child := fun he => h.sched.curr (he ▸ hfree)
  obtain ⟨hown, -, -⟩ := fork_owns hne hw.1 (hw.2 child _ hsched) (fun _ _ _ => covers_zero _)
    (covers_zero _) (h.last _) h.settled.holds_nothing hf
  exact ⟨[], fork_misc hf, hown⟩

/-- What is owned is what became live. -/
theorem Grown.acquired (h : Grown t k₀ k) : ∃ R, k.misc = R ++ k₀.misc ∧
    ∀ q, q ∈ freed t k ↔ Live k q ∧ ¬ Live k₀ q ∧ q ∉ addrs R := by
  obtain ⟨R, hmisc, hown⟩ := h
  have hh := hown.holds.holds
  have hnd := hh.nodup
  rw [addrs_append, List.nodup_append] at hnd
  refine ⟨R, hmisc, fun q => ⟨fun hq => ⟨?_, ?_, ?_⟩, fun hq => ?_⟩⟩
  · exact hh.live_iff.2 (Or.inr (by rw [addrs_append]; exact List.mem_append_left _ hq))
  · exact hh.not_base (by rw [addrs_append]; exact List.mem_append_left _ hq)
  · exact fun hm => hnd.2.2 q hq q hm rfl
  · obtain ⟨hlive, hnew, hout⟩ := hq
    have hmem := (hh.live_iff.1 hlive).resolve_left hnew
    rw [addrs_append] at hmem
    exact (List.mem_append.1 hmem).resolve_right hout

/-- A thread that was not reaped yet. -/
theorem KernelOk.conserves (h : KernelOk (fun _ => 0) k) (hl : Living k t) (hg : Grown t k₀ k) :
    Conserves t k₀ k := by
  have hnd := h.shares.nodup (some t)
  rw [held_living hl] at hnd
  have hidle (hc : k.sched.currThread = 0) : k.sched.status 0 ≠ .zombie := by
    obtain ⟨xs, hinv⟩ := h.sched
    exact fun hz => hinv.idle_zombie hz hc
  refine ⟨hnd, hg.acquired, ?_, fun hc => ?_, fun hc n k' hk => ?_⟩
  · obtain ⟨k', hr, -, -, hregion, -⟩ := h.toKept.reap hl
    exact ⟨k', hr, hregion⟩
  · obtain ⟨xs, hinv⟩ := h.sched
    obtain ⟨s, hall, -⟩ := hinv.killZombies hc
    have hs : RpiKernel.killZombies xs.length k.sched = some s := by rw [hall, if_pos (Nat.le_refl _)]
    obtain ⟨k', hrun, -⟩ := h.toKept.killZombiesLoop (hidle hc) hs
    exact ⟨xs.length, k', hrun⟩
  · have hloop : Kernel.killZombiesLoop n k.sched.rqHead k = some ((), k') := hk
    obtain ⟨k₁, hrun, -, -, hregion⟩ := h.toKept.killZombiesLoop (hidle hc) (killZombiesLoop_some hloop).1
    obtain ⟨-, rfl⟩ := Prod.mk.inj (Option.some.inj (hloop.symm.trans hrun))
    exact hregion

theorem KernelOk.forks {cpu : ThreadContext} {child : Nat} (h : KernelOk (fun _ => 0) k)
    (hcurr : k.sched.currThread ≠ 0) (hhome : OneHome (k.procs k.sched.currThread).vmaList)
    (hempty : ∀ i ≤ maxFd, (k.procs child).fileDescriptorsTable i = 0)
    (hf : Kernel.fork cpu k = some (child, k')) :
    KernelOk (fun _ => 0) k' ∧ Grown child k k' ∧ Living k' child := by
  have hsched := fork_sched hf
  have hw : ForksWell k (.fork cpu) := by
    refine ⟨hhome, fun c s hc i hi _ => ?_⟩
    rw [hsched] at hc
    obtain ⟨rfl, -⟩ := Prod.mk.inj (Option.some.inj hc)
    exact hempty i hi
  have hstep : kernelStep k (0, .fork cpu) = some k' :=
    kernelStep_of hcurr (congrArg (Option.map Prod.snd) hf)
  obtain ⟨hfree, -, hs⟩ := threadCreate_spec hsched
  refine ⟨h.next_zero hw hstep, .of_fork h hw hf, ?_, ?_⟩
  · obtain ⟨xs, hinv⟩ := h.sched
    exact fun he => hinv.idle_alive (he ▸ hfree)
  · rw [hs]
    simp

/-- **Reaping.**  Whatever a child does until it is dead, the reaper gives back what was acquired
for it and nothing else. -/
theorem fork_conserves {data filesize child : Nat} {uart : VnodeRef} {cpu : ThreadContext}
    (hb : k₀.Booted data filesize uart) (hr : Reach kernelStep (fun k a => ForksWell k a.2) k₀ k)
    (hcurr : k.sched.currThread ≠ 0) (hhome : OneHome (k.procs k.sched.currThread).vmaList)
    (hempty : ∀ i ≤ maxFd, (k.procs child).fileDescriptorsTable i = 0)
    (hf : fork cpu k = some (child, k₁)) (hl : Reach kernelStep (LivesOn child) k₁ k') :
    Conserves child k k' := by
  have hok := kernelRun_ok hb hr
  have hstart := hok.forks hcurr hhome hempty hf
  have hend : KernelOk (fun _ => 0) k' ∧ Grown child k k' ∧ Living k' child := by
    refine Reach.inv (I := fun s => KernelOk (fun _ => 0) s ∧ Grown child k s ∧ Living s child) hl hstart ?_
    intro s a s' hs ha hstep
    obtain ⟨hok, hgrown, hliv⟩ := hs
    have hliv' := living_congr (kernelStep_free hstep hok.sched ha.ne_fork ha.ne_killZombies) child
    exact ⟨hok.next_zero ha.forksWell hstep, hgrown.next ha hstep, hliv'.2 hliv⟩
  exact hend.1.conserves hend.2.2 hend.2.1

/-- A block that was given back while an area has it: it is freed twice, or it is free already. -/
theorem Dangles.not_once (h : Dangles t k) : ¬ ((freed t k).Nodup ∧ ∀ q ∈ freed t k, Live k q) := by
  intro ⟨hnodup, hlive⟩
  obtain ⟨v, -, -, hmem, hdead⟩ := h
  have hblocks : freed t k = areaAddrs (k.procs t).vmaList ++
      addrs (fileBlocks (k.procs t).fileDescriptorsTable (List.range (maxFd + 1)) ++
        (ownBlock (k.procs t).kernelSp kstackSize ++ tableBlocks k.words (physToVirt (k.procs t).context.pgd))) := by
    rw [freed, Process.blocks, addrs_append]
  rw [hblocks] at hnodup hlive
  cases hdead with
  | inl hdead => exact hdead (hlive _ (List.mem_append_left _ hmem))
  | inr htwo =>
      have hone := List.nodup_iff_count_le_one.1 (List.nodup_append.1 hnodup).1 (physToVirt v.physAddr)
      omega

/-! ## a child from boot to death -/

theorem kernelStep_signalDefault {s : Sched} (hen : k.sched.currThread ≠ 0)
    (h : signalDefaultHandler n k.sched = some s) :
    kernelStep k (n, .signalDefault) = some { k with sched := s } := by
  refine kernelStep_of hen ?_
  have hs : onSched (signalDefaultHandler n) k = some ((), { k with sched := s }) := onSched_some.2 ⟨s, h, rfl⟩
  exact congrArg (Option.map Prod.snd) hs

/-- Two ticks after booting the first program runs again.  A child that it makes then runs two
ticks later; a signal kills it, and with the next tick idle runs. -/
theorem schedBoot_dies : ∃ s₁ s₂ s₃ s₄ s₅ s₆ s₇, RpiKernel.schedule 9 schedBoot = some s₁ ∧
    RpiKernel.schedule 9 s₁ = some s₂ ∧ RpiKernel.threadCreate s₂ = some (2, s₃) ∧
    RpiKernel.schedule 9 s₃ = some s₄ ∧ RpiKernel.schedule 9 s₄ = some s₅ ∧
    signalDefaultHandler 9 s₅ = some s₆ ∧ RpiKernel.schedule 9 s₆ = some s₇ ∧
    s₂.currThread = 1 ∧ s₅.currThread = 2 ∧ s₇.currThread = 0 ∧ s₇.status 2 = .zombie := by
  have hrun : ((RpiKernel.schedule 9 schedBoot).bind fun s₁ => (RpiKernel.schedule 9 s₁).bind fun s₂ =>
      (RpiKernel.threadCreate s₂).bind fun r₃ => (RpiKernel.schedule 9 r₃.2).bind fun s₄ =>
      (RpiKernel.schedule 9 s₄).bind fun s₅ => (signalDefaultHandler 9 s₅).bind fun s₆ =>
      (RpiKernel.schedule 9 s₆).map fun s₇ =>
        ([r₃.1, s₂.currThread, s₅.currThread, s₇.currThread], s₇.status 2)) =
      some ([2, 1, 2, 0], .zombie) := by decide +kernel
  simp only [Option.bind_eq_some_iff, Option.map_eq_some_iff, Prod.exists, Prod.mk.injEq, List.cons.injEq,
    and_true] at hrun
  obtain ⟨s₁, h₁, s₂, h₂, t₃, s₃, h₃, s₄, h₄, s₅, h₅, s₆, h₆, s₇, h₇, ⟨rfl, c₂, c₅, c₇⟩, z₇⟩ := hrun
  exact ⟨s₁, s₂, s₃, s₄, s₅, s₆, s₇, h₁, h₂, h₃, h₄, h₅, h₆, h₇, c₂, c₅, c₇, z₇⟩

/-- A thread that is made in slot 2 lives, and is dead when idle runs. -/
def Dies (s : Sched) : Prop :=
  (∃ s', RpiKernel.threadCreate s = some (2, s')) ∧
    ∀ k : Kernel, RpiKernel.threadCreate s = some (2, k.sched) → ∃ s' : Sched,
      Reach kernelStep (LivesOn 2) k { k with sched := s' } ∧ s'.currThread = 0 ∧ s'.status 2 = .zombie

/-- The same for the kernel. -/
theorem boot_dies (h : k₀.sched = schedBoot) : ∃ s : Sched,
    run kernelStep k₀ [(9, .schedule), (9, .schedule)] = some { k₀ with sched := s } ∧ s.currThread = 1 ∧
      Dies s := by
  obtain ⟨s₁, s₂, s₃, s₄, s₅, s₆, s₇, h₁, h₂, h₃, h₄, h₅, h₆, h₇, c₂, c₅, c₇, z₇⟩ := schedBoot_dies
  have step₁ : kernelStep k₀ (9, .schedule) = some { k₀ with sched := s₁ } := kernelStep_schedule (h ▸ h₁)
  have step₂ : kernelStep { k₀ with sched := s₁ } (9, .schedule) = some { k₀ with sched := s₂ } :=
    kernelStep_schedule h₂
  refine ⟨s₂, ?_, c₂, ⟨s₃, h₃⟩, fun k hk => ⟨s₇, ?_, c₇, z₇⟩⟩
  · rw [run_cons _ step₁, run_cons _ step₂]
    rfl
  have hs₃ : k.sched = s₃ := (Prod.mk.inj (Option.some.inj (hk.symm.trans h₃))).2
  have step₄ : kernelStep k (9, .schedule) = some { k with sched := s₄ } := kernelStep_schedule (hs₃ ▸ h₄)
  have step₅ : kernelStep { k with sched := s₄ } (9, .schedule) = some { k with sched := s₅ } :=
    kernelStep_schedule h₅
  have hcurr : ({ k with sched := s₅ } : Kernel).sched.currThread ≠ 0 := by
    show s₅.currThread ≠ 0
    rw [c₅]
    decide
  have step₆ : kernelStep { k with sched := s₅ } (9, .signalDefault) = some { k with sched := s₆ } :=
    kernelStep_signalDefault hcurr h₆
  have step₇ : kernelStep { k with sched := s₆ } (9, .schedule) = some { k with sched := s₇ } :=
    kernelStep_schedule h₇
  have htick (k : Kernel) : LivesOn 2 k (9, .schedule) := trivial
  have hdeath : LivesOn 2 { k with sched := s₅ } (9, .signalDefault) := c₅
  exact (((Reach.init.step _ (htick _) step₄).step _ (htick _) step₅).step _ hdeath step₆).step _ (htick _) step₇

/-- A small process forks, and the child dies. -/
theorem fork_dies (h : Dies k.sched) (hroom : k.alloc.Room 40) (hoom : k.oom = false)
    (hp : Forkable (k.procs k.sched.currThread)) (hlen : (k.procs k.sched.currThread).vmaList.length ≤ 6) :
    ∃ (cpu : ThreadContext) (k₁ k₂ : Kernel) (s : Sched), fork cpu k = some (2, k₁) ∧ k₁.oom = false ∧
      Reach kernelStep (LivesOn 2) k₁ k₂ ∧ k₂ = { k₁ with sched := s } ∧ k₂.sched.currThread = 0 ∧
      k₂.sched.status 2 = .zombie := by
  obtain ⟨⟨s', hs'⟩, hlives⟩ := h
  have hneed : 0 + forkRoom (k.procs k.sched.currThread).vmaList ≤ 40 := by
    have hmax : maxFd = 16 := rfl
    unfold forkRoom
    omega
  let cpu : ThreadContext := ⟨fun _ => 0, 0, 0, 0, 0⟩
  obtain ⟨c, k₁, hf, -, hoom₁, hc⟩ : Returns (fork cpu) k 0 fun r _ => r = 2 :=
    fork_returns (hroom.mono hneed) hoom hs' hp
  rw [hc] at hf
  obtain ⟨s, hreach, hidle, hz⟩ := hlives k₁ (fork_sched hf)
  exact ⟨cpu, k₁, _, s, hf, hoom₁.trans hoom, hreach, rfl, hidle, hz⟩

/-- The first program, when it runs again: it is small, there is room, and the next slot was never used. -/
structure FirstParent (k : Kernel) : Prop where
  curr : k.sched.currThread = 1
  dies : Dies k.sched
  room : k.alloc.Room 0x3000
  oom : k.oom = false
  forkable : Forkable (k.procs 1)
  ranges : (k.procs 1).vmaList.map Vma.range = imageRanges 1 ++ fixedRanges
  empty : ∀ i, (k.procs 2).fileDescriptorsTable i = 0

theorem FirstParent.curr_ne (h : FirstParent k) : k.sched.currThread ≠ 0 := by
  rw [h.curr]
  decide

theorem FirstParent.length (h : FirstParent k) : (k.procs 1).vmaList.length = 5 := by
  have hlength := congrArg List.length h.ranges
  rw [List.length_map] at hlength
  exact hlength

theorem FirstParent.ticks : ∃ k₀ k : Kernel, k₀.Booted 0 1 ⟨0, .uart⟩ ∧
    run kernelStep k₀ [(9, .schedule), (9, .schedule)] = some k ∧ FirstParent k := by
  obtain ⟨k₀, hb, hroom, hoom⟩ := smallBooted ⟨0, .uart⟩ (by decide : 1 ≤ 0x4000)
  obtain ⟨s, hrun, hcurr, hdies⟩ := boot_dies hb.sched
  have hforkable := hb.forkable (by decide : 1 ≤ 0x4000) hoom
  have hranges := hb.ranges
  rw [hb.curr] at hforkable hranges
  exact ⟨k₀, _, hb, hrun, hcurr, hdies, hroom, hoom, hforkable, hranges,
    fun i => hb.files_other (by rw [hb.curr]; decide)⟩

/-- Ticks and `mmap` are no forks. -/
theorem reach_of_run {as : List (Nat × KernelAct)} (has : ∀ a ∈ as, ∀ cpu, a.2 ≠ .fork cpu)
    (h : run kernelStep k₀ as = some k) : Reach kernelStep (fun k a => ForksWell k a.2) k₀ k := by
  refine Reach.init.run (fun a ha k => ?_) h
  have hne := has a ha
  generalize a.2 = act at *
  cases act with
  | fork cpu => exact absurd rfl (hne cpu)
  | _ => trivial

theorem fork_conserves_boot : ∃ (k₀ k k₁ k₂ : Kernel) (cpu : ThreadContext), k₀.Booted 0 1 ⟨0, .uart⟩ ∧
    fork cpu k = some (2, k₁) ∧ Reach kernelStep (LivesOn 2) k₁ k₂ ∧ k₂.sched.currThread = 0 ∧
    k₂.sched.status 2 = .zombie ∧ Conserves 2 k k₂ := by
  obtain ⟨k₀, k, hb, hrun, h⟩ := FirstParent.ticks
  have hr : Reach kernelStep (fun k a => ForksWell k a.2) k₀ k := reach_of_run (by simp) hrun
  have hlen : (k.procs 1).vmaList.length ≤ 6 := h.length.le.trans (by decide)
  obtain ⟨cpu, k₁, k₂, s, hf, -, hl, -, hidle, hz⟩ := fork_dies h.dies (h.room.mono (by decide)) h.oom
    (h.curr ▸ h.forkable) (h.curr ▸ hlen)
  exact ⟨k₀, k, k₁, k₂, cpu, hb, hf, hl, hidle, hz,
    fork_conserves hb hr h.curr_ne (h.curr ▸ oneHome_of_ranges h.ranges) (fun i _ => h.empty i) hf hl⟩

/-- `mmap(0, 0)`: an empty area at the address of the image. -/
theorem FirstParent.mmap (h : FirstParent k) : ∃ (k' : Kernel) (v : Vma),
    kernelStep k (1, .mmap 0 0 0) = some k' ∧ k'.sched = k.sched ∧ k'.procs 1 = (k.procs 1).addAreas [v] ∧
      k'.procs 2 = k.procs 2 ∧ v.virtAddr = userKernelBase ∧ v.areaSize = 0 ∧ k'.alloc.Room 40 ∧
      k'.oom = false := by
  have hfree : ∀ v ∈ (k.procs k.sched.currThread).vmaList, ¬ overlaps (roundPage 0) (roundPage 0) v :=
    fun v _ hover => hover (Or.inl (Nat.zero_le _))
  have hmore : k.alloc.Room (40 + 2) := h.room.mono (by decide)
  obtain ⟨r, k', hm, hroom, hoom, hr⟩ := mmap_returns 0 0 hmore (by decide) hfree
  have hstep : kernelStep k (1, .mmap 0 0 0) = some k' :=
    kernelStep_of h.curr_ne (congrArg (Option.map Prod.snd) hm)
  obtain ⟨-, ptr, a₁, rec, a₂, mem, -, -, -, -, hk'⟩ := mmap_some hm
  rw [h.curr] at hk'
  refine ⟨k', mapArea rec r (roundPage 0) 0 ptr, hstep, ?_, ?_, ?_, hr, rfl, hroom, hoom.trans h.oom⟩
  · rw [hk', setProc_sched]
  · rw [hk', setProc_procs]
  · rw [hk', setProc_procs_other _ (by decide)]

/-- **A second image.**  The first program calls `mmap(0, 0)` and `fork`.  The copy of its image is
freed while the child still has it, and is freed again with the child, unless it has become
somebody else's. -/
theorem fork_conserves_secondHome : ∃ (k₀ k k₁ k₂ : Kernel) (cpu : ThreadContext), k₀.Booted 0 1 ⟨0, .uart⟩ ∧
    run kernelStep k₀ [(9, .schedule), (9, .schedule), (1, .mmap 0 0 0)] = some k ∧
    (∀ i, (k.procs 2).fileDescriptorsTable i = 0) ∧ fork cpu k = some (2, k₁) ∧ k₁.oom = false ∧
    Reach kernelStep (LivesOn 2) k₁ k₂ ∧ k₂.sched.currThread = 0 ∧ k₂.sched.status 2 = .zombie ∧
    ¬ Conserves 2 k k₂ := by
  obtain ⟨k₀, k, hb, hrun, h⟩ := FirstParent.ticks
  obtain ⟨k', v, hstep, hsched, hp₁, hp₂, hv, hempty, hroom, hoom⟩ := h.mmap
  have hrun' : run kernelStep k₀ [(9, .schedule), (9, .schedule), (1, .mmap 0 0 0)] = some k' := by
    refine (run_append _ [(1, .mmap 0 0 0)] hrun).trans ?_
    rw [run_cons _ hstep]
    rfl
  have hok : KernelOk (fun _ => 0) k' := kernelRun_ok hb (reach_of_run (by simp) hrun')
  have hcurr : k'.sched.currThread = 1 := hsched ▸ h.curr
  have hvs : (k'.procs k'.sched.currThread).vmaList = (k.procs 1).vmaList ++ [v] := by
    rw [hcurr, hp₁]
    rfl
  have hlen : (k'.procs k'.sched.currThread).vmaList.length ≤ 6 := by
    rw [hvs, List.length_append, h.length, List.length_singleton]
  have hforkable : Forkable (k'.procs k'.sched.currThread) := by
    refine ⟨?_, fun w hw hskip => ?_, ?_⟩
    · rw [hcurr, hp₁]
      exact h.forkable.datasize
    · rw [hvs, List.mem_append, List.mem_singleton] at hw
      rcases hw with hw | rfl
      · exact h.forkable.areas w hw hskip
      · rw [hempty]
        exact ⟨Nat.zero_le _, Or.inl rfl⟩
    · rw [hcurr, hp₁]
      exact h.forkable.stack
  obtain ⟨cpu, k₁, k₂, s, hf, hoom₁, hl, hk₂, hidle, hz⟩ := fork_dies (hsched ▸ h.dies) hroom hoom hforkable hlen
  have htwo : ¬ SingleHomes (k'.procs k'.sched.currThread).vmaList := by
    intro hsingle
    have hone := hsingle.1
    rw [hvs, List.countP_append, (oneHome_of_ranges h.ranges).1, List.countP_singleton] at hone
    simp [hv] at hone
  have hfree := (threadCreate_spec (fork_sched hf)).1
  have hbad := (fork_dangles hok.settled (fun he => hok.sched.curr (he ▸ hfree)) htwo hf hoom₁).not_once
  refine ⟨k₀, k', k₁, k₂, cpu, hb, hrun', fun i => hp₂ ▸ h.empty i, hf, hoom₁, hl, hidle, hz, fun hc => ?_⟩
  subst hk₂
  obtain ⟨R, -, hacquired⟩ := hc.acquired
  exact hbad ⟨hc.once, fun q hq => ((hacquired q).1 hq).1⟩

end Kernel

end RpiKernel
