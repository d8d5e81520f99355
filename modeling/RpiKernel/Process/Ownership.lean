import RpiKernel.Process.Forking

/-!
# RpiKernel.Process.Ownership

No block has two owners: the blocks of the threads and of the rest of the
kernel are live and apart (`Kept`), in every state of a run whose forks copy one
image and one stack into a slot without stale files.
-/

namespace RpiKernel

open Custody Sched Runs

namespace Kernel

/-- A slot whose thread holds something. -/
def Living (k : Kernel) (t : Nat) : Prop := t ≠ 0 ∧ k.sched.status t ≠ .free

instance (k : Kernel) (t : Nat) : Decidable (Living k t) := inferInstanceAs (Decidable (_ ∧ _))

/-- Who holds what: the rest of the kernel, and the threads. -/
def held (size : Nat → Nat) (k : Kernel) : Option Nat → Blocks
  | none => k.misc
  | some t => if Living k t then (k.procs t).blocks size k.words else []

/-- The allocator is in order, everybody holds blocks of their own, and the
tables of threads are trees. -/
structure Kept (size : Nat → Nat) (k : Kernel) : Prop where
  settled : k.alloc.Settled
  shares : Shares k.alloc.Region (held size k)
  tree : ∀ t, Living k t → Tree 3 k.words (physToVirt (k.procs t).context.pgd)
  last : ∀ t, (k.procs t).fileDescriptorsTable maxFd = 0
  idle : ∀ i, (k.procs 0).fileDescriptorsTable i = 0

variable {size : Nat → Nat} {k k' k₁ : Kernel} {lost : Blocks} {t n : Nat}

theorem held_living (h : Living k t) : held size k (some t) = (k.procs t).blocks size k.words :=
  if_pos h

theorem held_free (h : ¬ Living k t) : held size k (some t) = [] := if_neg h

/-- A holder's view. -/
theorem Kept.view (h : Kept size k) (i : Option Nat) :
    k.alloc.Holds (outside k.alloc.Region (held size k i)) (held size k i) :=
  ⟨h.settled, h.shares.take i⟩

/-- A thread's view. -/
theorem Kept.owns (h : Kept size k) (ht : Living k t) :
    Owns size (outside k.alloc.Region (held size k (some t))) [] t k := by
  refine ⟨?_, h.tree t ht, h.last t⟩
  have hv := h.view (some t)
  rw [held_living ht] at hv ⊢
  rw [List.append_nil]
  exact hv

/-- The tables of a thread are among the blocks of the others. -/
theorem Kept.same_tables (h : Kept size k) {i : Option Nat} {u : Nat} (hu : Living k u) (hi : some u ≠ i)
    (hs : SameTables (outside k.alloc.Region (held size k i)) k k') :
    ∀ q ∈ physToVirt (k.procs u).context.pgd ::
      subTables 3 k.words (physToVirt (k.procs u).context.pgd), SameTable k.words k'.words q := by
  intro q hq
  have hal : q % 0x1000 = 0 := by
    cases List.mem_cons.1 hq with
    | inl he => exact he ▸ (h.tree u hu).aligned
    | inr hm => exact subTables_aligned hm
  obtain ⟨n, hn⟩ := mem_addrs.1 (Process.mem_blocks_pgd size k.words (k.procs u) hq)
  rw [← held_living hu] at hn
  obtain ⟨m, hm, -⟩ := h.shares.outside hi hn
  exact hs q hal ⟨m, hm⟩

/-- The blocks of a thread that nothing happened to. -/
theorem Kept.same_blocks (h : Kept size k) {i : Option Nat} {u : Nat} (hu : Living k u) (hi : some u ≠ i)
    (hs : SameTables (outside k.alloc.Region (held size k i)) k k')
    (hp : (k.procs u).Alike (k'.procs u)) :
    (k'.procs u).blocks size k'.words = (k.procs u).blocks size k.words ∧
      Tree 3 k'.words (physToVirt (k'.procs u).context.pgd) := by
  have hsame := h.same_tables hu hi hs
  have hsub := subTables_congr hsame
  have htree := h.tree u hu
  constructor
  · rw [hp.blocks]
    unfold Process.blocks tableBlocks
    rw [hsub]
  · rw [hp.pgd]
    exact ⟨htree.aligned, entries_congr hsame htree.entries, by rw [hsub]; exact htree.nodup⟩

/-- A step of one holder: it has other blocks now, and may have lost some. -/
theorem Kept.give (h : Kept size k) {i : Option Nat} {L : Blocks}
    (hh : k'.alloc.Holds (outside k.alloc.Region (held size k i)) L)
    (hL : L.Perm (held size k' i ++ lost))
    (htree : ∀ t, i = some t → Living k' t → Tree 3 k'.words (physToVirt (k'.procs t).context.pgd))
    (hlast : ∀ t, i = some t → (k'.procs t).fileDescriptorsTable maxFd = 0)
    (hs : SameTables (outside k.alloc.Region (held size k i)) k k')
    (hother : ∀ u, some u ≠ i → (k.procs u).Alike (k'.procs u))
    (hliving : ∀ u, some u ≠ i → (Living k' u ↔ Living k u))
    (hmisc : i ≠ none → k'.misc = k.misc) (h0 : i ≠ some 0) : Kept size k' := by
  have hsame : ∀ j, j ≠ i → held size k' j = held size k j := by
    intro j hj
    cases j with
    | none => exact hmisc hj.symm
    | some u =>
        by_cases hu : Living k u
        · rw [held_living hu, held_living ((hliving u hj).2 hu)]
          exact (h.same_blocks hu hj hs (hother u hj)).1
        · have hu' : ¬ Living k' u := fun hl => hu ((hliving u hj).1 hl)
          rw [held_free hu, held_free hu']
  refine ⟨hh.settled, h.shares.give hh.holds hL hsame, fun u hu => ?_, fun u => ?_, fun j => ?_⟩
  · by_cases hi : some u = i
    · exact htree u hi.symm hu
    · exact (h.same_blocks ((hliving u hi).1 hu) hi hs (hother u hi)).2
  · by_cases hi : some u = i
    · exact hlast u hi.symm
    · rw [(hother u hi).files]
      exact h.last u
  · rw [(hother 0 h0.symm).files]
    exact h.idle j

/-- A step of a thread that has its slot. -/
theorem Kept.step (h : Kept size k)
    (hown : Owns size (outside k.alloc.Region (held size k (some t))) lost t k') (ht : Living k' t)
    (hs : SameTables (outside k.alloc.Region (held size k (some t))) k k')
    (hother : ∀ u, u ≠ t → (k.procs u).Alike (k'.procs u))
    (hliving : ∀ u, u ≠ t → (Living k' u ↔ Living k u)) (hmisc : k'.misc = k.misc) :
    Kept size k' := by
  have hne : ∀ u, some u ≠ some t → u ≠ t := fun u hu he => hu (he ▸ rfl)
  have hL : ((k'.procs t).blocks size k'.words ++ lost).Perm (held size k' (some t) ++ lost) := by
    rw [held_living ht]
  refine h.give hown.holds hL (fun u hu _ => ?_) (fun u hu => ?_) hs (fun u hu => hother u (hne u hu))
    (fun u hu => hliving u (hne u hu)) (fun _ => hmisc) (fun he => ht.1 (Option.some.inj he))
  · obtain rfl := Option.some.inj hu
    exact hown.tree
  · obtain rfl := Option.some.inj hu
    exact hown.last

/-- A step of the rest of the kernel. -/
theorem Kept.stepMisc (h : Kept size k)
    (hh : k'.alloc.Holds (outside k.alloc.Region k.misc) k'.misc) (hw : k'.words = k.words)
    (hp : k'.procs = k.procs) (hs : k'.sched = k.sched) : Kept size k' := by
  have hL : k'.misc.Perm (held size k' none ++ []) := by
    rw [List.append_nil]
    rfl
  refine h.give (i := none) hh hL (fun _ hu => nomatch hu) (fun _ hu => nomatch hu) (.of_words hw)
    (fun u _ => by rw [hp]; exact .refl _) (fun u _ => ?_) (fun hu => absurd rfl hu) nofun
  unfold Living
  rw [hs]

/-- Nothing that is held changes. -/
theorem Kept.same (h : Kept size k) (ha : k'.alloc = k.alloc) (hw : k'.words = k.words)
    (hm : k'.misc = k.misc) (hp : ∀ u, (k.procs u).Alike (k'.procs u))
    (hliving : ∀ u, Living k' u ↔ Living k u) : Kept size k' := by
  have hL : k.misc.Perm (held size k' none ++ []) := by
    rw [List.append_nil]
    exact .of_eq hm.symm
  have hh : k'.alloc.Holds (outside k.alloc.Region (held size k none)) k.misc := by
    rw [ha]
    exact h.view none
  exact h.give (i := none) hh hL (fun _ hu => nomatch hu) (fun _ hu => nomatch hu) (.of_words hw)
    (fun u _ => hp u) (fun u _ => hliving u) (fun hu => absurd rfl hu) nofun

/-! ## reaping -/

/-- A pass of `kill_zombies` gives back what the zombies held. -/
theorem Kept.reap (h : Kept size k) (ht : Living k t) : ∃ k', Kernel.reap t k = some ((), k') ∧
    Kept size k' ∧ (∀ n, k.alloc.Room n → k'.alloc.Room n) ∧ (∀ q m, k'.alloc.Region q m ↔
      k.alloc.Region q m ∧ q ∉ addrs ((k.procs t).blocks size k.words)) ∧
    ∀ u, u ≠ t → Living k u →
      (k'.procs u).blocks size k'.words = (k.procs u).blocks size k.words := by
  have hown := h.owns ht
  obtain ⟨k', hr, hh, hroom, hs⟩ := hown.reap
  obtain ⟨a, w, hk'⟩ := reap_some hr
  have hother : ∀ u, u ≠ t → (k.procs u).Alike (k'.procs u) := by
    intro u hu
    rw [hk', setProc_procs_other _ hu]
    exact .refl _
  have hmisc : k'.misc = k.misc := by rw [hk', setProc_misc]
  have hst : ∀ u, k'.sched.status u = if u = t then .free else k.sched.status u := by
    intro u
    rw [hk', setProc_sched, status_reapThread]
  have hfree : ¬ Living k' t := fun hl => hl.2 (by rw [hst, if_pos rfl])
  have hliving : ∀ u, u ≠ t → (Living k' u ↔ Living k u) := by
    intro u hu
    unfold Living
    rw [hst, if_neg hu]
  have hne : ∀ u, some u ≠ some t → u ≠ t := fun u hu he => hu (he ▸ rfl)
  refine ⟨k', hr, ?_, hroom, fun q m => ?_, fun u hu hl => ?_⟩
  · have hL : ([] : Blocks).Perm (held size k' (some t) ++ []) := by rw [held_free hfree, List.nil_append]
    refine h.give hh hL (fun u hu hl => ?_) (fun u hu => ?_) hs (fun u hu => hother u (hne u hu))
      (fun u hu => hliving u (hne u hu)) (fun _ => hmisc) (fun he => ht.1 (Option.some.inj he))
    · obtain rfl := Option.some.inj hu
      exact absurd hl hfree
    · obtain rfl := Option.some.inj hu
      rw [hk', setProc_procs]
      exact h.last t
  · rw [← held_living ht]
    constructor
    · exact fun hq => (hh.holds.total q m hq).resolve_right (by simp)
    · exact fun hq => hh.holds.keep q m hq
  · have hi : some u ≠ some t := fun he => hu (Option.some.inj he)
    exact (h.same_blocks hl hi hs (hother u hu)).1

/-- The pass comes back, and frees exactly the blocks of the zombies it reaps. -/
theorem Kept.killZombiesLoop {s : Sched} {p : Option Nat} (h : Kept size k)
    (hz : k.sched.status 0 ≠ .zombie)
    (hs : RpiKernel.killZombiesLoop n p k.sched = some s) :
    ∃ k', Kernel.killZombiesLoop n p k = some ((), k') ∧ Kept size k' ∧
      (∀ n, k.alloc.Room n → k'.alloc.Room n) ∧ ∀ q m, k'.alloc.Region q m ↔ k.alloc.Region q m ∧
        ∀ z, k.sched.status z = .zombie → s.status z = .free →
          q ∉ addrs ((k.procs z).blocks size k.words) := by
  induction n generalizing p k with
  | zero =>
      cases p with
      | none =>
          obtain rfl := Option.some.inj hs
          exact ⟨k, rfl, h, fun _ hr => hr, fun q m => ⟨fun hq => ⟨hq, fun z h₁ h₂ => by rw [h₁] at h₂; cases h₂⟩,
            fun hq => hq.1⟩⟩
      | some th => cases hs
  | succ n ih =>
      cases p with
      | none =>
          obtain rfl := Option.some.inj hs
          exact ⟨k, rfl, h, fun _ hr => hr, fun q m => ⟨fun hq => ⟨hq, fun z h₁ h₂ => by rw [h₁] at h₂; cases h₂⟩,
            fun hq => hq.1⟩⟩
      | some th =>
          unfold RpiKernel.killZombiesLoop at hs
          unfold Kernel.killZombiesLoop
          simp only [get_bind]
          by_cases hth : k.sched.status th = .zombie
          · rw [if_pos hth] at hs
            simp only [if_pos hth]
            have hne : th ≠ 0 := fun he => hz (he ▸ hth)
            have hliv : Living k th := ⟨hne, by rw [hth]; decide⟩
            obtain ⟨k₁, hr, h₁, hroom, hreg, hblocks⟩ := h.reap hliv
            have hsched : k₁.sched = reapThread th k.sched := by
              obtain ⟨a, w, rfl⟩ := reap_some hr
              rfl
            rw [← hsched] at hs
            have hst : ∀ u, k₁.sched.status u = if u = th then .free else k.sched.status u :=
              fun u => by rw [hsched, status_reapThread]
            have hz₁ : k₁.sched.status 0 ≠ .zombie := by rwa [hst, if_neg hne.symm]
            obtain ⟨k', hrun, hk', hroom', hreg'⟩ := ih h₁ hz₁ hs
            refine ⟨k', bind_some.2 ⟨(), k₁, hr, hrun⟩, hk', fun n hn => hroom' n (hroom n hn),
              fun q m => ?_⟩
            -- the thread that was reaped is free at the end
            have hout := killZombiesLoop_some hrun
            have hs' : k'.sched = s := Option.some.inj (hout.1.symm.trans hs)
            have hend : s.status th = .free := by
              have ho := hout.2.2.2.2 th
              rw [Outlives, hst, if_pos rfl, hs'] at ho
              exact ho.elim And.right And.right
            rw [hreg', hreg]
            constructor
            · rintro ⟨⟨hq, hqt⟩, hall⟩
              refine ⟨hq, fun z hzz hzf => ?_⟩
              by_cases he : z = th
              · exact he ▸ hqt
              · have hz₀ : z ≠ 0 := fun h0 => hz (h0 ▸ hzz)
                have hb := hblocks z he ⟨hz₀, by rw [hzz]; decide⟩
                have hall' := hall z (by rw [hst, if_neg he]; exact hzz) hzf
                rwa [hb] at hall'
            · rintro ⟨hq, hall⟩
              refine ⟨⟨hq, hall th hth hend⟩, fun z hzz hzf => ?_⟩
              rw [hst] at hzz
              by_cases he : z = th
              · rw [if_pos he] at hzz
                cases hzz
              · rw [if_neg he] at hzz
                have hz₀ : z ≠ 0 := fun h0 => hz (h0 ▸ hzz)
                rw [hblocks z he ⟨hz₀, by rw [hzz]; decide⟩]
                exact hall z hzz hzf
          · rw [if_neg hth] at hs
            simp only [if_neg hth]
            exact ih h hz hs

/-! ## steps -/

/-- A fork that copies one image and one stack, into a slot without files that
the parent lacks. -/
def ForksWell (k : Kernel) : KernelAct → Prop
  | .fork _ => OneHome (k.procs k.sched.currThread).vmaList ∧
      ∀ child s, RpiKernel.threadCreate k.sched = some (child, s) →
        NoStaleFile (k.procs k.sched.currThread) (k.procs child)
  | _ => True

/-- The requests for memory of areas are large enough. -/
def Fits (size : Nat → Nat) (k : Kernel) : KernelAct → Prop
  | .fork _ => ∀ v ∈ (k.procs k.sched.currThread).vmaList, ¬ skipped v → Covers size v.areaSize
  | .exec (some f) => Covers size (getsize f % 2 ^ 32)
  | .mmap _ len _ => Covers size (roundPage len)
  | _ => True

/-- The scheduler and the owners are in order. -/
structure KernelOk (size : Nat → Nat) (k : Kernel) : Prop extends Kept size k where
  sched : Scheduled k.sched

theorem exec_misc {f : ExecFile} (h : exec (some f) k = some ((), k')) : k'.misc = k.misc := by
  obtain ⟨f', k₁, dropped, data, userSp, signalSp, a, m, k₃, k₄, handle, k₅, mem, a', -, hdel, -, -, -,
    himg, hfix, hopen, -, hk'⟩ := exec_some h
  obtain ⟨k₂, hvmas, hk₁⟩ := mmuDelAllVma_some hdel
  obtain ⟨a₀, hk₂⟩ := delVmas_some hvmas
  have hf := ((addImageAreas_frame himg).trans (addFixedAreas_frame hfix)).trans
    (hopen.frame (t := k.sched.currThread))
  have hm : k₁.misc = k.misc := by rw [hk₁, setProc_misc, hk₂]
  rw [hk', setProc_misc]
  exact hf.misc.trans hm

/-- A thread that runs has its slot. -/
theorem KernelOk.living (h : KernelOk size k) (h0 : k.sched.currThread ≠ 0) :
    Living k k.sched.currThread := ⟨h0, h.sched.curr⟩

theorem living_congr (hst : ∀ u, k'.sched.status u = .free ↔ k.sched.status u = .free) (u : Nat) :
    Living k' u ↔ Living k u := by
  unfold Living
  rw [Ne, Ne, hst u]

theorem fork_misc {cpu : ThreadContext} {child : Nat} (h : fork cpu k = some (child, k')) :
    k'.misc = k.misc := by
  obtain ⟨k₁, k₂, k₃, k₄, h₁, h₂, h₃, h₄, -, -, hk'⟩ := fork_some h
  obtain ⟨s, b, a, -, -, -, hk₁⟩ := threadCreate_some h₁
  have hframe := ((copyFiles_frame h₂).trans (copyAreas_frame h₃)).trans (addFixedAreas_frame h₄)
  rw [hk', setProc_misc, setProc_misc]
  refine hframe.misc.trans ?_
  rw [setProc_misc, hk₁, setProc_misc]
  rfl

theorem KernelOk.fork {cpu : ThreadContext} {child : Nat} (h : KernelOk size k)
    (hg : Covers size frameSize) (hw : ForksWell k (.fork cpu)) (hfit : Fits size k (.fork cpu))
    (hf : Kernel.fork cpu k = some (child, k')) : Kept size k' := by
  have hsched := fork_sched hf
  obtain ⟨hfree, -, hs⟩ := threadCreate_spec hsched
  have hst : ∀ u, k'.sched.status u = if u = child then .active else k.sched.status u := by
    intro u
    rw [hs]
    simp
  have hne : k.sched.currThread ≠ child := fun he => h.sched.curr (he ▸ hfree)
  have hidle : child ≠ 0 := by
    obtain ⟨xs, hinv⟩ := h.sched
    exact fun he => hinv.idle_alive (he ▸ hfree)
  have hnot : ¬ Living k child := fun hl => hl.2 hfree
  have hview := h.view (some child)
  rw [held_free hnot] at hview
  obtain ⟨hown, hsame, hother⟩ :=
    fork_owns hne hw.1 (hw.2 child _ hsched) hfit hg (h.last _) hview hf
  rw [← held_free hnot] at hown hsame
  have hmisc := fork_misc hf
  have hliving : Living k' child := ⟨hidle, by rw [hst, if_pos rfl]; decide⟩
  refine h.toKept.step hown hliving hsame hother (fun u hu => ?_) hmisc
  unfold Living
  rw [hst, if_neg hu]

theorem KernelOk.openFile {target : OpenTarget} {flags : Nat} {r : Option Nat} (h : KernelOk size k)
    (h0 : k.sched.currThread ≠ 0) (ho : Kernel.openFile target flags k = some (r, k')) :
    Kept size k' := by
  rcases openFile_some ho with rfl | ⟨i, hi, hz, node, k₁, hc, ho⟩
  · exact h.toKept
  -- the vnode is nobody's, the handle is the thread's
  have hkept : Kept size k₁ := by
    obtain ⟨new, hm, hh⟩ := creates_holds (h.view none) hc
    rcases hc with rfl | ⟨v, hv⟩
    · exact h.toKept
    · obtain ⟨inode, data, a, -, -, -, hk₁⟩ := tmpfsCreateVnode_some hv
      have hmisc : k₁.misc = new ++ held size k none := hm
      refine h.toKept.stepMisc ?_ (by rw [hk₁]) (by rw [hk₁]) (by rw [hk₁])
      rw [hmisc]
      exact hh
  have hprocs := hc.procs
  have hsched := hc.sched
  have hliv : Living k₁ k.sched.currThread := by
    unfold Living
    rw [hsched]
    exact h.living h0
  have hown := (hkept.owns hliv).opens hi (by rw [hprocs]; exact hz) ho
  have hframe := ho.frame
  have hst : ∀ u, Living k' u ↔ Living k₁ u := fun u => by
    unfold Living
    rw [hframe.sched]
  refine hkept.step hown ((hst _).2 hliv) (.of_words hframe.words) (fun u hu => ?_) (fun u _ => hst u)
    hframe.misc
  rw [hframe.other u hu]
  exact .refl _

/-- Every step that is possible keeps the owners. -/
theorem KernelOk.next {a : KernelAct} (h : KernelOk size k) (hu : Covers size ustackSize)
    (hg : Covers size frameSize) (hw : ForksWell k a) (hfit : Fits size k a)
    (hs : kernelStep k (n, a) = some k') : KernelOk size k' := by
  refine ⟨?_, kernelStep_scheduled h.sched hs⟩
  obtain ⟨hen, hp⟩ := kernelStep_some hs
  -- a step of the scheduler changes nothing that is held
  have hsched : ∀ f, (Kernel.onSched f k).map Prod.snd = some k' → (∀ cpu, a ≠ .fork cpu) →
      a ≠ .killZombies → Kept size k' := by
    intro f hmap hfork hkill
    obtain ⟨⟨_, k₁⟩, hf, hk₁⟩ := Option.map_eq_some_iff.1 hmap
    obtain rfl : k₁ = k' := hk₁
    obtain ⟨s, -, hr⟩ := onSched_some.1 hf
    have hliv := living_congr (kernelStep_free hs h.sched hfork hkill)
    rw [(Prod.mk.inj hr).2] at hliv ⊢
    exact h.toKept.same rfl rfl rfl (fun _ => .refl _) hliv
  cases a with
  | fork cpu =>
      obtain ⟨⟨child, k'⟩, hf, rfl⟩ := Option.map_eq_some_iff.1 hp
      exact h.fork hg hw hfit hf
  | exec file =>
      obtain ⟨⟨_, k'⟩, hf, rfl⟩ := Option.map_eq_some_iff.1 hp
      cases file with
      | none =>
          obtain ⟨f, k₁, _, _, _, _, _, _, _, _, _, _, _, _, he, -⟩ := exec_some hf
          cases he
      | some f =>
          obtain ⟨lost, hown, hsame⟩ := (h.owns (h.living hen)).exec hfit hu hg hf
          have hliv : ∀ u, Living k' u ↔ Living k u := living_congr fun u => by rw [exec_sched hf]
          refine h.toKept.step hown ((hliv _).2 (h.living hen)) hsame (fun u hu => ?_)
            (fun u _ => hliv u) (exec_misc hf)
          rw [(exec_procs hf).1 u hu]
          exact .refl _
  | mmap addr len prot =>
      obtain ⟨⟨r, k'⟩, hf, rfl⟩ := Option.map_eq_some_iff.1 hp
      have hown := (h.owns (h.living hen)).mmap hfit hf
      obtain ⟨-, ptr, a₁, rec, a₂, mem, -, -, -, -, rfl⟩ := mmap_some hf
      refine h.toKept.step hown (h.living hen) (.of_words rfl) (fun u hu => ?_) (fun _ _ => Iff.rfl) rfl
      rw [setProc_procs_other _ hu]
      exact .refl _
  | openFile target flags =>
      obtain ⟨⟨r, k'⟩, hf, rfl⟩ := Option.map_eq_some_iff.1 hp
      exact h.openFile hen hf
  | close fd =>
      obtain ⟨⟨r, k'⟩, hf, rfl⟩ := Option.map_eq_some_iff.1 hp
      have hown := (h.owns (h.living hen)).close hf
      obtain ⟨-, -, ⟨-, rfl⟩ | ⟨-, a, -, rfl⟩⟩ := close_some hf
      · exact h.toKept
      · refine h.toKept.step hown (h.living hen) (.of_words rfl) (fun u hu => ?_) (fun _ _ => Iff.rfl) rfl
        rw [setProc_procs_other _ hu]
        exact .refl _
  | chdir path =>
      obtain ⟨⟨_, k'⟩, hf, rfl⟩ := Option.map_eq_some_iff.1 hp
      obtain ⟨cwd, rfl⟩ := chdir_some hf
      refine h.toKept.same rfl rfl rfl (fun u => ?_) fun _ => Iff.rfl
      by_cases hu : u = k.sched.currThread
      · subst hu
        rw [setProc_procs]
        exact ⟨rfl, rfl, rfl, rfl⟩
      · rw [setProc_procs_other _ hu]
        exact .refl _
  | fault far iss =>
      have hliv := living_congr (kernelStep_free hs h.sched nofun nofun)
      obtain ⟨⟨_, k'⟩, hf, rfl⟩ := Option.map_eq_some_iff.1 hp
      simp only [mmuMemfailAbortHandle, bind_some] at hf
      obtain ⟨b, k₁, hm, hf⟩ := hf
      have hrest : k'.alloc = k₁.alloc ∧ k'.words = k₁.words ∧ k'.misc = k₁.misc ∧
          k'.procs = k₁.procs := by
        split at hf
        · obtain ⟨s, -, hr⟩ := onSched_some.1 hf
          rw [(Prod.mk.inj hr).2]
          exact ⟨rfl, rfl, rfl, rfl⟩
        · rw [(Prod.mk.inj (pure_some.1 hf)).2]
          exact ⟨rfl, rfl, rfl, rfl⟩
      obtain ⟨hal, hwd, hmi, hpr⟩ := hrest
      obtain ⟨hown, hsame⟩ := (h.owns (h.living hen)).memfailAbort hm
      have hprocs : k₁.procs = k.procs ∧ k₁.misc = k.misc := by
        rcases memfailAbort_some hm with ⟨-, rfl⟩ | ⟨-, v, -, -, va, pa, m, -, rfl⟩ <;> exact ⟨rfl, rfl⟩
      have hsame' : SameTables _ k k' := hsame.trans (.of_words hwd)
      refine h.toKept.step (hown.alike (by rw [hpr]; exact .refl _) hwd hal)
        ((hliv _).2 (h.living hen)) hsame' (fun u _ => ?_) (fun u _ => hliv u) (hmi.trans hprocs.2)
      rw [hpr, hprocs.1]
      exact .refl _
  | exit => exact hsched (fun s => some (RpiKernel.exit s)) hp nofun nofun
  | kill pid => exact hsched _ hp nofun nofun
  | signalDefault => exact hsched _ hp nofun nofun
  | schedule => exact hsched _ hp nofun nofun
  | killZombies =>
      obtain ⟨⟨_, k'⟩, hf, rfl⟩ := Option.map_eq_some_iff.1 hp
      have hloop : Kernel.killZombiesLoop n k.sched.rqHead k = some ((), k') := hf
      have hz : k.sched.status 0 ≠ .zombie := by
        obtain ⟨xs, hinv⟩ := h.sched
        exact fun hz => hinv.idle_zombie hz hen
      obtain ⟨k₁, hrun, hk, -⟩ := h.toKept.killZombiesLoop hz (killZombiesLoop_some hloop).1
      obtain ⟨-, rfl⟩ := Prod.mk.inj (Option.some.inj (hloop.symm.trans hrun))
      exact hk
  | take sz =>
      obtain ⟨⟨_, k'⟩, hf, rfl⟩ := Option.map_eq_some_iff.1 hp
      obtain ⟨hle, p, a, ha, rfl⟩ := take_some hf
      refine h.toKept.stepMisc ?_ rfl rfl rfl
      have hsz : sz ≤ granted (sz % 2 ^ 32) := by
        have hmax : maxRequest < 2 ^ 32 := by decide
        rw [Nat.mod_eq_of_lt (by omega)]
        exact le_granted hle
      exact (h.view none).kmalloc_own ha hsz
  | give ptr sz =>
      obtain ⟨⟨_, k'⟩, hf, rfl⟩ := Option.map_eq_some_iff.1 hp
      obtain ⟨hm, a, ha, rfl⟩ := give_some hf
      refine h.toKept.stepMisc ?_ rfl rfl rfl
      have hv : k.alloc.Holds (outside k.alloc.Region k.misc) ((ptr, sz) :: k.misc.erase (ptr, sz)) :=
        (h.view none).perm (List.perm_cons_erase hm)
      obtain ⟨a', ha', hh⟩ := hv.kfree
      exact Option.some.inj (ha'.symm.trans ha) ▸ hh

/-! ## runs -/

theorem initThreadSched_free {s : Sched} (hs : initThreadSched staticSched = some s) {j : Nat}
    (h0 : j ≠ 0) : s.status j = .free := by
  have ht : ((initThreadSched staticSched).map Sched.currThread) = some 0 := by decide +kernel
  rw [hs] at ht
  obtain ⟨⟨t₀, s₁⟩, hc, rfl⟩ := Option.map_eq_some_iff.1 hs
  obtain ⟨-, -, rfl⟩ := threadCreate_spec hc
  have ht₀ : t₀ = 0 := Option.some.inj ht
  subst ht₀
  have hclear : (clearThreads staticSched).status j = .free := by
    simp [clearThreads, staticSched, Sched.status]
  simp [h0, hclear]

/-- Before the first program no thread holds anything. -/
theorem Initial.kept (h : k.Initial) : Kept size k := by
  have hnot : ∀ t, ¬ Living k t := fun t hl => hl.2 (initThreadSched_free h.sched hl.1)
  have hheld : ∀ t, held size k (some t) = [] := fun t => held_free (hnot t)
  refine ⟨h.settled, ⟨?_, ?_, ?_⟩, fun t hl => absurd hl (hnot t), fun t => h.files t _, h.files 0⟩
  · rintro (_ | t)
    · exact h.misc.nodup
    · rw [hheld]
      exact List.nodup_nil
  · rintro (_ | t) (_ | u) hij e he e' he'
    · exact absurd rfl hij
    · rw [hheld] at he'
      cases he'
    · rw [hheld] at he
      cases he
    · rw [hheld] at he
      cases he
  · rintro (_ | t) e he
    · exact h.misc.backed e he
    · rw [hheld] at he
      cases he

/-- After booting the first program holds its blocks. -/
theorem Booted.ok {data filesize : Nat} {uart : VnodeRef} (h : k.Booted data filesize uart)
    (hu : Covers size ustackSize) (hg : Covers size frameSize) (hf : Covers size filesize) :
    KernelOk size k := by
  have hcurr := h.curr
  have hne := h.curr_ne
  refine ⟨?_, h.scheduled⟩
  have hsched := h.sched
  have halive := h.scheduled.curr
  obtain ⟨k₀, h₀, hx⟩ := h
  have hkept : Kept size k₀ := h₀.kept
  have hnot : ¬ Living k₀ k.sched.currThread := fun hl => hl.2 (initThreadSched_free h₀.sched hl.1)
  have hview := hkept.view (some k.sched.currThread)
  rw [held_free hnot] at hview
  obtain ⟨hown, hsame, -⟩ := threadExec_owns hview h₀.files hf hu hg hx
  rw [← held_free hnot] at hown hsame
  have hmisc : k.misc = k₀.misc := by
    obtain ⟨t, k₁, k₂, k₃, k₄, k₅, mem, h₁, h₂, h₃, h₄, h₅, h₆⟩ := threadExec_some hx
    obtain ⟨s, b, a, -, -, -, hk₁⟩ := threadCreate_some h₁
    have hframe := (addImageAreas_frame h₂).trans (addFixedAreas_frame h₃)
    have hm₁ : k₁.misc = k₀.misc := by rw [hk₁, setProc_misc]; rfl
    exact ((h₄.frame.trans h₅.frame).trans h₆.frame).misc.trans (hframe.misc.trans hm₁)
  refine hkept.step hown ⟨hne, halive⟩ hsame (fun u hu => ?_) (fun u hu => ?_) hmisc
  · rw [(threadExec_procs hx).1 u hu]
    exact .refl _
  · rw [hcurr] at hu
    by_cases h0 : u = 0
    · exact iff_of_false (fun hl => hl.1 h0) fun hl => hl.1 h0
    · refine iff_of_false (fun hl => hl.2 ?_) fun hl => hl.2 (initThreadSched_free h₀.sched h0)
      rw [hsched]
      exact schedBoot_free h0 hu

/-- Nobody relies on any byte of an area's memory. -/
theorem covers_zero (n : Nat) : Covers (fun _ => 0) n := Nat.zero_le _

/-- No page is mapped after booting. -/
theorem Booted.noTables {k₀ : Kernel} {data filesize : Nat} {uart : VnodeRef}
    (h : k₀.Booted data filesize uart) :
    subTables 3 k₀.words (physToVirt (k₀.procs k₀.sched.currThread).context.pgd) = [] := by
  obtain ⟨k, hk, hx⟩ := h
  have hkept : Kept (fun _ => 0) k := hk.kept
  have hview := hkept.view none
  obtain ⟨-, -, hempty⟩ := threadExec_owns hview hk.files (covers_zero _) (covers_zero _) (covers_zero _) hx
  exact hempty

theorem fits_zero (k : Kernel) (a : KernelAct) : Fits (fun _ => 0) k a := by
  cases a with
  | fork cpu => exact fun v _ _ => covers_zero _
  | exec file => cases file <;> first | trivial | exact covers_zero _
  | mmap addr len prot => exact covers_zero _
  | _ => trivial

theorem Booted.ok_zero {data filesize : Nat} {uart : VnodeRef} (h : k.Booted data filesize uart) :
    KernelOk (fun _ => 0) k :=
  h.ok (covers_zero _) (covers_zero _) (covers_zero _)

theorem KernelOk.next_zero {a : KernelAct} (h : KernelOk (fun _ => 0) k) (hw : ForksWell k a)
    (hs : kernelStep k (n, a) = some k') : KernelOk (fun _ => 0) k' :=
  h.next (covers_zero _) (covers_zero _) hw (fits_zero k a) hs

/-- **Ownership.**  In every run whose forks are in order, no block has two
owners. -/
theorem kernelRun_ok {k₀ : Kernel} {data filesize : Nat} {uart : VnodeRef}
    (hb : k₀.Booted data filesize uart) (hr : Reach kernelStep (fun k a => ForksWell k a.2) k₀ k) :
    KernelOk (fun _ => 0) k := by
  refine hr.inv hb.ok_zero fun s a s' hs hw hstep => ?_
  exact hs.next_zero hw hstep

end Kernel

end RpiKernel
