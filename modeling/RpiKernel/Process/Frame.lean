import RpiKernel.Process.Lifetimes

/-!
# RpiKernel.Process.Frame

What kernel code leaves alone: the parts of `fork` and `exec` that set up one
thread change no other thread, nothing outside of threads and no page table
(`Frame`).  With it every step of the kernel is matched to a step of the
scheduler (`kernelStep_scheduled`).
-/

namespace RpiKernel

open Custody Sched Runs

/-- The fields of a thread that the loops of `fork` do not touch. -/
structure Process.Keeps (p p' : Process) : Prop where
  context : p'.context = p.context
  kernelSp : p'.kernelSp = p.kernelSp
  signalSp : p'.signalSp = p.signalSp
  signalHandler : p'.signalHandler = p.signalHandler
  currWorkingDir : p'.currWorkingDir = p.currWorkingDir

theorem Process.Keeps.refl (p : Process) : p.Keeps p := ⟨rfl, rfl, rfl, rfl, rfl⟩

theorem Process.Keeps.trans {p p' p'' : Process} (h : p.Keeps p') (h' : p'.Keeps p'') : p.Keeps p'' :=
  ⟨h'.context.trans h.context, h'.kernelSp.trans h.kernelSp, h'.signalSp.trans h.signalSp,
    h'.signalHandler.trans h.signalHandler, h'.currWorkingDir.trans h.currWorkingDir⟩

namespace Kernel

variable {k k' k'' : Kernel} {t n : Nat}

/-- Only memory is allocated and written, and only thread `t` is changed. -/
structure Frame (t : Nat) (k k' : Kernel) : Prop where
  sched : k'.sched = k.sched
  words : k'.words = k.words
  misc : k'.misc = k.misc
  defaultHandler : k'.defaultHandler = k.defaultHandler
  handlerWrapper : k'.handlerWrapper = k.handlerWrapper
  other : ∀ u, u ≠ t → k'.procs u = k.procs u
  keeps : (k.procs t).Keeps (k'.procs t)

theorem Frame.refl (t : Nat) (k : Kernel) : Frame t k k :=
  ⟨rfl, rfl, rfl, rfl, rfl, fun _ _ => rfl, .refl _⟩

theorem Frame.trans (h : Frame t k k') (h' : Frame t k' k'') : Frame t k k'' :=
  ⟨h'.sched.trans h.sched, h'.words.trans h.words, h'.misc.trans h.misc,
    h'.defaultHandler.trans h.defaultHandler, h'.handlerWrapper.trans h.handlerWrapper,
    fun u hu => (h'.other u hu).trans (h.other u hu), h.keeps.trans h'.keeps⟩

/-- A change of `t` that keeps the fields. -/
theorem Frame.setProc (f : Process → Process) (h : Frame t k k')
    (hf : (k'.procs t).Keeps (f (k'.procs t))) : Frame t k (k'.setProc t f) :=
  h.trans ⟨rfl, rfl, rfl, rfl, rfl, fun _ hu => setProc_procs_other _ hu, by rwa [setProc_procs]⟩

/-- Requests for blocks and writes to memory. -/
theorem Frame.mem (a : Alloc) (o : Bool) (mem : Nat → UInt8) (fs : Nat → FileHandle)
    (h : Frame t k k') : Frame t k { k' with alloc := a, oom := o, bytes := mem, files := fs } :=
  h.trans ⟨rfl, rfl, rfl, rfl, rfl, fun _ _ => rfl, .refl _⟩

theorem Process.keeps_addAreas (vs : List Vma) (p : Process) : p.Keeps (p.addAreas vs) :=
  ⟨rfl, rfl, rfl, rfl, rfl⟩

theorem Process.keeps_setFile (i f : Nat) (p : Process) : p.Keeps (p.setFile i f) :=
  ⟨rfl, rfl, rfl, rfl, rfl⟩

theorem keeps_adopt (va q : Nat) (p : Process) : p.Keeps (adopt va q p) := by
  unfold adopt
  split
  · exact ⟨rfl, rfl, rfl, rfl, rfl⟩
  · split <;> exact ⟨rfl, rfl, rfl, rfl, rfl⟩

theorem addImageAreas_frame (h : addImageAreas t k = some ((), k')) : Frame t k k' := by
  obtain ⟨a₁, a₂, a, -, -, hr⟩ := addImageAreas_some h
  rw [(Prod.mk.inj hr).2]
  exact ((Frame.refl t k).mem a k.oom k.bytes k.files).setProc _ (Process.keeps_addAreas _ _)

theorem addFixedAreas_frame (h : addFixedAreas t k = some ((), k')) : Frame t k k' := by
  obtain ⟨a₁, a₂, a₃, a, -, -, hr⟩ := addFixedAreas_some h
  rw [(Prod.mk.inj hr).2]
  exact ((Frame.refl t k).mem a k.oom k.bytes k.files).setProc _ (Process.keeps_addAreas _ _)

/-- The areas of a program, in the thread. -/
theorem addImageAreas_child (h : addImageAreas t k = some ((), k')) : ∃ a₁ a₂,
    k'.procs t = (k.procs t).addAreas (imageAreas (k.procs t) a₁ a₂) := by
  obtain ⟨a₁, a₂, a, -, -, hr⟩ := addImageAreas_some h
  exact ⟨a₁, a₂, by rw [(Prod.mk.inj hr).2, setProc_procs]⟩

/-- The fixed areas, in the thread. -/
theorem addFixedAreas_child (h : addFixedAreas t k = some ((), k')) : ∃ a₁ a₂ a₃,
    k'.procs t =
      (k.procs t).addAreas (fixedAreas k.handlerWrapper (k.procs t).signalSp a₁ a₂ a₃) := by
  obtain ⟨a₁, a₂, a₃, a, -, -, hr⟩ := addFixedAreas_some h
  exact ⟨a₁, a₂, a₃, by rw [(Prod.mk.inj hr).2, setProc_procs]⟩

theorem NewFile.procs {f : Nat} {content : FileHandle} (h : NewFile f content k k') :
    k'.procs = k.procs := by
  obtain ⟨a, -, rfl⟩ := h.some
  rfl

theorem NewFile.frame {f : Nat} {content : FileHandle} (h : NewFile f content k k') :
    Frame t k k' := by
  obtain ⟨a, -, rfl⟩ := h.some
  exact (Frame.refl t k).mem a k.oom k.bytes _

theorem Opens.frame {i flags : Nat} {node : VnodeRef} (h : Opens t i node flags k k') :
    Frame t k k' := by
  obtain ⟨f, k₁, hn, rfl⟩ := h
  exact hn.frame.setProc _ (Process.keeps_setFile _ _ _)

/-- Only the table of files changes. -/
theorem Opens.proc {i flags : Nat} {node : VnodeRef} (h : Opens t i node flags k k') :
    ∃ table, k'.procs t = { k.procs t with fileDescriptorsTable := table } := by
  obtain ⟨f, k₁, hn, rfl⟩ := h
  rw [setProc_procs, ← hn.procs]
  exact ⟨_, rfl⟩

theorem CopiesFile.frame {parent i : Nat} (h : CopiesFile parent t i k k') : Frame t k k' := by
  rcases h with ⟨-, rfl⟩ | ⟨-, f, k₁, hn, rfl⟩
  · exact .refl t k'
  · exact hn.frame.setProc _ (Process.keeps_setFile _ _ _)

theorem copyFiles_frame {parent : Nat} {is : List Nat}
    (h : copyFiles parent t is k = some ((), k')) : Frame t k k' := by
  induction is generalizing k with
  | nil =>
      unfold copyFiles at h
      obtain ⟨-, rfl⟩ := Prod.mk.inj (pure_some.1 h)
      exact .refl t k'
  | cons i is ih =>
      obtain ⟨k₁, hc, h⟩ := copyFiles_cons h
      exact hc.frame.trans (ih h)

/-- Copying files changes the table of the child only. -/
theorem copyFiles_child {parent : Nat} {is : List Nat}
    (h : copyFiles parent t is k = some ((), k')) :
    ∃ table, k'.procs t = { k.procs t with fileDescriptorsTable := table } := by
  induction is generalizing k with
  | nil =>
      unfold copyFiles at h
      obtain ⟨-, rfl⟩ := Prod.mk.inj (pure_some.1 h)
      exact ⟨_, rfl⟩
  | cons i is ih =>
      obtain ⟨k₁, hc, h⟩ := copyFiles_cons h
      obtain ⟨table, ht⟩ := ih h
      rcases hc with ⟨-, rfl⟩ | ⟨-, f, k₂, hn, rfl⟩
      · exact ⟨table, ht⟩
      · obtain ⟨a, -, rfl⟩ := hn.some
        rw [setProc_procs] at ht
        exact ⟨table, ht⟩

theorem CopiesArea.frame {v : Vma} {q addr : Nat} {a₁ a₂ a₃ : Alloc}
    (h : CopiesArea t v q addr a₁ a₂ a₃ k k') : Frame t k k' := by
  rw [h.eq]
  refine ((Frame.refl t k).mem a₃ _ _ k.files).setProc _ ?_
  exact (Process.keeps_addAreas _ _).trans (keeps_adopt _ _ _)

theorem copyAreas_frame {vs : List Vma} (h : copyAreas t vs k = some ((), k')) : Frame t k k' := by
  induction vs generalizing k with
  | nil =>
      unfold copyAreas at h
      obtain ⟨-, rfl⟩ := Prod.mk.inj (pure_some.1 h)
      exact .refl t k'
  | cons v vs ih =>
      obtain ⟨k₁, hc, h⟩ := copyAreas_cons h
      rcases hc with ⟨-, hk⟩ | ⟨-, q, addr, a₁, a₂, a₃, hc⟩
      · exact ih (hk ▸ h)
      · exact hc.frame.trans (ih h)

/-! ## steps of the scheduler -/

/-- The scheduler's part of `fork`, and the threads it leaves alone. -/
theorem fork_sched {cpu : ThreadContext} {child : Nat} (h : fork cpu k = some (child, k')) :
    RpiKernel.threadCreate k.sched = some (child, k'.sched) := by
  obtain ⟨k₁, k₂, k₃, k₄, h₁, h₂, h₃, h₄, -, -, rfl⟩ := fork_some h
  obtain ⟨s, b, a, hs, -, -, rfl⟩ := threadCreate_some h₁
  have hf := ((copyFiles_frame h₂).trans (copyAreas_frame h₃)).trans (addFixedAreas_frame h₄)
  rw [hs]
  simp [hf.sched]

theorem mmuDelAllVma_sched (h : mmuDelAllVma t k = some ((), k')) : k'.sched = k.sched := by
  obtain ⟨k₁, hdel, rfl⟩ := mmuDelAllVma_some h
  obtain ⟨a, rfl⟩ := delVmas_some hdel
  rfl

/-- The blocks that `exec` asks for, and the thread with them. -/
theorem exec_loads {f : ExecFile} (h : exec (some f) k = some ((), k')) :
    ∃ k₁ dropped data userSp signalSp a a₁ a₂ a₃ a₄ a₅,
      mmuDelAllVma k.sched.currThread k = some ((), k₁) ∧
      Grants k₁.alloc (execRequests (getsize f % 2 ^ 32) dropped data userSp signalSp) a ∧
      let p := (k.procs k.sched.currThread).noAreas.load (getsize f % 2 ^ 32) data userSp signalSp
      k'.procs k.sched.currThread = ((p.addAreas (imageAreas p a₁ a₂)).addAreas
        (fixedAreas k.handlerWrapper signalSp a₃ a₄ a₅)).inherit fun _ => k.defaultHandler := by
  obtain ⟨f', k₁, dropped, data, userSp, signalSp, a, m, k₃, k₄, handle, k₅, mem, a', he, hdel, hgr, -,
    -, himg, hfix, hopen, -, hk'⟩ := exec_some h
  obtain rfl := Option.some.inj he
  obtain ⟨k₂, hvmas, hk₁⟩ := mmuDelAllVma_some hdel
  obtain ⟨a₀, hk₂⟩ := delVmas_some hvmas
  obtain ⟨a₁, a₂, himg'⟩ := addImageAreas_child himg
  obtain ⟨a₃, a₄, a₅, hfix'⟩ := addFixedAreas_child hfix
  have hf := (addImageAreas_frame himg).trans (addFixedAreas_frame hfix)
  refine ⟨k₁, dropped, data, userSp, signalSp, a, a₁, a₂, a₃, a₄, a₅, hdel, hgr, ?_⟩
  have hh := hf.defaultHandler
  have hw := (addImageAreas_frame himg).handlerWrapper
  rw [hk', setProc_procs]
  dsimp only
  rw [hopen.procs, (hopen.frame (t := 0)).defaultHandler, hfix', himg', hh, hw, setProc_procs]
  dsimp only [took]
  rw [hk₁, setProc_procs, hk₂]
  rfl

/-- `exec` in the thread and in the others. -/
theorem exec_procs {f : ExecFile} (h : exec (some f) k = some ((), k')) :
    (∀ u, u ≠ k.sched.currThread → k'.procs u = k.procs u) ∧
      ∃ data userSp signalSp a₁ a₂ a₃ a₄ a₅,
        let p := (k.procs k.sched.currThread).noAreas.load (getsize f % 2 ^ 32) data userSp signalSp
        k'.procs k.sched.currThread = ((p.addAreas (imageAreas p a₁ a₂)).addAreas
          (fixedAreas k.handlerWrapper signalSp a₃ a₄ a₅)).inherit fun _ => k.defaultHandler := by
  obtain ⟨k₁, dropped, data, userSp, signalSp, a, a₁, a₂, a₃, a₄, a₅, -, -, hp⟩ := exec_loads h
  refine ⟨fun u hu => ?_, data, userSp, signalSp, a₁, a₂, a₃, a₄, a₅, hp⟩
  obtain ⟨f', k₁, dropped, data, userSp, signalSp, a, m, k₃, k₄, handle, k₅, mem, a', -, hdel, -, -,
    -, himg, hfix, hopen, -, hk'⟩ := exec_some h
  obtain ⟨k₂, hvmas, hk₁⟩ := mmuDelAllVma_some hdel
  obtain ⟨a₀, hk₂⟩ := delVmas_some hvmas
  have hf := (addImageAreas_frame himg).trans (addFixedAreas_frame hfix)
  rw [hk', setProc_procs_other _ hu]
  dsimp only
  rw [hopen.procs, hf.other u hu, setProc_procs_other _ hu]
  dsimp only [took]
  rw [hk₁, setProc_procs_other _ hu, hk₂]

theorem exec_sched {file : Option ExecFile} (h : exec file k = some ((), k')) :
    k'.sched = k.sched := by
  obtain ⟨f, k₁, dropped, data, userSp, signalSp, a, m, k₃, k₄, handle, k₅, mem, a', -, hdel, -, -, -,
    himg, hfix, hopen, -, rfl⟩ := exec_some h
  have hf := ((addImageAreas_frame himg).trans (addFixedAreas_frame hfix)).trans hopen.frame
  have hdel := mmuDelAllVma_sched hdel
  rw [setProc_sched, ← hdel]
  exact hf.sched

theorem Creates.sched (h : Creates k k') : k'.sched = k.sched := by
  rcases h with rfl | ⟨v, hv⟩
  · rfl
  · obtain ⟨inode, data, a, -, -, -, rfl⟩ := tmpfsCreateVnode_some hv
    rfl

theorem Creates.procs (h : Creates k k') : k'.procs = k.procs := by
  rcases h with rfl | ⟨v, hv⟩
  · rfl
  · obtain ⟨inode, data, a, -, -, -, rfl⟩ := tmpfsCreateVnode_some hv
    rfl

theorem openFile_sched {target : OpenTarget} {flags : Nat} {r : Option Nat}
    (h : openFile target flags k = some (r, k')) : k'.sched = k.sched := by
  rcases openFile_some h with rfl | ⟨i, -, -, node, k₁, hc, ho⟩
  · rfl
  · exact ho.frame.sched.trans hc.sched

theorem close_sched {fd : Int} {r : Bool} (h : close fd k = some (r, k')) : k'.sched = k.sched := by
  obtain ⟨-, -, ⟨-, rfl⟩ | ⟨-, a, -, rfl⟩⟩ := close_some h <;> rfl

theorem onSched_procs {f : Sched → Option Sched} (h : onSched f k = some ((), k')) :
    k'.procs = k.procs := by
  obtain ⟨s, -, hr⟩ := onSched_some.1 h
  rw [(Prod.mk.inj hr).2]

theorem fault_procs {far iss : Nat} (h : mmuMemfailAbortHandle n far iss k = some ((), k')) :
    k'.procs = k.procs := by
  unfold mmuMemfailAbortHandle at h
  rw [bind_some] at h
  obtain ⟨b, k₁, h₁, h⟩ := h
  rcases memfailAbort_some h₁ with ⟨rfl, rfl⟩ | ⟨rfl, v, -, -, va, pa, m, -, rfl⟩
  · rw [if_pos rfl] at h
    have hp := onSched_procs h
    exact hp
  · rw [(Prod.mk.inj (pure_some.1 h)).2]

/-- A page fault as a step of the scheduler. -/
theorem fault_sched {far iss : Nat} (hu : k.sched.currThread ≠ 0)
    (h : mmuMemfailAbortHandle n far iss k = some ((), k')) :
    k'.sched = k.sched ∨ schedStep k.sched (n, .threadExit) = some k'.sched := by
  unfold mmuMemfailAbortHandle at h
  rw [bind_some] at h
  obtain ⟨b, k₁, h₁, h⟩ := h
  rcases memfailAbort_some h₁ with ⟨rfl, rfl⟩ | ⟨rfl, v, -, -, va, pa, m, -, rfl⟩
  · obtain ⟨s, hs, hr⟩ := onSched_some.1 h
    rw [(Prod.mk.inj hr).2]
    exact Or.inr ((if_pos hu).trans hs)
  · rw [(Prod.mk.inj (pure_some.1 h)).2]
    exact Or.inl rfl

end Kernel

section

variable {k k' : Kernel} {n : Nat}

theorem kernelStep_some {a : KernelAct} (h : kernelStep k (n, a) = some k') :
    a.Enabled k ∧ a.perform n k = some k' := by
  unfold kernelStep at h
  split at h
  next hen => exact ⟨hen, h⟩
  next => cases h

theorem kernelStep_of {a : KernelAct} (hen : a.Enabled k) (h : a.perform n k = some k') :
    kernelStep k (n, a) = some k' := (if_pos hen).trans h

/-! ## booting -/

theorem Kernel.threadExec_sched {data filesize : Nat} {uart : VnodeRef}
    (h : Kernel.threadExec data filesize uart k = some ((), k')) :
    RpiKernel.threadExec k.sched = some k'.sched := by
  obtain ⟨t, k₁, k₂, k₃, k₄, k₅, mem, h₁, h₂, h₃, h₄, h₅, h₆⟩ := Kernel.threadExec_some h
  obtain ⟨s, b, a, hs, -, -, rfl⟩ := Kernel.threadCreate_some h₁
  have hf := (Kernel.addImageAreas_frame h₂).trans (Kernel.addFixedAreas_frame h₃)
  have ho := (h₄.frame.trans h₅.frame).trans h₆.frame
  unfold RpiKernel.threadExec
  rw [hs, ho.sched, Option.map_some]
  simp [hf.sched]

theorem Kernel.addImageAreas_oom {t : Nat} (h : Kernel.addImageAreas t k = some ((), k')) :
    k'.oom = k.oom := by
  obtain ⟨a₁, a₂, a, -, -, hr⟩ := Kernel.addImageAreas_some h
  rw [(Prod.mk.inj hr).2]
  rfl

theorem Kernel.addFixedAreas_oom {t : Nat} (h : Kernel.addFixedAreas t k = some ((), k')) :
    k'.oom = k.oom := by
  obtain ⟨a₁, a₂, a₃, a, -, -, hr⟩ := Kernel.addFixedAreas_some h
  rw [(Prod.mk.inj hr).2]
  rfl

theorem Kernel.Opens.oom {t i flags : Nat} {node : VnodeRef} (h : Kernel.Opens t i node flags k k') :
    k'.oom = k.oom := by
  obtain ⟨f, k₁, hn, rfl⟩ := h
  obtain ⟨a, -, rfl⟩ := hn.some
  rfl

/-- The blocks that `thread_exec` asks for, and the new thread with them. -/
theorem Kernel.threadExec_loads {data filesize : Nat} {uart : VnodeRef}
    (h : Kernel.threadExec data filesize uart k = some ((), k')) :
    ∃ (b : Kernel.NewThread) (a : Alloc) (p : Process) (table : Nat → Nat) (a₁ a₂ a₃ a₄ a₅ : Nat),
      Grants k.alloc (b.requests filesize) a ∧
      k'.oom = (k.oom || (b.requests filesize).any fun r => r.2 == 0) ∧
      let q := b.process data filesize k.defaultHandler p
      k'.procs k'.sched.currThread = { ((q.addAreas (Kernel.imageAreas q a₁ a₂)).addAreas
        (Kernel.fixedAreas k.handlerWrapper b.signalSp a₃ a₄ a₅)).enter with fileDescriptorsTable := table } := by
  obtain ⟨t, k₁, k₂, k₃, k₄, k₅, mem, h₁, h₂, h₃, h₄, h₅, h₆⟩ := Kernel.threadExec_some h
  obtain ⟨s, b, a, hs, hg, -, hk₁⟩ := Kernel.threadCreate_some h₁
  obtain ⟨a₁, a₂, himg⟩ := Kernel.addImageAreas_child h₂
  obtain ⟨a₃, a₄, a₅, hfix⟩ := Kernel.addFixedAreas_child h₃
  obtain ⟨t₄, ht₄⟩ := h₄.proc
  obtain ⟨t₅, ht₅⟩ := h₅.proc
  obtain ⟨t₆, ht₆⟩ := h₆.proc
  have ho := (h₄.frame.trans h₅.frame).trans h₆.frame
  have hcurr : k'.sched.currThread = t := by rw [ho.sched]; rfl
  have hw : k₂.handlerWrapper = k.handlerWrapper := by
    rw [(Kernel.addImageAreas_frame h₂).handlerWrapper, hk₁]
    rfl
  have hp₁ : k₁.procs t = b.process data filesize k.defaultHandler (k.procs t) := by
    rw [hk₁, Kernel.setProc_procs]
    rfl
  have hsignal : (k₂.procs t).signalSp = b.signalSp := by
    rw [himg, hp₁]
    rfl
  refine ⟨b, a, k.procs t, t₆, a₁, a₂, a₃, a₄, a₅, hg, ?_, ?_⟩
  · rw [h₆.oom, h₅.oom, h₄.oom]
    dsimp only
    rw [Kernel.setProc_oom, Kernel.addFixedAreas_oom h₃, Kernel.addImageAreas_oom h₂, hk₁]
    rfl
  · rw [hcurr, ht₆, ht₅, ht₄]
    dsimp only
    rw [Kernel.setProc_procs, hfix, hsignal, himg, hw, hp₁]

/-- `thread_exec` in the new thread and in the others. -/
theorem Kernel.threadExec_procs {data filesize : Nat} {uart : VnodeRef}
    (h : Kernel.threadExec data filesize uart k = some ((), k')) :
    (∀ u, u ≠ k'.sched.currThread → k'.procs u = k.procs u) ∧
      ∃ a₁ a₂ a₃ a₄ a₅ signalSp p, p.datasize = filesize ∧
        (k'.procs k'.sched.currThread).vmaList =
          Kernel.imageAreas p a₁ a₂ ++ Kernel.fixedAreas k.handlerWrapper signalSp a₃ a₄ a₅ := by
  constructor
  · obtain ⟨t, k₁, k₂, k₃, k₄, k₅, mem, h₁, h₂, h₃, h₄, h₅, h₆⟩ := Kernel.threadExec_some h
    obtain ⟨s, b, a, hs, -, -, hk₁⟩ := Kernel.threadCreate_some h₁
    have hf := (Kernel.addImageAreas_frame h₂).trans (Kernel.addFixedAreas_frame h₃)
    have ho := (h₄.frame.trans h₅.frame).trans h₆.frame
    have hcurr : k'.sched.currThread = t := by rw [ho.sched]; rfl
    rw [hcurr]
    intro u hu
    rw [ho.other u hu]
    dsimp only
    rw [Kernel.setProc_procs_other _ hu, hf.other u hu, hk₁, Kernel.setProc_procs_other _ hu]
    rfl
  · obtain ⟨b, a, p, table, a₁, a₂, a₃, a₄, a₅, -, -, hp⟩ := Kernel.threadExec_loads h
    exact ⟨a₁, a₂, a₃, a₄, a₅, b.signalSp, b.process data filesize k.defaultHandler p, rfl,
      congrArg Process.vmaList hp⟩

/-- After booting the first program runs, and only idle is alive besides. -/
theorem Kernel.Booted.sched {data filesize : Nat} {uart : VnodeRef}
    (h : k.Booted data filesize uart) : k.sched = schedBoot := by
  obtain ⟨k₀, h₀, hx⟩ := h
  have hs := schedBoot_eq
  rw [h₀.sched, Option.bind_some, Kernel.threadExec_sched hx] at hs
  exact Option.some.inj hs

theorem Kernel.Booted.curr {data filesize : Nat} {uart : VnodeRef}
    (h : k.Booted data filesize uart) : k.sched.currThread = 1 := by
  rw [h.sched]
  decide +kernel

theorem Kernel.Booted.curr_ne {data filesize : Nat} {uart : VnodeRef}
    (h : k.Booted data filesize uart) : k.sched.currThread ≠ 0 := by
  rw [h.curr]
  decide

theorem Kernel.Booted.scheduled {data filesize : Nat} {uart : VnodeRef}
    (h : k.Booted data filesize uart) : Scheduled k.sched :=
  ⟨_, h.sched ▸ schedBoot_inv.1⟩

theorem schedBoot_free {j : Nat} (h0 : j ≠ 0) (h1 : j ≠ 1) : schedBoot.status j = .free := by
  obtain ⟨s, hs, hx⟩ := Option.bind_eq_some_iff.1 schedBoot_eq
  obtain ⟨⟨t₀, s₁⟩, hc₀, rfl⟩ := Option.map_eq_some_iff.1 hs
  obtain ⟨⟨t₁, s₂⟩, hc₁, hb⟩ := Option.map_eq_some_iff.1 hx
  obtain ⟨-, -, rfl⟩ := threadCreate_spec hc₀
  obtain ⟨-, -, rfl⟩ := threadCreate_spec hc₁
  have ht₁ : t₁ = 1 := by
    have hc : schedBoot.currThread = 1 := by decide +kernel
    rwa [← hb] at hc
  have ht₀ : t₀ = 0 := by
    have hc : ((initThreadSched staticSched).map Sched.currThread) = some 0 := by decide +kernel
    rw [hs] at hc
    exact Option.some.inj hc
  subst ht₀ ht₁
  have hclear : (clearThreads staticSched).status j = .free := by
    simp [clearThreads, staticSched, Sched.status]
  rw [← hb]
  simp [h0, h1, hclear]

/-- The scheduler's part of a step. -/
theorem kernelStep_sched {a : KernelAct} (h : kernelStep k (n, a) = some k') :
    (k'.sched = k.sched) ∨ ∃ b, schedStep k.sched (n, b) = some k'.sched ∧
      (b = .fork ↔ ∃ cpu, a = .fork cpu) ∧ (b = .killZombies ↔ a = .killZombies) := by
  obtain ⟨hen, h⟩ := kernelStep_some h
  cases a with
  | fork cpu =>
      obtain ⟨⟨child, k'⟩, hf, rfl⟩ := Option.map_eq_some_iff.1 h
      refine Or.inr ⟨.fork, (if_pos hen).trans ?_, by simp, by simp⟩
      simp only [SchedAct.perform, RpiKernel.fork, Kernel.fork_sched hf, Option.map_some]
  | exec file =>
      obtain ⟨⟨_, k'⟩, hf, rfl⟩ := Option.map_eq_some_iff.1 h
      exact Or.inl (Kernel.exec_sched hf)
  | mmap addr len prot =>
      obtain ⟨⟨r, k'⟩, hf, rfl⟩ := Option.map_eq_some_iff.1 h
      obtain ⟨-, ptr, a₁, rec, a₂, mem, -, -, -, -, rfl⟩ := Kernel.mmap_some hf
      exact Or.inl rfl
  | openFile target flags =>
      obtain ⟨⟨r, k'⟩, hf, rfl⟩ := Option.map_eq_some_iff.1 h
      exact Or.inl (Kernel.openFile_sched hf)
  | close fd =>
      obtain ⟨⟨r, k'⟩, hf, rfl⟩ := Option.map_eq_some_iff.1 h
      exact Or.inl (Kernel.close_sched hf)
  | chdir path =>
      obtain ⟨⟨_, k'⟩, hf, rfl⟩ := Option.map_eq_some_iff.1 h
      obtain ⟨cwd, rfl⟩ := Kernel.chdir_some hf
      exact Or.inl rfl
  | fault far iss =>
      obtain ⟨⟨_, k'⟩, hf, rfl⟩ := Option.map_eq_some_iff.1 h
      refine (Kernel.fault_sched hen hf).imp_right fun hs => ⟨.threadExit, hs, by simp, by simp⟩
  | exit =>
      simp only [KernelAct.perform] at h
      obtain ⟨⟨_, k'⟩, hf, rfl⟩ := Option.map_eq_some_iff.1 h
      obtain ⟨s, hs, hr⟩ := Kernel.onSched_some.1 hf
      rw [(Prod.mk.inj hr).2]
      exact Or.inr ⟨.exit, (if_pos hen).trans hs, by simp, by simp⟩
  | kill pid =>
      obtain ⟨⟨_, k'⟩, hf, rfl⟩ := Option.map_eq_some_iff.1 h
      obtain ⟨s, hs, hr⟩ := Kernel.onSched_some.1 hf
      rw [(Prod.mk.inj hr).2]
      exact Or.inr ⟨.kill pid, (if_pos hen).trans hs, by simp, by simp⟩
  | signalDefault =>
      obtain ⟨⟨_, k'⟩, hf, rfl⟩ := Option.map_eq_some_iff.1 h
      obtain ⟨s, hs, hr⟩ := Kernel.onSched_some.1 hf
      rw [(Prod.mk.inj hr).2]
      exact Or.inr ⟨.signalDefault, (if_pos hen).trans hs, by simp, by simp⟩
  | schedule =>
      obtain ⟨⟨_, k'⟩, hf, rfl⟩ := Option.map_eq_some_iff.1 h
      obtain ⟨s, hs, hr⟩ := Kernel.onSched_some.1 hf
      rw [(Prod.mk.inj hr).2]
      exact Or.inr ⟨.schedule, (if_pos hen).trans hs, by simp, by simp⟩
  | killZombies =>
      obtain ⟨⟨_, k'⟩, hf, rfl⟩ := Option.map_eq_some_iff.1 h
      have hk : Kernel.killZombiesLoop n k.sched.rqHead k = some ((), k') := hf
      exact Or.inr ⟨.killZombies, (if_pos hen).trans (Kernel.killZombiesLoop_some hk).1, by simp,
        by simp⟩
  | take size =>
      obtain ⟨⟨_, k'⟩, hf, rfl⟩ := Option.map_eq_some_iff.1 h
      obtain ⟨-, p, a, -, rfl⟩ := Kernel.take_some hf
      exact Or.inl rfl
  | give ptr size =>
      obtain ⟨⟨_, k'⟩, hf, rfl⟩ := Option.map_eq_some_iff.1 h
      obtain ⟨-, a, -, rfl⟩ := Kernel.give_some hf
      exact Or.inl rfl

theorem kernelStep_scheduled {a : KernelAct} (hs : Scheduled k.sched)
    (h : kernelStep k (n, a) = some k') : Scheduled k'.sched := by
  rcases kernelStep_sched h with he | ⟨b, hb, -, -⟩
  · rwa [he]
  · exact hs.step hb

/-- Slots are taken by `fork` and given back by `kill_zombies`. -/
theorem kernelStep_free {a : KernelAct} (h : kernelStep k (n, a) = some k') (hs : Scheduled k.sched)
    (hf : ∀ cpu, a ≠ .fork cpu) (hz : a ≠ .killZombies) (t : Nat) :
    k'.sched.status t = .free ↔ k.sched.status t = .free := by
  rcases kernelStep_sched h with he | ⟨b, hb, hbf, hbz⟩
  · rw [he]
  · refine schedStep_free ?_ hb hs.curr t
    have h₁ : b ≠ .fork := fun he => by
      obtain ⟨cpu, hc⟩ := hbf.1 he
      exact hf cpu hc
    have h₂ : b ≠ .killZombies := fun he => hz (hbz.1 he)
    cases b <;> simp_all [SchedAct.Local]

end

end RpiKernel
