import RpiKernel.Process.Areas
import RpiKernel.Vfs.WorkingDir

/-!
# RpiKernel.Process.WorkingDirs

The working directories of all threads over runs of the kernel: a new thread starts
in `/`, and only `chdir` moves the thread that calls it (`kernelRun_workingDirs`).
-/

namespace RpiKernel

open Custody Sched Runs

namespace Kernel

/-- Every thread is in a working directory.  Idle makes no system calls. -/
def WorkingDirs (k : Kernel) : Prop :=
  ∀ t, t ≠ 0 → k.sched.status t ≠ .free → WorkingDir (k.procs t).currWorkingDir

/-- `chdir` gets an absolute path, or one that fits behind the working directory. -/
def FitsChdir (k : Kernel) : Nat × KernelAct → Prop
  | (_, .chdir path) => path.head? = some '/' ∨
      (k.procs k.sched.currThread).currWorkingDir.length + path.length + 2 ≤ maxPathName
  | _ => True

variable {k k' : Kernel} {t n : Nat}

theorem setProc_cwd {f : Process → Process} (hf : ∀ p, (f p).currWorkingDir = p.currWorkingDir) (u : Nat) :
    ((k.setProc t f).procs u).currWorkingDir = (k.procs u).currWorkingDir :=
  setProc_field hf u

theorem Process.resume_cwd (cpu : ThreadContext) (kernelSp : Nat) (p : Process) :
    (p.resume cpu kernelSp).currWorkingDir = p.currWorkingDir := rfl

theorem Process.save_cwd (cpu : ThreadContext) (p : Process) :
    (p.save cpu).currWorkingDir = p.currWorkingDir := rfl

theorem Process.enter_cwd (p : Process) : p.enter.currWorkingDir = p.currWorkingDir := rfl

theorem Process.addAreas_cwd (vs : List Vma) (p : Process) :
    (p.addAreas vs).currWorkingDir = p.currWorkingDir := rfl

/-- `fork` moves no thread, and the child starts in `/`. -/
theorem fork_cwd {cpu : ThreadContext} {child : Nat} (h : fork cpu k = some (child, k')) (u : Nat) :
    (k'.procs u).currWorkingDir = if u = child then ['/'] else (k.procs u).currWorkingDir := by
  obtain ⟨k₁, k₂, k₃, k₄, h₁, h₂, h₃, h₄, -, -, rfl⟩ := fork_some h
  obtain ⟨s, b, a, -, -, -, rfl⟩ := threadCreate_some h₁
  have hf := ((copyFiles_frame h₂).trans (copyAreas_frame h₃)).trans (addFixedAreas_frame h₄)
  rw [setProc_cwd (Process.resume_cwd cpu _), setProc_cwd (Process.save_cwd cpu)]
  by_cases hu : u = child
  · subst hu
    rw [if_pos rfl]
    dsimp only
    rw [hf.keeps.currWorkingDir, setProc_procs, setProc_procs]
    rfl
  · rw [if_neg hu]
    dsimp only
    rw [hf.other u hu, setProc_procs_other _ hu, setProc_procs_other _ hu]
    rfl

theorem exec_cwd {file : Option ExecFile} (h : exec file k = some ((), k')) (u : Nat) :
    (k'.procs u).currWorkingDir = (k.procs u).currWorkingDir := by
  cases file with
  | none =>
      obtain ⟨f, -, -, -, -, -, -, -, -, -, -, -, -, -, hf, -⟩ := exec_some h
      cases hf
  | some f =>
      obtain ⟨hother, data, userSp, signalSp, a₁, a₂, a₃, a₄, a₅, hp⟩ := exec_procs h
      by_cases hu : u = k.sched.currThread
      · rw [hu, hp]
        rfl
      · rw [hother u hu]

/-- Where `chdir` goes. -/
theorem chdir_procs {path : List Char} (h : chdir path k = some ((), k')) :
    path.length < maxPathName ∧ k' = k.setProc k.sched.currThread fun p =>
      { p with currWorkingDir :=
          getAbsolutePath path (k.procs k.sched.currThread).currWorkingDir } := by
  unfold chdir at h
  rw [currThread_bind, proc_bind, guard_some] at h
  obtain ⟨hlen, h⟩ := h
  rw [not_or, Nat.not_le, Nat.not_le] at hlen
  exact ⟨hlen.1, (Prod.mk.inj (modifyProc_some.1 h)).2⟩

/-! ## steps -/

variable {k₀ : Kernel} {data filesize : Nat} {uart : VnodeRef}

/-- A step moves no thread but a new one and the one that calls `chdir`. -/
theorem kernelStep_cwd {a : KernelAct} (hs : kernelStep k (n, a) = some k') (ha : ∀ path, a ≠ .chdir path)
    (hf : ∀ cpu, a ≠ .fork cpu) (t : Nat) : (k'.procs t).currWorkingDir = (k.procs t).currWorkingDir := by
  by_cases hm : a.MovesAreas
  · obtain ⟨-, hp⟩ := kernelStep_some hs
    cases a with
    | fork cpu => exact absurd rfl (hf cpu)
    | exec file =>
        obtain ⟨⟨_, k'⟩, hx, rfl⟩ := Option.map_eq_some_iff.1 hp
        exact exec_cwd hx t
    | mmap addr len prot =>
        obtain ⟨⟨r, k'⟩, hx, rfl⟩ := Option.map_eq_some_iff.1 hp
        obtain ⟨-, ptr, a₁, rec, a₂, mem, -, -, -, -, rfl⟩ := mmap_some hx
        exact setProc_cwd (Process.addAreas_cwd _) t
    | killZombies =>
        obtain ⟨⟨_, k'⟩, hx, rfl⟩ := Option.map_eq_some_iff.1 hp
        have hk : killZombiesLoop n k.sched.rqHead k = some ((), k') := hx
        rcases (killZombiesLoop_some hk).2.2.2.2 t with ⟨hpr, -⟩ | ⟨hpr, -⟩
        · rw [hpr]
        · rw [hpr]
          rfl
    | _ => exact absurd hm id
  · rcases kernelStep_procs hs hm ha t with he | ⟨i, f, he⟩
    · rw [he]
    · rw [he]
      rfl

/-- A new thread, and the threads that are there. -/
theorem WorkingDirs.fork {cpu : ThreadContext} (h : WorkingDirs k) (hs : kernelStep k (n, .fork cpu) = some k') :
    WorkingDirs k' := by
  obtain ⟨⟨child, k'⟩, hx, rfl⟩ := Option.map_eq_some_iff.1 (kernelStep_some hs).2
  obtain ⟨-, -, hst⟩ := threadCreate_spec (fork_sched hx)
  intro t ht hfree
  rw [fork_cwd hx]
  by_cases hc : t = child
  · rw [if_pos hc]
    exact ⟨rfl, by decide, by decide⟩
  · rw [if_neg hc]
    refine h t ht ?_
    rw [hst] at hfree
    simpa [hc] using hfree

/-- `chdir` moves the thread that calls it. -/
theorem WorkingDirs.chdir {path : List Char} (h : WorkingDirs k) (hsched : Scheduled k.sched)
    (hs : kernelStep k (n, .chdir path) = some k') : WorkingDirs k' ↔ FitsChdir k (n, .chdir path) := by
  obtain ⟨hen, hp⟩ := kernelStep_some hs
  obtain ⟨⟨_, k'⟩, hx, rfl⟩ := Option.map_eq_some_iff.1 hp
  obtain ⟨hlen, rfl⟩ := chdir_procs hx
  have hcurr : WorkingDir (k.procs k.sched.currThread).currWorkingDir := h _ hen hsched.curr
  have hiff := getAbsolutePath_workingDir hcurr hlen
  constructor
  case mp =>
    intro h'
    have hcwd := h' k.sched.currThread hen hsched.curr
    rw [setProc_procs] at hcwd
    exact hiff.1 hcwd
  case mpr =>
    intro hfits t ht hfree
    by_cases hc : t = k.sched.currThread
    · rw [hc, setProc_procs]
      exact hiff.2 hfits
    · rw [setProc_procs_other _ hc]
      exact h t ht hfree

/-- What a step does to the working directories. -/
theorem WorkingDirs.step {a : Nat × KernelAct} (h : WorkingDirs k) (hsched : Scheduled k.sched)
    (hs : kernelStep k a = some k') : WorkingDirs k' ↔ FitsChdir k a := by
  obtain ⟨n, a⟩ := a
  by_cases hc : ∃ path, a = .chdir path
  · obtain ⟨path, rfl⟩ := hc
    exact h.chdir hsched hs
  have hfits : FitsChdir k (n, a) := by
    cases a with
    | chdir path => exact absurd ⟨path, rfl⟩ hc
    | _ => trivial
  refine iff_of_true ?_ hfits
  by_cases hf : ∃ cpu, a = .fork cpu
  · obtain ⟨cpu, rfl⟩ := hf
    exact h.fork hs
  intro t ht hfree
  rw [kernelStep_cwd hs (fun path he => hc ⟨path, he⟩) fun cpu he => hf ⟨cpu, he⟩]
  refine h t ht fun hfree' => hfree ?_
  by_cases hz : a = .killZombies
  · subst hz
    obtain ⟨⟨_, k'⟩, hx, rfl⟩ := Option.map_eq_some_iff.1 (kernelStep_some hs).2
    have hk : killZombiesLoop n k.sched.rqHead k = some ((), k') := hx
    rcases (killZombiesLoop_some hk).2.2.2.2 t with ⟨-, hst⟩ | ⟨-, hst⟩
    · rw [hst, hfree']
    · exact hst
  · exact (kernelStep_free hs hsched (fun cpu he => hf ⟨cpu, he⟩) hz t).2 hfree'

/-- The first program starts in `/`. -/
theorem Booted.cwd (hb : k₀.Booted data filesize uart) :
    (k₀.procs k₀.sched.currThread).currWorkingDir = ['/'] := by
  obtain ⟨k, hk, hx⟩ := hb
  obtain ⟨t, k₁, k₂, k₃, k₄, k₅, mem, h₁, h₂, h₃, h₄, h₅, h₆⟩ := threadExec_some hx
  obtain ⟨s, b, a, hs, -, -, hk₁⟩ := threadCreate_some h₁
  have hf := (addImageAreas_frame h₂).trans (addFixedAreas_frame h₃)
  have ho := (h₄.frame.trans h₅.frame).trans h₆.frame
  have hcurr : k₀.sched.currThread = t := by rw [ho.sched]; rfl
  rw [hcurr, ho.keeps.currWorkingDir]
  dsimp only
  rw [setProc_cwd Process.enter_cwd, hf.keeps.currWorkingDir, hk₁, setProc_procs]
  rfl

theorem Booted.workingDirs (hb : k₀.Booted data filesize uart) : WorkingDirs k₀ := by
  intro t ht hfree
  have hone : t = k₀.sched.currThread := by
    rw [hb.curr]
    by_contra hne
    exact hfree (hb.sched ▸ schedBoot_free ht hne)
  rw [hone, hb.cwd]
  exact ⟨rfl, by decide, by decide⟩

/-- **Working directories.**  In every run in which each `chdir` gets an absolute
path or one that fits behind the working directory, every thread is in a directory
whose path begins with a slash, has no component `.` or `..` and fits its buffer; and
a step from there keeps that if and only if it meets the condition. -/
theorem kernelRun_workingDirs (hb : k₀.Booted data filesize uart) (hr : Reach kernelStep FitsChdir k₀ k) :
    WorkingDirs k ∧ ∀ a k', kernelStep k a = some k' → (WorkingDirs k' ↔ FitsChdir k a) := by
  have h : Scheduled k.sched ∧ WorkingDirs k := by
    refine hr.inv (I := fun k => Scheduled k.sched ∧ WorkingDirs k) ⟨hb.scheduled, hb.workingDirs⟩ ?_
    rintro k ⟨n, a⟩ k' ⟨hsched, hdirs⟩ hg hs
    exact ⟨kernelStep_scheduled hsched hs, (hdirs.step hsched hs).2 hg⟩
  exact ⟨h.2, fun a k' hs => h.2.step h.1 hs⟩

/-- A `chdir` that fits its buffers comes back. -/
theorem kernelStep_chdir {path cwd : List Char} (hu : k.sched.currThread ≠ 0) (hlen : path.length < maxPathName)
    (hcwd : getAbsolutePath path (k.procs k.sched.currThread).currWorkingDir = cwd)
    (hcwdlen : cwd.length < maxPathName) : kernelStep k (n, .chdir path) =
      some (k.setProc k.sched.currThread fun p => { p with currWorkingDir := cwd }) := by
  refine kernelStep_of hu ?_
  have hfits : ¬ (path.length ≥ maxPathName ∨ cwd.length ≥ maxPathName) := by omega
  have hx : chdir path k = some ((), k.setProc k.sched.currThread fun p => { p with currWorkingDir := cwd }) := by
    unfold chdir
    rw [currThread_bind, proc_bind, hcwd, guard_some]
    exact ⟨hfits, modifyProc_some.2 rfl⟩
  exact congrArg (Option.map Prod.snd) hx

/-- A directory whose path fills the buffer. -/
def longDir : List Char := '/' :: List.replicate 253 'a'

theorem length_longDir : longDir.length = 254 := by
  unfold longDir
  rw [List.length_cons, List.length_replicate]

theorem longDir_absolute : getAbsolutePath longDir ['/'] = longDir := by decide +kernel

/-- Behind it there is no place for another component. -/
theorem longDir_full : getAbsolutePath ['.', '.'] longDir = ['.', '.'] :=
  getAbsolutePath_long (by decide) (by rw [length_longDir]; decide)

theorem kernelStep_longDir (hb : k₀.Booted data filesize uart) : kernelStep k₀ (0, .chdir longDir) =
    some (k₀.setProc k₀.sched.currThread fun p => { p with currWorkingDir := longDir }) := by
  have hshort : longDir.length < maxPathName := by
    rw [length_longDir]
    decide
  refine kernelStep_chdir ?_ hshort ?_ hshort
  · rw [hb.curr]
    decide
  · rw [hb.cwd]
    exact longDir_absolute

theorem kernelRun_workingDirs_long : ∃ k₀ k, k₀.Booted 0 1 ⟨0, .uart⟩ ∧
    run kernelStep k₀ [(0, .chdir longDir)] = some k ∧ WorkingDirs k ∧
      ∀ a k', kernelStep k a = some k' → (WorkingDirs k' ↔ FitsChdir k a) := by
  obtain ⟨k₀, hb, -, -⟩ := smallBooted ⟨0, .uart⟩ (by decide : 1 ≤ 0x4000)
  have hs := kernelStep_longDir hb
  have hr : Reach kernelStep FitsChdir k₀ _ := .step (0, .chdir longDir) .init (Or.inl rfl) hs
  exact ⟨k₀, _, hb, run_cons _ hs, kernelRun_workingDirs hb hr⟩

/-- From there the path `..` comes back as it is. -/
theorem chdir_parent_fails : ∃ k₀ k, k₀.Booted 0 1 ⟨0, .uart⟩ ∧
    run kernelStep k₀ [(0, .chdir longDir), (0, .chdir ['.', '.'])] = some k ∧
      k.sched.status 1 = .active ∧ (k.procs 1).currWorkingDir = ['.', '.'] ∧ ¬ WorkingDirs k := by
  obtain ⟨k₀, hb, -, -⟩ := smallBooted ⟨0, .uart⟩ (by decide : 1 ≤ 0x4000)
  have hc := hb.curr
  have hs := kernelStep_longDir hb
  generalize hk₁ : k₀.setProc k₀.sched.currThread _ = k₁ at hs
  have hsched₁ : k₁.sched = k₀.sched := by rw [← hk₁]; rfl
  have hcwd₁ : (k₁.procs k₁.sched.currThread).currWorkingDir = longDir := by
    rw [hsched₁, ← hk₁, setProc_procs]
  have hu : k₁.sched.currThread ≠ 0 := by
    rw [hsched₁, hc]
    decide
  have hcwd : getAbsolutePath ['.', '.'] (k₁.procs k₁.sched.currThread).currWorkingDir = ['.', '.'] := by
    rw [hcwd₁]
    exact longDir_full
  have hs₂ := kernelStep_chdir (n := 0) hu (by decide) hcwd (by decide)
  refine ⟨k₀, _, hb, (run_cons _ hs).trans (run_cons _ hs₂), ?_⟩
  have hstatus : k₁.sched.status 1 = .active := by
    rw [hsched₁, hb.sched]
    decide +kernel
  have hcwd₂ : ((k₁.setProc k₁.sched.currThread fun p => { p with currWorkingDir := ['.', '.'] }).procs
      1).currWorkingDir = ['.', '.'] := by
    rw [hsched₁, hc, setProc_procs]
  refine ⟨hstatus, hcwd₂, fun hdirs => ?_⟩
  have hhead := (hdirs 1 (by decide) (by rw [setProc_sched, hstatus]; decide)).head
  rw [hcwd₂] at hhead
  exact absurd hhead (by decide)

end Kernel

end RpiKernel
