import RpiKernel.Process.Lifetimes
import RpiKernel.Process.Progress

/-!
# RpiKernel.Process.Slots

What a new thread finds in its slot.  `thread_create` resets the signals below
`SIGNAL_MAX` and not `SIGNAL_MAX` itself, and neither it nor `kill_zombies` empties
the table of files: a new thread is clean exactly when the last life of its slot
left these clean (`threadCreate_clean`).
-/

namespace RpiKernel

open Custody Sched

/-- A thread without signals, handlers, files and areas, in the root directory. -/
structure Process.Clean (handler : Nat) (p : Process) : Prop where
  sigcount : ∀ i ≤ signalMax, p.sigcount i = 0
  signalHandler : ∀ i ≤ signalMax, p.signalHandler i = handler
  files : ∀ i ≤ maxFd, p.fileDescriptorsTable i = 0
  unchecked : p.signalIsChecking = false
  areas : p.vmaList = []
  directory : p.currWorkingDir = ['/']

/-- What is left in a slot is clean: the last signal and the files. -/
structure Process.LeavesClean (handler : Nat) (p : Process) : Prop where
  sigcount : p.sigcount signalMax = 0
  signalHandler : p.signalHandler signalMax = handler
  files : ∀ i ≤ maxFd, p.fileDescriptorsTable i = 0

namespace Kernel

section

variable {start filesize handler i : Nat} {p : Process} {b : NewThread}

theorem NewThread.process_sigcount (hi : i < signalMax) :
    (b.process start filesize handler p).sigcount i = 0 := if_pos hi

theorem NewThread.process_signalHandler (hi : i < signalMax) :
    (b.process start filesize handler p).signalHandler i = handler := if_pos hi

/-- The last signal is what it was. -/
theorem NewThread.process_last :
    (b.process start filesize handler p).sigcount signalMax = p.sigcount signalMax ∧
      (b.process start filesize handler p).signalHandler signalMax = p.signalHandler signalMax := by
  constructor <;> simp [NewThread.process]

/-- The thread that is set up in a slot. -/
theorem NewThread.process_clean :
    (b.process start filesize handler p).Clean handler ↔ p.LeavesClean handler := by
  obtain ⟨hcount, hhandler⟩ : (b.process start filesize handler p).sigcount signalMax = p.sigcount signalMax ∧
      (b.process start filesize handler p).signalHandler signalMax = p.signalHandler signalMax :=
    NewThread.process_last
  constructor
  · intro h
    exact ⟨hcount.symm.trans (h.sigcount _ le_rfl), hhandler.symm.trans (h.signalHandler _ le_rfl), h.files⟩
  · intro h
    refine ⟨fun i hi => ?_, fun i hi => ?_, h.files, rfl, rfl, rfl⟩
    · cases Nat.lt_or_eq_of_le hi with
      | inl hlt => exact process_sigcount hlt
      | inr heq => rw [heq, hcount, h.sigcount]
    · cases Nat.lt_or_eq_of_le hi with
      | inl hlt => exact process_signalHandler hlt
      | inr heq => rw [heq, hhandler, h.signalHandler]

/-- Taking the areas away leaves the rest. -/
theorem noAreas_leavesClean : p.noAreas.LeavesClean handler ↔ p.LeavesClean handler :=
  ⟨fun h => ⟨h.sigcount, h.signalHandler, h.files⟩, fun h => ⟨h.sigcount, h.signalHandler, h.files⟩⟩

end

variable {k k' k₀ : Kernel} {t n : Nat}

/-- `kill_zombies` cleans nothing of this. -/
theorem killZombies_leavesClean {handler : Nat} (h : killZombies n k₀ = some ((), k)) (t : Nat) :
    (k.procs t).LeavesClean handler ↔ (k₀.procs t).LeavesClean handler := by
  have hloop : killZombiesLoop n k₀.sched.rqHead k₀ = some ((), k) := h
  cases (killZombiesLoop_some hloop).2.2.2.2 t with
  | inl hsame => rw [hsame.1]
  | inr hreaped =>
      rw [hreaped.1]
      exact noAreas_leavesClean

/-- A new thread is clean exactly when its slot was left clean, and `kill_zombies`
leaves it as it is: in whatever state a kernel is. -/
theorem threadCreate_clean {start filesize : Nat}
    (h : threadCreate start filesize k = some (some t, k')) :
    ((k'.procs t).Clean k.defaultHandler ↔ (k.procs t).LeavesClean k.defaultHandler) ∧
      ∀ n k₀, killZombies n k₀ = some ((), k) →
        ((k'.procs t).Clean k.defaultHandler ↔ (k₀.procs t).LeavesClean k.defaultHandler) := by
  obtain ⟨s, b, a, -, -, -, rfl⟩ := threadCreate_some h
  rw [setProc_procs]
  have hclean : (b.process start filesize k.defaultHandler (k.procs t)).Clean k.defaultHandler ↔
      (k.procs t).LeavesClean k.defaultHandler := NewThread.process_clean
  exact ⟨hclean, fun n k₀ hk => hclean.trans (killZombies_leavesClean hk t)⟩

/-- A kernel on which `thread_create` comes back, whatever its slots hold. -/
theorem smallKernel_creates (f : Nat → Process) : ∃ t k',
    threadCreate 0 0 { smallKernel with procs := f } = some (some t, k') := by
  have hroom : ({ smallKernel with procs := f } : Kernel).alloc.Room (0 + 5) := smallBoot_room.mono (by decide)
  obtain ⟨⟨t, s⟩, hs⟩ : ∃ r, RpiKernel.threadCreate smallKernel.sched = some r := by
    have hsome : (RpiKernel.threadCreate smallKernel.sched).isSome := by decide +kernel
    exact Option.isSome_iff_exists.1 hsome
  have hret : Returns (threadCreate 0 0) { smallKernel with procs := f } 0 _ :=
    threadCreate_returns hroom hs (Nat.zero_le 0x4000)
  obtain ⟨r, k', hc, -, -, hr, -⟩ := hret
  exact ⟨t, k', hr ▸ hc⟩

/-- In slots that were left clean. -/
theorem threadCreate_clean_small : ∃ (k k' : Kernel) (t : Nat),
    threadCreate 0 0 k = some (some t, k') ∧ (k'.procs t).Clean k.defaultHandler := by
  obtain ⟨t, k', h⟩ := smallKernel_creates fun t =>
    { smallKernel.procs t with signalHandler := fun _ => smallKernel.defaultHandler }
  exact ⟨_, k', t, h, (threadCreate_clean h).1.2 ⟨rfl, rfl, fun _ _ => rfl⟩⟩

/-- After booting no slot has a handler for the last signal, and the first thread
gets none. -/
theorem threadCreate_boot_unclean : ∃ (k k' : Kernel) (t : Nat), k.Initial ∧
    threadCreate 0 0 k = some (some t, k') ∧ ¬ (k'.procs t).Clean k.defaultHandler := by
  obtain ⟨t, k', h⟩ := smallKernel_creates smallKernel.procs
  obtain ⟨s, b, a, -, -, -, rfl⟩ := threadCreate_some h
  refine ⟨smallKernel, _, t, smallKernel_initial, h, fun hc => ?_⟩
  rw [setProc_procs] at hc
  have hlast : smallKernel.defaultHandler = 0 := (NewThread.process_clean.1 hc).signalHandler.symm
  exact absurd hlast (by decide)

end Kernel

end RpiKernel
