import RpiKernel.Process.Kernel
import RpiKernel.Sched.Step
import RpiKernel.Lib.Runs

/-!
# RpiKernel.Process.Signal

Signals: `check_signal`, `run_signal` and `sigreturn`, between the steps of the
scheduler and the system calls of all threads.

A thread is in user mode, on its way out of the kernel, or in the loop of
`check_signal`; there other threads may run between any two of its steps.  A
handler runs in user mode, while the call of `check_signal` that entered it waits
on the kernel stack for `sigreturn`.

`active`, `delivered` and `resumed` are not in the source: whether a handler that
`run_signal` entered is still running, how many it entered since the thread was
made, and how many times `sigreturn` loaded `signal_saved_context`.
-/

namespace RpiKernel

open Runs

/-! ## state -/

/-- Where a thread is. -/
inductive Control where
  /-- In user mode. -/
  | user
  /-- In front of the call of `check_signal` on the way to user mode. -/
  | leaving
  /-- At the beginning of pass `i` of the loop. -/
  | checking (i : Nat)
  /-- Behind `store_context` in pass `i`. -/
  | stored (i : Nat)
  /-- In front of the section that counts signal `i` down: it waits. -/
  | found (i : Nat)
  /-- Behind that section, in `run_signal`. -/
  | taken (i : Nat)
deriving Repr, DecidableEq

/-- The signal fields of a `thread_t`.  `signalSavedContext` is the pass of the
loop in which it was stored. -/
structure SignalThread where
  control : Control
  signalHandler : Nat → Nat
  sigcount : Nat → Int
  signalIsChecking : Bool
  signalSavedContext : Option Nat
  active : Bool
  delivered : Nat
  resumed : Nat

/-- The scheduler, the signal fields of all threads, and the address of
`signal_default_handler`. -/
structure Signals where
  sched : Sched
  thread : Nat → SignalThread
  defaultHandler : Nat

namespace Signals

/-- The current thread. -/
def curr (s : Signals) : SignalThread := s.thread s.sched.currThread

/-- Changes the signal fields of a thread. -/
def modify (t : Nat) (f : SignalThread → SignalThread) (s : Signals) : Signals :=
  { s with thread := Function.update s.thread t (f (s.thread t)) }

/-- Changes those of the current thread. -/
def modifyCurr (f : SignalThread → SignalThread) (s : Signals) : Signals :=
  s.modify s.sched.currThread f

/-- A step of the scheduler. -/
def onSched (f : Sched → Option Sched) (s : Signals) : Option Signals :=
  (f s.sched).map fun sched => { s with sched := sched }

end Signals

/-! ## check_signal -/

/-- The end of a system call or an interrupt from user mode. -/
def SignalThread.leave (th : SignalThread) : SignalThread := { th with control := .leaving }

/-- The beginning of `check_signal`. -/
def SignalThread.enter (th : SignalThread) : SignalThread :=
  if th.signalIsChecking then { th with control := .user }
  else { th with signalIsChecking := true, control := .checking 0 }

/-- The next step of `check_signal`, with what it calls; `signal_default_handler`
leads to another thread. -/
def checkSignal (n : Nat) (s : Signals) : Option Signals :=
  match s.curr.control with
  | .user => none
  | .leaving => some (s.modifyCurr SignalThread.enter)
  | .checking i =>
      some (s.modifyCurr fun th =>
        if i ≤ signalMax then { th with signalSavedContext := some i, control := .stored i }
        else { th with signalIsChecking := false, control := .user })
  | .stored i =>
      some (s.modifyCurr fun th =>
        { th with control := if th.sigcount i > 0 then .found i else .checking (i + 1) })
  | .found i =>
      some (s.modifyCurr fun th =>
        { th with sigcount := Function.update th.sigcount i (th.sigcount i - 1), control := .taken i })
  -- `run_signal`
  | .taken i =>
      if s.curr.signalHandler i = s.defaultHandler then
        (s.modifyCurr fun th => { th with control := .checking (i + 1) }).onSched
          (signalDefaultHandler n)
      else
        some (s.modifyCurr fun th =>
          { th with control := .user, active := true, delivered := th.delivered + 1 })

/-- `sigreturn`: the thread goes on behind the `store_context` whose context is
loaded.  A context that was never stored is not followed. -/
def sigreturn (s : Signals) : Option Signals :=
  s.curr.signalSavedContext.map fun i => s.modifyCurr fun th =>
    { th with control := .stored i, active := false, resumed := th.resumed + 1 }

/-! ## system calls -/

/-- What `thread_create` does to the signal fields. -/
def createSignals (defaultHandler : Nat) (th : SignalThread) : SignalThread where
  control := .leaving
  signalHandler i := if i < signalMax then defaultHandler else th.signalHandler i
  sigcount i := if i < signalMax then 0 else th.sigcount i
  signalIsChecking := false
  signalSavedContext := th.signalSavedContext
  active := false
  delivered := 0
  resumed := 0

/-- The child of a `fork` leaves the kernel with the handlers of its parent. -/
def childSignals (defaultHandler : Nat) (parent th : SignalThread) : SignalThread :=
  let child := createSignals defaultHandler th
  { child with signalHandler := fun i =>
      if i ≤ signalMax then parent.signalHandler i else child.signalHandler i }

/-- `fork`. -/
def forkSignals (s : Signals) : Option Signals :=
  (threadCreate s.sched).map fun r =>
    { s.modify r.1 (childSignals s.defaultHandler s.curr) with sched := r.2 }

/-- `exec`: the program is replaced, and with it what was left of a handler. -/
def execSignals (s : Signals) : Signals :=
  s.modifyCurr fun th => { th with
    signalHandler := fun i => if i ≤ signalMax then s.defaultHandler else th.signalHandler i
    active := false }

/-- `signal_register`. -/
def registerSignal (signal : Int) (handler : Nat) (s : Signals) : Signals :=
  if signal > signalMax ∨ signal < 0 then s
  else s.modifyCurr fun th =>
    { th with signalHandler := Function.update th.signalHandler signal.toNat handler }

/-- `signal_kill`.  A signal outside of the table is not followed. -/
def killSignal (pid signal : Int) (s : Signals) : Option Signals :=
  if pid > maxThreadCount ∨ pid < 0 ∨ s.sched.status pid.toNat = .free then some s
  else if signal < 0 ∨ signal > signalMax then none
  else
    some (s.modify pid.toNat fun th => { th with
      sigcount := Function.update th.sigcount signal.toNat (th.sigcount signal.toNat + 1) })

/-- A way into the kernel from user mode; `other` is any that does nothing to
signals and threads. -/
inductive UserCall where
  | other
  | exec
  | fork
  | exit
  | kill (pid : Int)
  | signalRegister (signal : Int) (handler : Nat)
  | signalKill (pid signal : Int)
  | fault
  | tick
  | sigreturn
deriving DecidableEq, Repr

/-- What the kernel does on it, up to the call of `check_signal`. -/
def UserCall.handle (n : Nat) (s : Signals) : UserCall → Option Signals
  | other => some s
  | exec => some (execSignals s)
  | fork => forkSignals s
  | exit => s.onSched fun sched => some (RpiKernel.exit sched)
  | kill pid => s.onSched (RpiKernel.kill n pid)
  | signalRegister signal handler => some (registerSignal signal handler s)
  | signalKill pid signal => killSignal pid signal s
  | fault => s.onSched (threadExit n)
  | tick => s.onSched (schedule n)
  | sigreturn => RpiKernel.sigreturn s

/-! ## steps -/

/-- A step of the current thread or of an interrupt. -/
inductive SignalAct where
  /-- A thread leaves user mode. -/
  | call (c : UserCall)
  /-- A thread goes on in `check_signal`. -/
  | check
  /-- A timer interrupt in the kernel. -/
  | preempt
  /-- The loop of the idle thread. -/
  | killZombies
deriving DecidableEq, Repr

/-- The step; loops may make `n` passes. -/
def signalStep (s : Signals) : Nat × SignalAct → Option Signals
  | (n, .call c) =>
      if s.sched.currThread ≠ 0 ∧ s.curr.control = .user then
        c.handle n (s.modifyCurr SignalThread.leave)
      else none
  | (n, .check) => if s.sched.currThread ≠ 0 then checkSignal n s else none
  | (n, .preempt) => if s.curr.control ≠ .user then s.onSched (schedule n) else none
  | (n, .killZombies) =>
      if s.sched.currThread = 0 then s.onSched (RpiKernel.killZombies n) else none

/-- The signal fields before the first thread. -/
def staticSignals : SignalThread where
  control := .leaving
  signalHandler _ := 0
  sigcount _ := 0
  signalIsChecking := false
  signalSavedContext := none
  active := false
  delivered := 0
  resumed := 0

/-- After `thread_exec` the first thread is in user mode. -/
def signalBoot (defaultHandler : Nat) : Signals where
  sched := schedBoot
  thread t :=
    if t = 0 then createSignals defaultHandler staticSignals
    else if t = 1 then { createSignals defaultHandler staticSignals with control := .user }
    else staticSignals
  defaultHandler := defaultHandler

/-! ## the discipline -/

/-- Outside of `check_signal` the flag of a thread tells whether a handler is
active, and contexts were loaded at most once for each handler. -/
def Discipline (s : Signals) : Prop :=
  (∀ t, (s.thread t).control = .user ∨ (s.thread t).control = .leaving →
    ((s.thread t).signalIsChecking = true ↔ (s.thread t).active = true)) ∧
    ∀ t, (s.thread t).resumed ≤ (s.thread t).delivered

/-- `sigreturn` comes from a thread whose flag is set, `exec` from one whose flag
is not. -/
def Disciplined (s : Signals) (a : Nat × SignalAct) : Prop :=
  match a.2 with
  | .call .sigreturn => s.curr.signalIsChecking = true
  | .call .exec => s.curr.signalIsChecking = false
  | _ => True

instance (s : Signals) (a : Nat × SignalAct) : Decidable (Disciplined s a) := by
  unfold Disciplined
  split <;> infer_instance

/-- What is known of a thread in disciplined runs. -/
structure SignalThread.Ok (th : SignalThread) : Prop where
  outside : th.control = .user ∨ th.control = .leaving →
    (th.signalIsChecking = true ↔ th.active = true)
  inside : th.control ≠ .user → th.control ≠ .leaving →
    th.signalIsChecking = true ∧ th.active = false
  once : th.resumed + (if th.active then 1 else 0) = th.delivered

namespace Signals

variable {s s' : Signals} {n t : Nat} {f : SignalThread → SignalThread}

/-- Every thread is as it should be. -/
def Ok (s : Signals) : Prop := ∀ t, (s.thread t).Ok

@[simp] theorem curr_modifyCurr : (s.modifyCurr f).curr = f s.curr := Function.update_self _ _ _

@[simp] theorem sched_modifyCurr : (s.modifyCurr f).sched = s.sched := rfl

theorem Ok.modify (hs : s.Ok) (hf : (s.thread t).Ok → (f (s.thread t)).Ok) : (s.modify t f).Ok := by
  intro u
  by_cases hu : u = t
  · subst hu
    simp only [Signals.modify, Function.update_self]
    exact hf (hs u)
  · simp only [Signals.modify, Function.update_of_ne hu]
    exact hs u

theorem Ok.modifyCurr (hs : s.Ok) (hf : s.curr.Ok → (f s.curr).Ok) : (s.modifyCurr f).Ok :=
  hs.modify hf

theorem Ok.onSched {g : Sched → Option Sched} (hs : s.Ok) (h : s.onSched g = some s') : s'.Ok := by
  obtain ⟨sched, -, rfl⟩ := Option.map_eq_some_iff.1 h
  exact hs

end Signals

/-! ## one step -/

section

variable {s s' : Signals} {n : Nat} {th : SignalThread}

open Signals

/-- A new thread. -/
theorem createSignals_ok (h : Nat) (th : SignalThread) : (createSignals h th).Ok where
  outside _ := by simp [createSignals]
  inside _ hl := absurd rfl hl
  once := rfl

/-- A thread in `check_signal` that stays there. -/
theorem SignalThread.Ok.go (h : th.Ok) (hu : th.control ≠ .user) (hl : th.control ≠ .leaving)
    {th' : SignalThread} (hu' : th'.control ≠ .user) (hl' : th'.control ≠ .leaving)
    (hflag : th'.signalIsChecking = th.signalIsChecking) (hactive : th'.active = th.active)
    (hdelivered : th'.delivered = th.delivered) (hresumed : th'.resumed = th.resumed) : th'.Ok where
  outside ho := by grind
  inside _ _ := by
    rw [hflag, hactive]
    exact h.inside hu hl
  once := by
    rw [hresumed, hactive, hdelivered]
    exact h.once

/-- `check_signal` enters a handler when none is active, and comes back when
none is waiting. -/
theorem Signals.Ok.checkSignal (hs : s.Ok) (h : checkSignal n s = some s') : s'.Ok := by
  unfold RpiKernel.checkSignal at h
  split at h
  next => contradiction
  next hc =>
    obtain rfl := Option.some.inj h
    refine hs.modifyCurr fun ho => ?_
    have hout := ho.outside (.inr hc)
    unfold SignalThread.enter
    split
    next hflag => exact ⟨fun _ => hout, fun hu => absurd rfl hu, ho.once⟩
    next hflag =>
      have hactive : s.curr.active = false := by grind
      exact ⟨fun hcontrol => by simp at hcontrol, fun _ _ => ⟨rfl, hactive⟩, ho.once⟩
  next i hc =>
    obtain rfl := Option.some.inj h
    refine hs.modifyCurr fun ho => ?_
    have hu : s.curr.control ≠ .user := by simp [hc]
    have hl : s.curr.control ≠ .leaving := by simp [hc]
    split
    next => exact ho.go hu hl (by simp) (by simp) rfl rfl rfl rfl
    next =>
      have hactive : s.curr.active = false := (ho.inside hu hl).2
      exact ⟨fun _ => by simp [hactive], fun hu => absurd rfl hu, ho.once⟩
  next i hc =>
    obtain rfl := Option.some.inj h
    refine hs.modifyCurr fun ho => ?_
    have hu : s.curr.control ≠ .user := by simp [hc]
    have hl : s.curr.control ≠ .leaving := by simp [hc]
    exact ho.go hu hl (by dsimp only; split <;> simp) (by dsimp only; split <;> simp) rfl rfl rfl rfl
  next i hc =>
    obtain rfl := Option.some.inj h
    refine hs.modifyCurr fun ho => ?_
    have hu : s.curr.control ≠ .user := by simp [hc]
    have hl : s.curr.control ≠ .leaving := by simp [hc]
    exact ho.go hu hl (by simp) (by simp) rfl rfl rfl rfl
  next i hc =>
    have hu : s.curr.control ≠ .user := by simp [hc]
    have hl : s.curr.control ≠ .leaving := by simp [hc]
    split at h
    next =>
      refine Signals.Ok.onSched (hs.modifyCurr fun ho => ?_) h
      exact ho.go hu hl (by simp) (by simp) rfl rfl rfl rfl
    next =>
      obtain rfl := Option.some.inj h
      refine hs.modifyCurr fun ho => ?_
      obtain ⟨hflag, hactive⟩ := ho.inside hu hl
      have honce := ho.once
      simp only [hactive] at honce
      exact ⟨fun _ => by simp [hflag], fun hu => absurd rfl hu, by simp at honce ⊢; exact honce⟩

/-- A step that changes neither the place of a thread nor what is known of its
handler. -/
theorem SignalThread.Ok.congr (h : th.Ok) {th' : SignalThread} (hc : th'.control = th.control)
    (hflag : th'.signalIsChecking = th.signalIsChecking) (hactive : th'.active = th.active)
    (hdelivered : th'.delivered = th.delivered) (hresumed : th'.resumed = th.resumed) :
    th'.Ok where
  outside := by
    rw [hc, hflag, hactive]
    exact h.outside
  inside := by
    rw [hc, hflag, hactive]
    exact h.inside
  once := by
    rw [hresumed, hactive, hdelivered]
    exact h.once

/-- `sigreturn` with the flag set. -/
theorem Signals.Ok.sigreturn (hs : s.Ok) (hc : s.curr.control = .leaving)
    (hflag : s.curr.signalIsChecking = true) (h : sigreturn s = some s') : s'.Ok := by
  obtain ⟨i, -, rfl⟩ := Option.map_eq_some_iff.1 h
  refine hs.modifyCurr fun ho => ?_
  have hactive := (ho.outside (.inr hc)).1 hflag
  have honce := ho.once
  simp only [hactive] at honce
  exact ⟨fun hcontrol => by simp at hcontrol, fun _ _ => ⟨hflag, rfl⟩, honce⟩

/-- `exec` with the flag not set. -/
theorem Signals.Ok.exec (hs : s.Ok) (hc : s.curr.control = .leaving)
    (hflag : s.curr.signalIsChecking = false) : (execSignals s).Ok := by
  refine hs.modifyCurr fun ho => ?_
  have hactive : s.curr.active = false := by
    have hout := ho.outside (.inr hc)
    grind
  exact ho.congr rfl rfl hactive.symm rfl rfl

/-- `fork` makes a thread without a handler. -/
theorem Signals.Ok.fork (hs : s.Ok) (h : forkSignals s = some s') : s'.Ok := by
  obtain ⟨r, -, rfl⟩ := Option.map_eq_some_iff.1 h
  have hchild : (s.modify r.1 (childSignals s.defaultHandler s.curr)).Ok := hs.modify fun _ =>
    (createSignals_ok s.defaultHandler (s.thread r.1)).congr rfl rfl rfl rfl rfl
  exact hchild

/-- Every call that meets its condition. -/
theorem Signals.Ok.handle (hs : s.Ok) {c : UserCall} (hc : s.curr.control = .leaving)
    (hd : Disciplined s (n, .call c)) (h : c.handle n s = some s') : s'.Ok := by
  cases c with
  | other => exact Option.some.inj h ▸ hs
  | exec => exact Option.some.inj h ▸ hs.exec hc hd
  | fork => exact hs.fork h
  | exit =>
      simp only [UserCall.handle] at h
      exact hs.onSched h
  | kill pid => exact hs.onSched h
  | signalRegister signal handler =>
      obtain rfl := Option.some.inj h
      unfold registerSignal
      split
      next => exact hs
      next => exact hs.modifyCurr fun ho => ho.congr rfl rfl rfl rfl rfl
  | signalKill pid signal =>
      simp only [UserCall.handle, killSignal] at h
      split at h
      next => exact Option.some.inj h ▸ hs
      next =>
        split at h
        next => contradiction
        next =>
          obtain rfl := Option.some.inj h
          exact hs.modify fun ho => ho.congr rfl rfl rfl rfl rfl
  | fault => exact hs.onSched h
  | tick => exact hs.onSched h
  | sigreturn => exact hs.sigreturn hc hd h

/-- Every step that meets its condition. -/
theorem Signals.Ok.step (hs : s.Ok) {a : Nat × SignalAct} (hd : Disciplined s a)
    (h : signalStep s a = some s') : s'.Ok := by
  obtain ⟨n, a⟩ := a
  cases a with
  | call c =>
      simp only [signalStep] at h
      split at h
      next hen =>
        have hleave : (s.modifyCurr SignalThread.leave).Ok := hs.modifyCurr fun ho =>
          ⟨fun _ => ho.outside (.inl hen.2), fun _ hl => absurd rfl hl, ho.once⟩
        have hd' : Disciplined (s.modifyCurr SignalThread.leave) (n, .call c) := by
          cases c <;> first | exact trivial | exact (congrArg _ curr_modifyCurr).trans hd
        exact hleave.handle (by simp [SignalThread.leave]) hd' h
      next => contradiction
  | check =>
      simp only [signalStep] at h
      split at h
      next => exact hs.checkSignal h
      next => contradiction
  | preempt =>
      simp only [signalStep] at h
      split at h
      next => exact hs.onSched h
      next => contradiction
  | killZombies =>
      simp only [signalStep] at h
      split at h
      next => exact hs.onSched h
      next => contradiction

/-- What is known of the threads gives the discipline. -/
theorem Signals.Ok.discipline (hs : s.Ok) : Discipline s :=
  ⟨fun t => (hs t).outside, fun t => by
    have honce := (hs t).once
    omega⟩

/-- Any other step breaks the discipline at once. -/
theorem Signals.Ok.undisciplined (hs : s.Ok) {a : Nat × SignalAct} (hd : ¬ Disciplined s a)
    (h : signalStep s a = some s') : ¬ Discipline s' := by
  obtain ⟨n, a⟩ := a
  have hok : s.curr.Ok := hs _
  match a with
  | .call .sigreturn =>
      simp only [signalStep] at h
      split at h
      next hen =>
        intro hdis
        have hactive : s.curr.active = false := by
          have hout := hok.outside (.inl hen.2)
          simp only [Disciplined] at hd
          grind
        have honce := hok.once
        rw [hactive] at honce
        have hle : s'.curr.resumed ≤ s'.curr.delivered := hdis.2 _
        obtain ⟨i, -, rfl⟩ := Option.map_eq_some_iff.1 h
        simp only [curr_modifyCurr, SignalThread.leave] at hle
        grind
      next => contradiction
  | .call .exec =>
      simp only [signalStep] at h
      split at h
      next hen =>
        intro hdis
        have hflag : s.curr.signalIsChecking = true := by simpa [Disciplined] using hd
        have hiff : s'.curr.control = .user ∨ s'.curr.control = .leaving →
          (s'.curr.signalIsChecking = true ↔ s'.curr.active = true) := hdis.1 _
        obtain rfl := Option.some.inj h
        simp only [execSignals, curr_modifyCurr, SignalThread.leave, hflag] at hiff
        exact absurd ((hiff (.inr trivial)).1 trivial) (by decide)
      next => contradiction
  | .call .other | .call .fork | .call .exit | .call (.kill _) | .call (.signalRegister _ _)
  | .call (.signalKill _ _) | .call .fault | .call .tick | .check | .preempt | .killZombies =>
      exact absurd trivial hd

end

/-! ## runs -/

/-- After booting. -/
theorem signalBoot_ok (h : Nat) : (signalBoot h).Ok := by
  have hstatic : staticSignals.Ok := ⟨fun _ => by simp [staticSignals], fun _ hl => absurd rfl hl, rfl⟩
  intro t
  unfold signalBoot
  dsimp only
  split
  next => exact createSignals_ok h _
  next =>
    split
    next => exact ⟨fun _ => by simp [createSignals], fun hu => absurd rfl hu, rfl⟩
    next => exact hstatic

/-- In every run in which `sigreturn` comes with the flag set and `exec` with the
flag clear, the flag of a thread outside of `check_signal` tells whether a
handler is active, `sigreturn` finds an active handler, and no context is loaded
more often than handlers were entered; and any other step breaks this at once. -/
theorem signalRun_discipline {h : Nat} {s : Signals}
    (hr : Reach signalStep Disciplined (signalBoot h) s) :
    Discipline s ∧
      (∀ n s', signalStep s (n, .call .sigreturn) = some s' →
        (Disciplined s (n, .call .sigreturn) ↔ s.curr.active = true)) ∧
      ∀ a s', signalStep s a = some s' → ¬ Disciplined s a → ¬ Discipline s' := by
  have hs : s.Ok := hr.inv (signalBoot_ok h) fun _ _ _ hs hd hstep => hs.step hd hstep
  refine ⟨hs.discipline, fun n s' hstep => ?_, fun a s' hstep hd => hs.undisciplined hd hstep⟩
  simp only [signalStep] at hstep
  split at hstep
  next hen => exact (hs s.sched.currThread).outside (.inl hen.2)
  next => contradiction

/-! ## runs on their way -/

/-- A system call of the running thread. -/
def called (c : UserCall) : Nat × SignalAct := (10, .call c)

/-- `k` steps of `check_signal`. -/
def checks (k : Nat) : List (Nat × SignalAct) := List.replicate k (10, .check)

/-- All of `check_signal` when no signal waits. -/
def checkAll : List (Nat × SignalAct) := checks (2 * (signalMax + 1) + 2)

/-- A program registers a handler for signal 0 and sends itself the signal, which its
way out of the kernel delivers. -/
def delivery : List (Nat × SignalAct) :=
  called (.signalRegister 0 2) :: checkAll ++ called (.signalKill 1 0) :: checks 5

/-- What is left to do after the handler: `sigreturn`, and the rest of the loop. -/
def handled : List (Nat × SignalAct) := called .sigreturn :: checks (2 * (signalMax + 1))

/-- The signal is delivered, and the handler comes back. -/
theorem signalRun_discipline_handled : ∃ s, run signalStep (signalBoot 1) (delivery ++ handled) = some s ∧
    s.curr.delivered = 1 ∧ s.curr.resumed = 1 ∧ s.curr.control = .user ∧
    Discipline s ∧
      (∀ n s', signalStep s (n, .call .sigreturn) = some s' →
        (Disciplined s (n, .call .sigreturn) ↔ s.curr.active = true)) ∧
      ∀ a s', signalStep s a = some s' → ¬ Disciplined s a → ¬ Discipline s' := by
  have hrun : ((run signalStep (signalBoot 1) (delivery ++ handled)).map fun s =>
      decide (s.curr.delivered = 1 ∧ s.curr.resumed = 1 ∧ s.curr.control = .user)) = some true := by
    decide +kernel
  obtain ⟨s, hs, hdec⟩ := Option.map_eq_some_iff.1 hrun
  obtain ⟨hdelivered, hresumed, hcontrol⟩ := of_decide_eq_true hdec
  have hr : Reach signalStep Disciplined (signalBoot 1) s := .of_always .init (by decide +kernel) hs
  exact ⟨s, hs, hdelivered, hresumed, hcontrol, signalRun_discipline hr⟩

/-- In runs of any calls the flag of a thread in user mode can be set without a
handler (an `exec` in a handler), and a context can be loaded without one (a
`sigreturn` after the first system call). -/
theorem signalRun_undisciplined :
    (∃ s, Reach signalStep (fun _ _ => True) (signalBoot 1) s ∧ s.curr.control = .user ∧
      ¬ (s.curr.signalIsChecking = true ↔ s.curr.active = true)) ∧
    ∃ s, Reach signalStep (fun _ _ => True) (signalBoot 1) s ∧
      s.curr.delivered < s.curr.resumed := by
  constructor
  · have hrun : ((run signalStep (signalBoot 1) (delivery ++ called .exec :: checks 1)).map fun s =>
        decide (s.curr.control = .user ∧ ¬ (s.curr.signalIsChecking = true ↔ s.curr.active = true))) =
        some true := by
      decide +kernel
    obtain ⟨s, hs, hdec⟩ := Option.map_eq_some_iff.1 hrun
    exact ⟨s, .run .init (fun _ _ _ => trivial) hs, of_decide_eq_true hdec⟩
  · have hrun : ((run signalStep (signalBoot 1) (called .other :: checkAll ++ [called .sigreturn])).map
        fun s => decide (s.curr.delivered < s.curr.resumed)) = some true := by
      decide +kernel
    obtain ⟨s, hs, hdec⟩ := Option.map_eq_some_iff.1 hrun
    exact ⟨s, .run .init (fun _ _ _ => trivial) hs, of_decide_eq_true hdec⟩

end RpiKernel
