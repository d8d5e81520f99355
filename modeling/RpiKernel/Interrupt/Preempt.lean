import Mathlib.Data.List.Perm.Subperm
import RpiKernel.Interrupt.IrqTask
import RpiKernel.Sched.Step

/-!
# RpiKernel.Interrupt.Preempt

`irq_router` on several threads.  `curr_task_priority` is one variable, its old
value is kept on the stack of the thread that was interrupted, and the timer
path calls `schedule`.  As long as that does not switch away from a thread with
a task on its stack, `curr_task_priority` is 9999 whenever the running thread
has none (`preemptRun_clean`).
-/

namespace RpiKernel

open Sentinel Runs

/-! ## the model -/

/-- `UART_IRQ_PRIORITY`. -/
def uartIrqPriority : Nat := 1

/-- `TIMER_IRQ_PRIORITY`. -/
def timerIrqPriority : Nat := 0

/-- What interrupts leave on a kernel stack: `irq_router` in the loop of
`irqtask_run_preemptive`, there a task with the priority that is given back,
`irq_router` behind the loop, and after its call of `schedule`. -/
inductive KernelFrame where
  | router (timer : Bool)
  | task (theTask prevTaskPriority : Nat)
  | served (timer : Bool)
  | scheduled
deriving DecidableEq, Repr

def KernelFrame.IsTask : KernelFrame → Prop
  | .task _ _ => True
  | _ => False

instance (f : KernelFrame) : Decidable f.IsTask := by
  cases f <;> unfold KernelFrame.IsTask <;> infer_instance

/-- The tasks, the scheduler and the kernel stack of each thread. -/
structure Preempt where
  irq : IrqTasks
  sched : Sched
  kernelStack : Nat → List KernelFrame

/-- A step of the running thread: an interrupt comes in and is queued; a task
starts or ends; the loop of `irqtask_run_preemptive` is left; `irq_router` goes on
to `schedule`, and returns; or a step of the scheduler outside interrupts. -/
inductive PreemptStep where
  | irqRouter (timer : Bool)
  | startTask
  | finishTask
  | leaveLoop
  | leave (n : Nat)
  | eret
  | call (n : Nat) (a : SchedAct)

/-- `irqtask_run_preemptive` leaves its loop. -/
def IrqTasks.MustWait (s : IrqTasks) : Prop :=
  s.isTaskQueueEmpty ∨ match s.next s.taskHead with
    | none => True
    | some theTask => s.currTaskPriority ≤ s.priority theTask

instance (s : IrqTasks) : Decidable s.MustWait := by
  unfold IrqTasks.MustWait
  cases s.next s.taskHead <;> infer_instance

namespace Preempt

/-- The stack of the running thread. -/
def stack (s : Preempt) : List KernelFrame := s.kernelStack s.sched.currThread

def setStack (s : Preempt) (st : List KernelFrame) : Preempt :=
  { s with kernelStack := Function.update s.kernelStack s.sched.currThread st }

section

variable (kmalloc : Nat → List Nat → Nat)

/-- The interrupt's task is queued; the walk passes every block once at most. -/
def interrupt (timer : Bool) (s : Preempt) : Option Preempt := do
  let priority := if timer then timerIrqPriority else uartIrqPriority
  let irq ← IrqTasks.irqtaskAdd kmalloc s.irq.live.length .done priority s.irq
  return { s.setStack (.router timer :: s.stack) with irq := irq }

/-- The first task starts, on top of `irq_router`. -/
def startTask (s : Preempt) : Option Preempt :=
  if s.irq.MustWait then none
  else do
    let theTask ← s.irq.next s.irq.taskHead
    return { s.setStack (.task theTask s.irq.currTaskPriority :: s.stack) with
      irq := s.irq.takeTask theTask }

/-- `irq_router` behind `irqtask_run_preemptive`: the timer path calls `schedule`. -/
def leave (n : Nat) (timer : Bool) (st : List KernelFrame) (s : Preempt) : Option Preempt :=
  if timer then do
    let sched ← schedule n s.sched
    return { s.setStack (.scheduled :: st) with sched := sched }
  else some (s.setStack st)

/-- A step of the scheduler; `thread_create` makes a new stack for a free slot. -/
def call (n : Nat) (a : SchedAct) (s : Preempt) : Option Preempt := do
  let sched ← schedStep s.sched (n, a)
  return { s with
    sched := sched, kernelStack := fun t => if s.sched.status t = .free then [] else s.kernelStack t }

def step (s : Preempt) : PreemptStep → Option Preempt
  | .irqRouter timer => s.interrupt kmalloc timer
  | .startTask =>
      match s.stack with
      | .router _ :: _ => s.startTask
      | _ => none
  | .finishTask =>
      match s.stack with
      | .task theTask prev :: st => some { s.setStack st with irq := s.irq.finishTask theTask prev }
      | _ => none
  | .leaveLoop =>
      match s.stack with
      | .router timer :: st => if s.irq.MustWait then some (s.setStack (.served timer :: st)) else none
      | _ => none
  | .leave n =>
      match s.stack with
      | .served timer :: st => s.leave n timer st
      | _ => none
  | .eret =>
      match s.stack with
      | .scheduled :: st => some (s.setStack st)
      | _ => none
  | .call n a => if s.stack = [] then s.call n a else none

/-- After `irqtask_init_list`, `init_thread_sched` and `thread_exec`. -/
def Booted (s : Preempt) : Prop :=
  ∃ irq : IrqTasks, irq.Unused ∧ s = ⟨IrqTasks.irqtaskInitList kmalloc irq, schedBoot, fun _ => []⟩

end

/-! ## what is asked of a run -/

/-- No task is on the stack. -/
def NoTask (st : List KernelFrame) : Prop := ∀ f ∈ st, ¬ f.IsTask

instance (st : List KernelFrame) : Decidable (NoTask st) := inferInstanceAs (Decidable (∀ f ∈ st, _))

/-- Without a task on the stack of the running thread `curr_task_priority` is
9999; the interrupt that queues a task then starts to run tasks, and does not
stop before the queue is empty. -/
structure Clean (kmalloc : Nat → List Nat → Nat) (s : Preempt) : Prop where
  priority : NoTask s.stack → s.irq.currTaskPriority = 9999
  runs : NoTask s.stack → ∀ p < 9999, ∀ irq,
    IrqTasks.irqtaskAdd kmalloc s.irq.live.length .done p s.irq = some irq → ¬ irq.MustWait
  drained : NoTask s.stack → s.irq.MustWait → s.irq.isTaskQueueEmpty

/-- `irq_router` does not switch to another thread while a task is on the stack. -/
def StaysOn (s : Preempt) : PreemptStep → Prop
  | .leave n => s.stack.head? = some (.served true) → ¬ NoTask s.stack →
      ∀ sched, schedule n s.sched = some sched → sched.currThread = s.sched.currThread
  | _ => True

/-! ## the invariant -/

/-- The addresses of the tasks on the stack. -/
def tasks (st : List KernelFrame) : List Nat :=
  st.filterMap fun f => match f with
    | .task theTask _ => some theTask
    | _ => none

/-- Each task on the stack gives back the priority below it, and at the bottom
it is 9999. -/
def Restores : List KernelFrame → Nat → Prop
  | [], c => c = 9999
  | .task _ prev :: st, c => c < prev ∧ Restores st prev
  | _ :: st, c => Restores st c

variable {kmalloc : Nat → List Nat → Nat} {s s' : Preempt} {st : List KernelFrame} {f : KernelFrame}
  {c n : Nat} {xs rs : List Nat} {irq : IrqTasks}

theorem Restores.push (h : Restores st c) (hf : ¬ f.IsTask) : Restores (f :: st) c := by
  cases f with
  | task theTask prev => exact absurd trivial hf
  | router timer => exact h
  | served timer => exact h
  | scheduled => exact h

theorem Restores.pop (h : Restores (f :: st) c) (hf : ¬ f.IsTask) : Restores st c := by
  cases f with
  | task theTask prev => exact absurd trivial hf
  | router timer => exact h
  | served timer => exact h
  | scheduled => exact h

theorem tasks_cons (hf : ¬ f.IsTask) : tasks (f :: st) = tasks st := by
  cases f with
  | task theTask prev => exact absurd trivial hf
  | router timer => rfl
  | served timer => rfl
  | scheduled => rfl

theorem noTask_cons : NoTask (f :: st) ↔ ¬ f.IsTask ∧ NoTask st := List.forall_mem_cons

theorem NoTask.tasks (h : NoTask st) : tasks st = [] := by
  induction st with
  | nil => rfl
  | cons f st ih =>
      obtain ⟨hf, hst⟩ := noTask_cons.1 h
      rw [tasks_cons hf, ih hst]

theorem NoTask.restores (h : NoTask st) : Restores st c ↔ c = 9999 := by
  induction st with
  | nil => exact Iff.rfl
  | cons f st ih =>
      obtain ⟨hf, hst⟩ := noTask_cons.1 h
      exact ⟨fun hr => (ih hst).1 (hr.pop hf), fun hc => ((ih hst).2 hc).push hf⟩

theorem Restores.le (h : Restores st c) : c ≤ 9999 := by
  induction st generalizing c with
  | nil => exact Nat.le_of_eq h
  | cons f st ih =>
      cases f with
      | task theTask prev => exact Nat.le_trans (Nat.le_of_lt h.1) (ih h.2)
      | router timer => exact ih h
      | served timer => exact ih h
      | scheduled => exact ih h

/-- A task on the stack runs with a priority below 9999. -/
theorem Restores.lt (h : Restores st c) (ht : ¬ NoTask st) : c < 9999 := by
  induction st with
  | nil => exact absurd (by simp [NoTask]) ht
  | cons f st ih =>
      by_cases hf : f.IsTask
      · cases f with
        | task theTask prev => exact Nat.lt_of_lt_of_le h.1 h.2.le
        | router timer => exact absurd hf id
        | served timer => exact absurd hf id
        | scheduled => exact absurd hf id
      · exact ih (h.pop hf) fun hst => ht (noTask_cons.2 ⟨hf, hst⟩)

/-- The tasks `xs` are queued, those on the stack of the running thread give back
9999, and no other thread has one. -/
structure Inv (s : Preempt) (xs : List Nat) : Prop where
  queued : IrqTasks.Queued s.irq xs (tasks s.stack)
  restores : Restores s.stack s.irq.currTaskPriority
  others : ∀ t ≠ s.sched.currThread, NoTask (s.kernelStack t)

@[simp] theorem stack_setStack : (s.setStack st).stack = st := Function.update_self ..

theorem kernelStack_setStack {t : Nat} (ht : t ≠ s.sched.currThread) :
    (s.setStack st).kernelStack t = s.kernelStack t := Function.update_of_ne ht ..

/-- The running thread goes on with `st`, and with the tasks as `irq` has them. -/
theorem Inv.moves (h : Inv s xs) {ys : List Nat} (hq : IrqTasks.Queued irq ys (tasks st))
    (hr : Restores st irq.currTaskPriority) : Inv { s.setStack st with irq := irq } ys := by
  have hst : ({ s.setStack st with irq := irq } : Preempt).stack = st := by
    show (s.setStack st).stack = st
    exact stack_setStack
  refine ⟨?_, ?_, fun t ht => ?_⟩
  · rw [hst]
    exact hq
  · rw [hst]
    exact hr
  · have hk : (s.setStack st).kernelStack t = s.kernelStack t := kernelStack_setStack ht
    exact hk ▸ h.others t ht

/-! ## the queue -/

/-- The nodes of the queue are blocks of their own. -/
theorem length_lt (h : IrqTasks.Queued irq xs rs) : xs.length < irq.live.length := by
  have hsub := (List.subperm_of_subset h.nodup h.live).length_le
  simp only [List.length_append, List.length_cons] at hsub
  omega

theorem mustWait_nil (h : IrqTasks.Queued irq [] rs) : irq.MustWait := Or.inl (h.between.nil_iff.2 rfl)

theorem mustWait_cons {x : Nat} (h : IrqTasks.Queued irq (x :: xs) rs) :
    irq.MustWait ↔ irq.currTaskPriority ≤ irq.priority x := by
  have hne : ¬ irq.isTaskQueueEmpty := fun hq => List.cons_ne_nil _ _ (h.between.nil_iff.1 hq)
  unfold IrqTasks.MustWait
  rw [h.between.next_head, firstOf_cons]
  exact ⟨fun hm => hm.resolve_left hne, Or.inr⟩

/-- With `curr_task_priority` 9999 every task that is queued is run. -/
theorem not_mustWait (h : IrqTasks.Queued irq xs rs) (hx : xs ≠ []) (hc : irq.currTaskPriority = 9999) :
    ¬ irq.MustWait := by
  cases xs with
  | nil => exact absurd rfl hx
  | cons x xs =>
      have hlt := (h.below x List.mem_cons_self).1
      rw [mustWait_cons h]
      omega

/-- A task is queued. -/
theorem irqtaskAdd_queued {p : Nat} (hk : ∀ n live, kmalloc n live ∉ live)
    (h : IrqTasks.Queued s.irq xs rs) (hp : p < 9999) :
    ∃ irq x, IrqTasks.irqtaskAdd kmalloc s.irq.live.length .done p s.irq = some irq ∧
      IrqTasks.Queued irq (place s.irq.priority p x xs) rs ∧
      irq.currTaskPriority = s.irq.currTaskPriority := by
  obtain ⟨irq, hirq, hadd⟩ := IrqTasks.irqtaskAdd_added (p := p) (f := .done) hk h.between
    (fun a ha => h.live a (List.mem_append_right rs ha)) (length_lt h)
  exact ⟨irq, _, hirq, h.add hadd (hk _ _) hp trivial, hadd.currTaskPriority⟩

theorem Inv.clean (hk : ∀ n live, kmalloc n live ∉ live) (h : Inv s xs) : Clean kmalloc s := by
  have hprio : NoTask s.stack → s.irq.currTaskPriority = 9999 := fun hn => hn.restores.1 h.restores
  refine ⟨hprio, fun hn p hp irq hirq => ?_, fun hn hw => ?_⟩
  · obtain ⟨irq', x, hirq', hq, hc⟩ := irqtaskAdd_queued hk h.queued hp
    obtain rfl := Option.some.inj (hirq.symm.trans hirq')
    have hne : place s.irq.priority p x xs ≠ [] := List.ne_nil_of_mem (mem_place.2 (Or.inl rfl))
    exact not_mustWait hq hne (hc.trans (hprio hn))
  · have hxs : xs = [] := by
      by_contra hne
      exact not_mustWait h.queued hne (hprio hn) hw
    exact h.queued.between.nil_iff.2 hxs

/-! ## what the steps do -/

theorem Inv.interrupt (hk : ∀ n live, kmalloc n live ∉ live) (h : Inv s xs) {timer : Bool}
    (hs : s.interrupt kmalloc timer = some s') : ∃ ys, Inv s' ys := by
  have hp : (if timer then timerIrqPriority else uartIrqPriority) < 9999 := by
    cases timer <;> decide
  obtain ⟨irq, x, hirq, hq, hc⟩ := irqtaskAdd_queued hk h.queued hp
  unfold Preempt.interrupt at hs
  simp only [hirq, Option.bind_eq_bind, Option.bind_some] at hs
  obtain rfl := Option.some.inj hs
  have hr : Restores s.stack irq.currTaskPriority := hc ▸ h.restores
  exact ⟨_, h.moves hq (hr.push (f := .router timer) id)⟩

theorem Inv.startTask (h : Inv s xs) (hs : s.startTask = some s') : ∃ ys, Inv s' ys := by
  unfold Preempt.startTask at hs
  cases xs with
  | nil => simp [mustWait_nil h.queued] at hs
  | cons x xs =>
      by_cases hw : s.irq.MustWait
      · simp [hw] at hs
      · simp only [if_neg hw, h.queued.between.next_head, firstOf_cons, Option.bind_eq_bind,
          Option.bind_some] at hs
        obtain rfl := Option.some.inj hs
        have ht := IrqTasks.takeTask_taken h.queued.between
        have hlt : (s.irq.takeTask x).currTaskPriority < s.irq.currTaskPriority := by
          rw [ht.currTaskPriority]
          exact Nat.lt_of_not_le fun hle => hw ((mustWait_cons h.queued).2 hle)
        exact ⟨xs, h.moves (h.queued.take ht) ⟨hlt, h.restores⟩⟩

/-- A step that leaves the tasks alone. -/
theorem Inv.setStack (h : Inv s xs) (ht : tasks st = tasks s.stack)
    (hr : Restores st s.irq.currTaskPriority) : Inv (s.setStack st) xs :=
  h.moves (ht ▸ h.queued) hr

/-- The scheduler goes on with a thread that has no task on its stack, from one
that has none. -/
theorem Inv.switch (h : Inv s xs) {sched : Sched}
    (hs : sched.currThread = s.sched.currThread ∨ NoTask s.stack) : Inv { s with sched := sched } xs := by
  by_cases hc : sched.currThread = s.sched.currThread
  · have hst : ({ s with sched := sched } : Preempt).stack = s.stack := congrArg s.kernelStack hc
    exact ⟨hst ▸ h.queued, hst ▸ h.restores, fun t ht => h.others t fun he => ht (he.trans hc.symm)⟩
  · have hn : NoTask s.stack := hs.resolve_left hc
    have hn' : NoTask ({ s with sched := sched } : Preempt).stack := h.others _ hc
    have hprio : s.irq.currTaskPriority = 9999 := hn.restores.1 h.restores
    refine ⟨?_, hn'.restores.2 hprio, fun t ht => ?_⟩
    · rw [hn'.tasks, ← hn.tasks]
      exact h.queued
    · by_cases he : t = s.sched.currThread
      · exact he ▸ hn
      · exact h.others t he

/-- `irq_router` behind its loop. -/
theorem Inv.leave (h : Inv s xs) {timer : Bool} (hst : s.stack = .served timer :: st)
    (hgood : StaysOn s (.leave n)) (hs : s.leave n timer st = some s') : Inv s' xs := by
  have hpop : Restores st s.irq.currTaskPriority := (hst ▸ h.restores : Restores _ _).pop id
  have htasks : tasks s.stack = tasks st := hst ▸ tasks_cons id
  unfold Preempt.leave at hs
  cases timer with
  | false =>
      obtain rfl := Option.some.inj hs
      exact h.setStack htasks.symm hpop
  | true =>
      cases hsched : schedule n s.sched with
      | none => simp [hsched] at hs
      | some sched =>
          simp only [hsched, if_true, Option.bind_eq_bind, Option.bind_some] at hs
          obtain rfl := Option.some.inj hs
          have h' : Inv (s.setStack (.scheduled :: st)) xs :=
            h.setStack ((tasks_cons id).trans htasks.symm) (hpop.push id)
          refine h'.switch ?_
          by_cases hn : NoTask s.stack
          · have hn' : NoTask st := (noTask_cons.1 (hst ▸ hn)).2
            rw [stack_setStack]
            exact Or.inr (noTask_cons.2 ⟨id, hn'⟩)
          · exact Or.inl (hgood (by rw [hst]; rfl) hn sched hsched)

/-- A step of the scheduler outside interrupts. -/
theorem Inv.call (h : Inv s xs) {a : SchedAct} (hst : s.stack = []) (hs : s.call n a = some s') :
    Inv s' xs := by
  unfold Preempt.call at hs
  cases hsched : schedStep s.sched (n, a) with
  | none => simp [hsched] at hs
  | some sched =>
      simp only [hsched, Option.bind_eq_bind, Option.bind_some] at hs
      obtain rfl := Option.some.inj hs
      have hempty : NoTask s.stack := by simp [hst, NoTask]
      have hnew : ∀ t, NoTask (if s.sched.status t = .free then [] else s.kernelStack t) := fun t => by
        by_cases hf : s.sched.status t = .free
        · simp [hf, NoTask]
        · by_cases hc : t = s.sched.currThread
          · rw [if_neg hf, hc]
            exact hempty
          · rw [if_neg hf]
            exact h.others t hc
      have hprio : s.irq.currTaskPriority = 9999 := hempty.restores.1 h.restores
      refine ⟨?_, (hnew _).restores.2 hprio, fun t _ => hnew t⟩
      have htasks := (hnew sched.currThread).tasks
      unfold Preempt.stack
      dsimp only
      rw [htasks, ← hempty.tasks]
      exact h.queued

/-- Each step keeps the invariant, unless it leaves a thread with a task. -/
theorem Inv.step (hk : ∀ n live, kmalloc n live ∉ live) (h : Inv s xs) {a : PreemptStep}
    (hgood : StaysOn s a) (hs : step kmalloc s a = some s') : ∃ ys, Inv s' ys := by
  cases a with
  | irqRouter timer => exact h.interrupt hk hs
  | startTask =>
      cases hst : s.stack with
      | nil => simp [Preempt.step, hst] at hs
      | cons f st =>
          cases f <;> simp only [Preempt.step, hst] at hs <;> first | exact h.startTask hs | cases hs
  | finishTask =>
      cases hst : s.stack with
      | nil => simp [Preempt.step, hst] at hs
      | cons f st =>
          cases f with
          | task theTask prev =>
              simp only [Preempt.step, hst] at hs
              obtain rfl := Option.some.inj hs
              have ht : tasks s.stack = theTask :: tasks st := hst ▸ rfl
              have hq : IrqTasks.Queued s.irq xs (theTask :: tasks st) := ht ▸ h.queued
              have hr : Restores (.task theTask prev :: st) s.irq.currTaskPriority := hst ▸ h.restores
              exact ⟨xs, h.moves hq.finish hr.2⟩
          | _ => simp [Preempt.step, hst] at hs
  | leaveLoop =>
      cases hst : s.stack with
      | nil => simp [Preempt.step, hst] at hs
      | cons f st =>
          cases f with
          | router timer =>
              simp only [Preempt.step, hst] at hs
              by_cases hw : s.irq.MustWait
              · rw [if_pos hw] at hs
                obtain rfl := Option.some.inj hs
                have hr : Restores (.router timer :: st) s.irq.currTaskPriority := hst ▸ h.restores
                have ht : tasks (.served timer :: st) = tasks s.stack := hst ▸ rfl
                exact ⟨xs, h.setStack ht hr⟩
              · rw [if_neg hw] at hs
                cases hs
          | _ => simp [Preempt.step, hst] at hs
  | leave n =>
      cases hst : s.stack with
      | nil => simp [Preempt.step, hst] at hs
      | cons f st =>
          cases f with
          | served timer =>
              simp only [Preempt.step, hst] at hs
              exact ⟨xs, h.leave hst hgood hs⟩
          | _ => simp [Preempt.step, hst] at hs
  | eret =>
      cases hst : s.stack with
      | nil => simp [Preempt.step, hst] at hs
      | cons f st =>
          cases f with
          | scheduled =>
              simp only [Preempt.step, hst] at hs
              obtain rfl := Option.some.inj hs
              have hr : Restores (.scheduled :: st) s.irq.currTaskPriority := hst ▸ h.restores
              have ht : tasks st = tasks s.stack := hst ▸ rfl
              exact ⟨xs, h.setStack ht hr⟩
          | _ => simp [Preempt.step, hst] at hs
  | call n a =>
      by_cases hst : s.stack = []
      · simp only [Preempt.step, if_pos hst] at hs
        exact ⟨xs, h.call hst hs⟩
      · simp [Preempt.step, if_neg hst] at hs

theorem Booted.inv (hk : ∀ n live, kmalloc n live ∉ live) (hb : Booted kmalloc s) : Inv s [] := by
  obtain ⟨irq, hirq, rfl⟩ := hb
  obtain ⟨hg, hc⟩ := IrqTasks.irqtaskInitList_good hk hirq
  exact ⟨hg.toQueued, hc, fun t _ => by simp [NoTask]⟩

/-- A switch away from a task hands its priority to a thread that has none. -/
theorem Inv.leaks (h : Inv s xs) (hbad : ¬ StaysOn s (.leave n))
    (hs : Preempt.step kmalloc s (.leave n) = some s') : ¬ Clean kmalloc s' := by
  intro hclean
  refine hbad fun hhead hn sched hsched => by_contra fun hc => ?_
  cases hst : s.stack with
  | nil => simp [hst] at hhead
  | cons f st =>
      obtain rfl : f = .served true := by simpa [hst] using hhead
      simp only [Preempt.step, hst, Preempt.leave, if_true, hsched, Option.bind_eq_bind,
        Option.bind_some] at hs
      obtain rfl := Option.some.inj hs
      have hstack : (s.setStack (.scheduled :: st)).kernelStack sched.currThread =
          s.kernelStack sched.currThread := kernelStack_setStack hc
      have hother : NoTask ((s.setStack (.scheduled :: st)).kernelStack sched.currThread) :=
        hstack ▸ h.others _ hc
      have hprio : s.irq.currTaskPriority = 9999 := hclean.priority hother
      exact absurd hprio (Nat.ne_of_lt (h.restores.lt hn))

/-- **Priorities and switches.**  In every run in which no call of `schedule` from
`irq_router` leaves a thread that has a task on its stack, `curr_task_priority` is
9999 whenever the running thread has none, and its interrupts run what they queue;
and the first switch that does leave such a thread ends that. -/
theorem preemptRun_clean (kmalloc : Nat → List Nat → Nat) (hk : ∀ n live, kmalloc n live ∉ live)
    (s₀ s : Preempt) (hb : Booted kmalloc s₀) (hr : Reach (step kmalloc) StaysOn s₀ s) :
    Clean kmalloc s ∧
      ∀ a s', step kmalloc s a = some s' → (Clean kmalloc s' ↔ StaysOn s a) := by
  obtain ⟨xs, h⟩ : ∃ xs, Inv s xs := by
    refine hr.inv (I := fun s => ∃ xs, Inv s xs) ⟨[], hb.inv hk⟩ ?_
    rintro s a s' ⟨xs, hxs⟩ hgood hs
    exact hxs.step hk hgood hs
  refine ⟨h.clean hk, fun a s' hs => ⟨fun hclean => ?_, fun hgood => ?_⟩⟩
  · by_contra hbad
    cases a with
    | leave n => exact h.leaks hbad hs hclean
    | _ => exact hbad trivial
  · obtain ⟨ys, h'⟩ := h.step hk hgood hs
    exact h'.clean hk

/-- After booting. -/
def booted : Preempt := ⟨IrqTasks.irqtaskInitList IrqTasks.bumpKmalloc IrqTasks.unused, schedBoot, fun _ => []⟩

theorem booted_booted : Booted IrqTasks.bumpKmalloc booted := ⟨IrqTasks.unused, ⟨rfl, rfl⟩, rfl⟩

/-- A timer interrupt while a UART task runs, up to the call of `schedule`. -/
def timerOnUart : List PreemptStep :=
  [.irqRouter false, .startTask, .irqRouter true, .startTask, .finishTask, .leaveLoop]

theorem preemptRun_clean_nested : ∃ s, run (step IrqTasks.bumpKmalloc) booted timerOnUart = some s ∧
    Clean IrqTasks.bumpKmalloc s ∧
      ∀ a s', step IrqTasks.bumpKmalloc s a = some s' → (Clean IrqTasks.bumpKmalloc s' ↔ StaysOn s a) := by
  obtain ⟨s, hs⟩ : ∃ s, run (step IrqTasks.bumpKmalloc) booted timerOnUart = some s :=
    Option.isSome_iff_exists.1 (by decide +kernel)
  have hr : Reach (step IrqTasks.bumpKmalloc) StaysOn booted s := .run .init (by simp [timerOnUart, StaysOn]) hs
  exact ⟨s, hs, preemptRun_clean IrqTasks.bumpKmalloc IrqTasks.bumpKmalloc_fresh booted s booted_booted hr⟩

/-- `schedule` then goes on with the idle thread, whose interrupts have to wait
for the UART task of the other thread. -/
theorem timerOnUart_leaks : ∃ s s', run (step IrqTasks.bumpKmalloc) booted (timerOnUart ++ [.leave 2]) = some s ∧
    s.sched.currThread = 0 ∧ s.stack = [] ∧ s.irq.currTaskPriority = uartIrqPriority ∧
    step IrqTasks.bumpKmalloc s (.irqRouter false) = some s' ∧ s'.irq.MustWait ∧ ¬ s'.irq.isTaskQueueEmpty := by
  have hrun : (((run (step IrqTasks.bumpKmalloc) booted (timerOnUart ++ [.leave 2])).bind fun s =>
      (step IrqTasks.bumpKmalloc s (.irqRouter false)).map fun s' =>
        decide (s.sched.currThread = 0 ∧ s.stack = [] ∧ s.irq.currTaskPriority = uartIrqPriority ∧
          s'.irq.MustWait ∧ ¬ s'.irq.isTaskQueueEmpty)) = some true) := by
    decide +kernel
  obtain ⟨s, hs, hmap⟩ := Option.bind_eq_some_iff.1 hrun
  obtain ⟨s', hs', hall⟩ := Option.map_eq_some_iff.1 hmap
  obtain ⟨hc, hst, hp, hw, he⟩ := of_decide_eq_true hall
  exact ⟨s, s', hs, hc, hst, hp, hs', hw, he⟩

end Preempt

end RpiKernel
