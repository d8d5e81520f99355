import Mathlib.Algebra.GroupWithZero.Nat
import RpiKernel.Lib.Sentinel

/-!
# RpiKernel.Interrupt.IrqTask

`irqtask_add` and `irqtask_run_preemptive`.  The queue is linked between two
sentinels, in order of priority; `curr_task_priority` is the priority of the
task that runs, 9999 when there is none.  While a task runs interrupts may come
in, queue tasks and run them on top (`irqtasks_complete`).
-/

namespace RpiKernel

open Sentinel

/-! ## the model -/

/-- What interrupts do, one after the other: `irqtask_add` of a task, together
with what interrupts do while it runs, and `irqtask_run_preemptive`. -/
inductive Interrupts where
  | done
  | add (priority : Nat) (during after : Interrupts)
  | run (after : Interrupts)
deriving DecidableEq, Repr

/-- Every task has a priority below `b`. -/
def Interrupts.Below (b : Nat) : Interrupts → Prop
  | .done => True
  | .add priority during after => priority < b ∧ during.Below b ∧ after.Below b
  | .run after => after.Below b

instance (b : Nat) : ∀ i : Interrupts, Decidable (i.Below b)
  | .done => isTrue trivial
  | .add _ during after =>
      have := instDecidableBelow b during
      have := instDecidableBelow b after
      inferInstanceAs (Decidable (_ ∧ _ ∧ _))
  | .run after => instDecidableBelow b after

/-- How much there is to do. -/
def Interrupts.size : Interrupts → Nat
  | .done => 1
  | .add _ during after => during.size + after.size + 2
  | .run after => after.size + 1

/-- How many tasks of priority `p` are added, also while others run. -/
def Interrupts.tasks (p : Nat) : Interrupts → Nat
  | .done => 0
  | .add priority during after => (if priority = p then 1 else 0) + during.tasks p + after.tasks p
  | .run after => after.tasks p

/-- `irqtask_t`.  `number` tells the tasks apart. -/
structure IrqTask where
  priority : Nat
  taskFunction : Interrupts
  next : Option Nat
  prev : Option Nat
  number : Nat

/-- What happened to the tasks. -/
inductive IrqEvent where
  | add (number priority : Nat)
  | start (number priority : Nat)
  | finish (number priority : Nat)
  | enter (currTaskPriority : Nat)
  | leave (currTaskPriority : Nat)
deriving DecidableEq, Repr

/-- The tasks, by address, and the variables of `irqtask.c`; `live` are the
blocks that `kmalloc` has given out, `calls` counts them. -/
structure IrqTasks where
  task : Nat → IrqTask
  taskHead : Nat
  taskTail : Nat
  currTaskPriority : Nat
  live : List Nat
  calls : Nat
  log : List IrqEvent

namespace IrqTasks

/-- The links, seen from the state. -/
def next (s : IrqTasks) (a : Nat) : Option Nat := (s.task a).next

def prev (s : IrqTasks) (a : Nat) : Option Nat := (s.task a).prev

def priority (s : IrqTasks) (a : Nat) : Nat := (s.task a).priority

def number (s : IrqTasks) (a : Nat) : Nat := (s.task a).number

def taskFunction (s : IrqTasks) (a : Nat) : Interrupts := (s.task a).taskFunction

def setTask (s : IrqTasks) (a : Nat) (f : IrqTask → IrqTask) : IrqTasks :=
  { s with task := Function.update s.task a (f (s.task a)) }

def setNext (s : IrqTasks) (a : Nat) (b : Option Nat) : IrqTasks := s.setTask a fun t => { t with next := b }

def setPrev (s : IrqTasks) (a : Nat) (b : Option Nat) : IrqTasks := s.setTask a fun t => { t with prev := b }

def record (s : IrqTasks) (e : IrqEvent) : IrqTasks := { s with log := s.log ++ [e] }

/-- `kfree`. -/
def kfree (s : IrqTasks) (a : Nat) : IrqTasks := { s with live := s.live.filter fun b => b ≠ a }

/-- `is_task_queue_empty`. -/
def isTaskQueueEmpty (s : IrqTasks) : Prop := s.next s.taskHead = some s.taskTail

instance (s : IrqTasks) : Decidable s.isTaskQueueEmpty := inferInstanceAs (Decidable (_ = _))

section

-- the address that the `n`-th call of `kmalloc` returns while `live` is given out
variable (kmalloc : Nat → List Nat → Nat)

/-- A record from `kmalloc`. -/
def newTask (t : IrqTask) (s : IrqTasks) : Nat × IrqTasks :=
  let a := kmalloc s.calls s.live
  (a, { s with task := Function.update s.task a t, live := a :: s.live, calls := s.calls + 1 })

/-- `irqtask_init_list`. -/
def irqtaskInitList (s : IrqTasks) : IrqTasks :=
  let (taskHead, s) := newTask kmalloc ⟨2 ^ 64 - 1, .done, none, none, s.calls⟩ s
  let (taskTail, s) := newTask kmalloc ⟨9999, .done, none, some taskHead, s.calls⟩ s
  { s.setNext taskHead (some taskTail) with taskHead := taskHead, taskTail := taskTail }

/-- `irqtask_add` links the new task in behind `current`. -/
def linkAfter (s : IrqTasks) (current newTask : Nat) : IrqTasks :=
  let next := s.next current
  let s := (s.setNext newTask next).setPrev newTask (some current)
  let s := s.setNext current (some newTask)
  match next with
  | none => s
  | some next => s.setPrev next (some newTask)

/-- `irqtask_add`; the walk looks at no more than `n` tasks. -/
def irqtaskAdd (n : Nat) (taskFunction : Interrupts) (priority : Nat) (s : IrqTasks) : Option IrqTasks := do
  let number := s.calls
  let (newTask, s) := newTask kmalloc ⟨priority, taskFunction, none, none, number⟩ s
  let current ← seek s.next
    (fun next => next ≠ s.taskTail ∧ priority < s.priority next ∨ next = s.taskTail) n s.taskHead
  return (s.linkAfter current newTask).record (.add number priority)

/-- `irqtask_run_preemptive` takes the first task off the queue. -/
def unlinkFirst (s : IrqTasks) (theTask : Nat) : IrqTasks :=
  let next := s.next theTask
  let s := s.setNext s.taskHead next
  match next with
  | none => s
  | some next => s.setPrev next (some s.taskHead)

/-- What it does when a task starts. -/
def takeTask (s : IrqTasks) (theTask : Nat) : IrqTasks :=
  let s := s.unlinkFirst theTask
  { s.record (.start (s.number theTask) (s.priority theTask)) with currTaskPriority := s.priority theTask }

/-- What it does when the task is finished. -/
def finishTask (s : IrqTasks) (theTask prevTaskPriority : Nat) : IrqTasks :=
  { s.kfree theTask with currTaskPriority := prevTaskPriority }

/-- The loop of `irqtask_run_preemptive`, at most `n` passes; `exec` is what
happens while a task runs. -/
def runLoop (exec : Interrupts → IrqTasks → Option IrqTasks) : Nat → IrqTasks → Option IrqTasks
  | 0, _ => none
  | n + 1, s =>
      if s.isTaskQueueEmpty then some s
      else do
        let theTask ← s.next s.taskHead
        if s.currTaskPriority ≤ s.priority theTask then return s
        let s' ← exec (s.taskFunction theTask) (s.takeTask theTask)
        let s' := s'.record (.finish (s.number theTask) (s.priority theTask))
        runLoop exec n (s'.finishTask theTask s.currTaskPriority)

/-- `irqtask_run_preemptive`. -/
def irqtaskRunPreemptive (exec : Interrupts → IrqTasks → Option IrqTasks) (n : Nat) (s : IrqTasks) :
    Option IrqTasks := do
  let s ← runLoop exec n (s.record (.enter s.currTaskPriority))
  return s.record (.leave s.currTaskPriority)

/-- Interrupts come in; `n` bounds how deep they are nested and every loop. -/
def interrupts : Nat → Interrupts → IrqTasks → Option IrqTasks
  | 0, _, _ => none
  | _ + 1, .done, s => some s
  | n + 1, .add priority during after, s => do
      interrupts n after (← irqtaskAdd kmalloc n during priority s)
  | n + 1, .run after, s => do
      interrupts n after (← irqtaskRunPreemptive (interrupts n) n s)

end

/-! ## what is asked of a run -/

/-- The tasks of priority `p` that were added. -/
def adds (p : Nat) (log : List IrqEvent) : List Nat :=
  log.filterMap fun e => match e with
    | .add number q => if q = p then some number else none
    | _ => none

/-- The tasks of priority `p` that were started. -/
def starts (p : Nat) (log : List IrqEvent) : List Nat :=
  log.filterMap fun e => match e with
    | .start number q => if q = p then some number else none
    | _ => none

/-- What stands on the stack: a task, or `irqtask_run_preemptive`. -/
inductive Frame where
  | task (number priority : Nat)
  | activation (currTaskPriority : Nat)
deriving DecidableEq, Repr

/-- A task of priority `p` may start on top. -/
def Frame.Below (p : Nat) : Frame → Prop
  | .task _ q => p < q
  | .activation _ => True

instance (p : Nat) (f : Frame) : Decidable (f.Below p) := by
  cases f <;> unfold Frame.Below <;> infer_instance

/-- The stack after an event.  A task starts on top of less urgent ones only;
what was entered last is finished or left first, and `curr_task_priority` is
what it was. -/
def event : List Frame → IrqEvent → Option (List Frame)
  | st, .add _ _ => some st
  | st, .enter cur => some (.activation cur :: st)
  | st, .start i p => if ∀ f ∈ st, f.Below p then some (.task i p :: st) else none
  | .task i p :: st, .finish j q => if i = j ∧ p = q then some st else none
  | .activation cur :: st, .leave cur' => if cur = cur' then some st else none
  | _, _ => none

/-- The stack after all events, if each of them was in order. -/
def stack (log : List IrqEvent) : Option (List Frame) := log.foldlM event []

/-! ## the links -/

variable {s s' : IrqTasks} {a b x n p : Nat} {xs rs : List Nat} {st : List Frame}
  {kmalloc : Nat → List Nat → Nat}

@[simp] theorem setNext_next (b : Option Nat) : (s.setNext a b).next = Function.update s.next a b := by
  funext c
  by_cases hc : c = a <;> simp [next, setNext, setTask, hc]

@[simp] theorem setNext_prev (b : Option Nat) : (s.setNext a b).prev = s.prev := by
  funext c
  by_cases hc : c = a <;> simp [prev, setNext, setTask, hc]

@[simp] theorem setPrev_next (b : Option Nat) : (s.setPrev a b).next = s.next := by
  funext c
  by_cases hc : c = a <;> simp [next, setPrev, setTask, hc]

@[simp] theorem setPrev_prev (b : Option Nat) : (s.setPrev a b).prev = Function.update s.prev a b := by
  funext c
  by_cases hc : c = a <;> simp [prev, setPrev, setTask, hc]

/-- Everything but the links is the same. -/
structure Relinked (s s' : IrqTasks) : Prop where
  priority : s'.priority = s.priority
  number : s'.number = s.number
  taskFunction : s'.taskFunction = s.taskFunction
  taskHead : s'.taskHead = s.taskHead
  taskTail : s'.taskTail = s.taskTail
  currTaskPriority : s'.currTaskPriority = s.currTaskPriority
  live : s'.live = s.live
  calls : s'.calls = s.calls
  log : s'.log = s.log

theorem Relinked.trans {s'' : IrqTasks} (h : Relinked s s') (h' : Relinked s' s'') : Relinked s s'' :=
  ⟨h'.priority.trans h.priority, h'.number.trans h.number, h'.taskFunction.trans h.taskFunction,
    h'.taskHead.trans h.taskHead, h'.taskTail.trans h.taskTail,
    h'.currTaskPriority.trans h.currTaskPriority, h'.live.trans h.live, h'.calls.trans h.calls,
    h'.log.trans h.log⟩

theorem relinked_setTask {f : IrqTask → IrqTask} (hp : ∀ t, (f t).priority = t.priority)
    (hn : ∀ t, (f t).number = t.number) (hf : ∀ t, (f t).taskFunction = t.taskFunction) :
    Relinked s (s.setTask a f) := by
  constructor
  case priority =>
    funext c
    by_cases hc : c = a <;> simp [priority, setTask, hp, hc]
  case number =>
    funext c
    by_cases hc : c = a <;> simp [number, setTask, hn, hc]
  case taskFunction =>
    funext c
    by_cases hc : c = a <;> simp [taskFunction, setTask, hf, hc]
  all_goals rfl

theorem relinked_setNext (s : IrqTasks) (a : Nat) (b : Option Nat) : Relinked s (s.setNext a b) :=
  relinked_setTask (fun _ => rfl) (fun _ => rfl) fun _ => rfl

theorem relinked_setPrev (s : IrqTasks) (a : Nat) (b : Option Nat) : Relinked s (s.setPrev a b) :=
  relinked_setTask (fun _ => rfl) (fun _ => rfl) fun _ => rfl

/-! ## the log -/

theorem adds_append (p : Nat) (l l' : List IrqEvent) : adds p (l ++ l') = adds p l ++ adds p l' :=
  List.filterMap_append

theorem starts_append (p : Nat) (l l' : List IrqEvent) : starts p (l ++ l') = starts p l ++ starts p l' :=
  List.filterMap_append

theorem stack_record {e : IrqEvent} {log : List IrqEvent} (h : stack log = some st) :
    stack (log ++ [e]) = event st e := by
  unfold stack at h ⊢
  rw [List.foldlM_append, h]
  cases he : event st e <;> simp [he]

/-! ## the invariant -/

/-- The tasks `xs` are queued and the tasks `rs` run. -/
structure Queued (s : IrqTasks) (xs rs : List Nat) : Prop where
  between : Between s.next s.prev s.taskHead s.taskTail xs
  live : ∀ a ∈ rs ++ s.taskHead :: (xs ++ [s.taskTail]), a ∈ s.live
  nodup : (rs ++ s.taskHead :: (xs ++ [s.taskTail])).Nodup
  ordered : Ordered s.priority xs
  below : ∀ a ∈ xs, s.priority a < 9999 ∧ (s.taskFunction a).Below 9999

/-- The stack is `st`, and every task that was added is queued or was started. -/
structure Good (s : IrqTasks) (xs rs : List Nat) (st : List Frame) : Prop extends Queued s xs rs where
  stack : stack s.log = some st
  top : ∀ i p, Frame.task i p ∈ st → s.currTaskPriority ≤ p
  pending : ∀ p, adds p s.log = starts p s.log ++ (xs.filter fun a => s.priority a = p).map s.number
  numbered : ∀ p, ∀ i ∈ adds p s.log, i < s.calls
  distinct : ∀ p, (adds p s.log).Nodup

/-- What is left to do for the tasks in the queue. -/
def work (s : IrqTasks) (xs : List Nat) : Nat := (xs.map fun a => (s.taskFunction a).size + 1).sum

/-- How many tasks of priority `p` are added so far, and will be by the tasks in the queue. -/
def tasks (p : Nat) (s : IrqTasks) (xs : List Nat) : Nat :=
  (adds p s.log).length + (xs.map fun a => (s.taskFunction a).tasks p).sum

theorem length_le_work : xs.length ≤ s.work xs := by
  unfold work
  induction xs with
  | nil => simp
  | cons a xs ih =>
      simp only [List.length_cons, List.map_cons, List.sum_cons]
      omega

/-! ## adding -/

/-- A fresh record at `x`; nothing else is new. -/
structure Fresh (x i p : Nat) (f : Interrupts) (s s' : IrqTasks) : Prop where
  next : s'.next = Function.update s.next x none
  prev : s'.prev = Function.update s.prev x none
  priority : s'.priority = Function.update s.priority x p
  number : s'.number = Function.update s.number x i
  taskFunction : s'.taskFunction = Function.update s.taskFunction x f
  taskHead : s'.taskHead = s.taskHead
  taskTail : s'.taskTail = s.taskTail
  currTaskPriority : s'.currTaskPriority = s.currTaskPriority
  live : s'.live = x :: s.live
  calls : s'.calls = s.calls + 1
  log : s'.log = s.log

theorem newTask_fresh (kmalloc : Nat → List Nat → Nat) (s : IrqTasks) (i p : Nat) (f : Interrupts) :
    Fresh (kmalloc s.calls s.live) i p f s (newTask kmalloc ⟨p, f, none, none, i⟩ s).2 := by
  constructor
  case next =>
    funext c
    by_cases hc : c = kmalloc s.calls s.live <;> simp [IrqTasks.next, newTask, hc]
  case prev =>
    funext c
    by_cases hc : c = kmalloc s.calls s.live <;> simp [IrqTasks.prev, newTask, hc]
  case priority =>
    funext c
    by_cases hc : c = kmalloc s.calls s.live <;> simp [IrqTasks.priority, newTask, hc]
  case number =>
    funext c
    by_cases hc : c = kmalloc s.calls s.live <;> simp [IrqTasks.number, newTask, hc]
  case taskFunction =>
    funext c
    by_cases hc : c = kmalloc s.calls s.live <;> simp [IrqTasks.taskFunction, newTask, hc]
  all_goals rfl

theorem linkAfter_relinked : Relinked s (s.linkAfter a x) := by
  have h := ((relinked_setNext s x (s.next a)).trans (relinked_setPrev _ x (some a))).trans
    (relinked_setNext _ a (some x))
  unfold linkAfter
  dsimp only
  cases hb : s.next a with
  | none => rwa [hb] at h
  | some b =>
      rw [hb] at h
      exact h.trans (relinked_setPrev _ b (some x))

theorem linkAfter_next :
    (s.linkAfter a x).next = Function.update (Function.update s.next x (s.next a)) a (some x) := by
  unfold linkAfter
  dsimp only
  cases hb : s.next a <;> simp

theorem linkAfter_prev (hb : s.next a = some b) :
    (s.linkAfter a x).prev = Function.update (Function.update s.prev x (some a)) b (some x) := by
  unfold linkAfter
  simp [hb]

/-- `irqtask_add` links the new task in behind the tasks of its priority, and
changes nothing else. -/
structure Added (x i p : Nat) (f : Interrupts) (xs : List Nat) (s s' : IrqTasks) : Prop where
  between : Between s'.next s'.prev s.taskHead s.taskTail (place s.priority p x xs)
  priority : s'.priority = Function.update s.priority x p
  number : s'.number = Function.update s.number x i
  taskFunction : s'.taskFunction = Function.update s.taskFunction x f
  taskHead : s'.taskHead = s.taskHead
  taskTail : s'.taskTail = s.taskTail
  currTaskPriority : s'.currTaskPriority = s.currTaskPriority
  live : s'.live = x :: s.live
  calls : s'.calls = s.calls + 1
  log : s'.log = s.log ++ [.add i p]

/-- Where the walk of `irqtask_add` stops. -/
theorem Fresh.seek {i : Nat} {f : Interrupts} (h : Fresh x i p f s s')
    (hb : Between s.next s.prev s.taskHead s.taskTail xs)
    (hx : x ∉ s.taskHead :: (xs ++ [s.taskTail])) (hn : xs.length < n) :
    seek s'.next (fun next => next ≠ s'.taskTail ∧ p < s'.priority next ∨ next = s'.taskTail) n
      s'.taskHead = some (lastOf s.taskHead (xs.takeWhile fun y => s.priority y ≤ p)) := by
  have hxs : ∀ y ∈ s.taskHead :: xs, y ≠ x := fun y hy he => hx (he ▸ by grind)
  have hb' : Between s'.next s.prev s.taskHead s.taskTail ([] ++ xs) := by
    refine hb.congr (fun y hy => ?_) fun _ _ => rfl
    rw [h.next, Function.update_of_ne (hxs y hy)]
  have hseek := hb'.seek (fun next => next ≠ s'.taskTail ∧ p < s'.priority next ∨ next = s'.taskTail)
    (Or.inr h.taskTail.symm) hn
  rw [lastOf_nil, List.nil_append] at hseek
  rw [h.taskHead, hseek]
  congr 2
  refine takeWhile_congr fun y hy => ?_
  have hyt : y ≠ s'.taskTail := fun he => hb.notMem_tail (h.taskTail ▸ he ▸ hy)
  rw [h.priority, Function.update_of_ne (hxs y (List.mem_cons_of_mem _ hy))]
  simp [hyt]

theorem Fresh.between {i : Nat} {f : Interrupts} {ys zs : List Nat} (h : Fresh x i p f s s')
    (hb : Between s.next s.prev s.taskHead s.taskTail (ys ++ zs))
    (hx : x ∉ s.taskHead :: (ys ++ zs ++ [s.taskTail])) :
    Between (s'.linkAfter (lastOf s.taskHead ys) x).next (s'.linkAfter (lastOf s.taskHead ys) x).prev
      s.taskHead s.taskTail (ys ++ x :: zs) := by
  have hlast : lastOf s.taskHead ys ≠ x := fun he => hx (by grind [lastOf_mem])
  have hnext : s'.next (lastOf s.taskHead ys) = some (firstOf zs s.taskTail) := by
    rw [h.next, Function.update_of_ne hlast, hb.next_last]
  rw [linkAfter_next, linkAfter_prev hnext, hnext, h.next, h.prev, Function.update_idem,
    Function.update_idem]
  exact hb.link hx

theorem Fresh.added {i : Nat} {f : Interrupts} (h : Fresh x i p f s s')
    (hb : Between s.next s.prev s.taskHead s.taskTail xs)
    (hx : x ∉ s.taskHead :: (xs ++ [s.taskTail])) :
    Added x i p f xs s ((s'.linkAfter (lastOf s.taskHead (xs.takeWhile fun y => s.priority y ≤ p)) x).record
      (.add i p)) := by
  have hparts : (xs.takeWhile fun y => s.priority y ≤ p) ++ (xs.dropWhile fun y => s.priority y ≤ p) = xs :=
    List.takeWhile_append_dropWhile
  have hrel : Relinked s' (s'.linkAfter (lastOf s.taskHead (xs.takeWhile fun y => s.priority y ≤ p)) x) :=
    linkAfter_relinked
  refine ⟨h.between ?_ ?_, hrel.priority.trans h.priority, hrel.number.trans h.number,
    hrel.taskFunction.trans h.taskFunction, hrel.taskHead.trans h.taskHead,
    hrel.taskTail.trans h.taskTail, hrel.currTaskPriority.trans h.currTaskPriority,
    hrel.live.trans h.live, hrel.calls.trans h.calls, congrArg (· ++ _) (hrel.log.trans h.log)⟩
  · rwa [hparts]
  · rwa [hparts]

theorem irqtaskAdd_added {f : Interrupts} (hk : ∀ n live, kmalloc n live ∉ live)
    (hb : Between s.next s.prev s.taskHead s.taskTail xs)
    (hl : ∀ a ∈ s.taskHead :: (xs ++ [s.taskTail]), a ∈ s.live) (hn : xs.length < n) :
    ∃ s', irqtaskAdd kmalloc n f p s = some s' ∧ Added (kmalloc s.calls s.live) s.calls p f xs s s' := by
  have hx : kmalloc s.calls s.live ∉ s.taskHead :: (xs ++ [s.taskTail]) :=
    fun hm => hk s.calls s.live (hl _ hm)
  have hfresh := newTask_fresh kmalloc s s.calls p f
  have hseek := hfresh.seek hb hx hn
  refine ⟨_, by unfold irqtaskAdd; dsimp only; rw [hseek]; rfl, ?_⟩
  have hfst : (newTask kmalloc ⟨p, f, none, none, s.calls⟩ s).1 = kmalloc s.calls s.live := rfl
  rw [hfst]
  generalize kmalloc s.calls s.live = x at hx hfresh
  generalize (newTask kmalloc ⟨p, f, none, none, s.calls⟩ s).2 = s₁ at hfresh
  exact hfresh.added hb hx

/-- Where the nodes of the queue are. -/
theorem Queued.notMem (h : Queued s xs rs) (hx : x ∉ s.live) : x ∉ s.taskHead :: (xs ++ [s.taskTail]) :=
  fun hm => hx (h.live x (List.mem_append_right rs hm))

/-- The other tasks keep what they have. -/
theorem Queued.same {α : Type} {g g' : Nat → α} {v : α} (h : Queued s xs rs) (hx : x ∉ s.live)
    (hg : g' = Function.update g x v) : ∀ y ∈ xs, g' y = g y := by
  intro y hy
  have hne : y ≠ x := fun he => h.notMem hx (he ▸ by simp [hy])
  rw [hg, Function.update_of_ne hne]

theorem Added.place {i : Nat} {f : Interrupts} (h : Queued s xs rs) (ha : Added x i p f xs s s')
    (hx : x ∉ s.live) : place s'.priority (s'.priority x) x xs = place s.priority p x xs := by
  rw [ha.priority, Function.update_self, ← ha.priority]
  exact place_congr (h.same hx ha.priority)

theorem Queued.add {i : Nat} {f : Interrupts} (h : Queued s xs rs) (ha : Added x i p f xs s s')
    (hx : x ∉ s.live) (hp : p < 9999) (hf : f.Below 9999) :
    Queued s' (Sentinel.place s.priority p x xs) rs := by
  have hperm : (rs ++ s.taskHead :: (Sentinel.place s.priority p x xs ++ [s.taskTail])).Perm
      (x :: (rs ++ s.taskHead :: (xs ++ [s.taskTail]))) := by
    refine .trans ?_ List.perm_middle
    exact (((place_perm.append_right [s.taskTail]).cons s.taskHead).trans (.swap x s.taskHead _)).append_left rs
  constructor
  case between =>
    rw [ha.taskHead, ha.taskTail]
    exact ha.between
  case live =>
    rw [ha.taskHead, ha.taskTail, ha.live]
    intro a hm
    cases List.mem_cons.1 (hperm.mem_iff.1 hm) with
    | inl he => exact he ▸ List.mem_cons_self
    | inr hm => exact List.mem_cons_of_mem x (h.live a hm)
  case nodup =>
    rw [ha.taskHead, ha.taskTail, hperm.nodup_iff]
    exact List.nodup_cons.2 ⟨fun hm => hx (h.live x hm), h.nodup⟩
  case ordered => exact ha.place h hx ▸ (h.ordered.congr (h.same hx ha.priority)).place
  case below =>
    intro a hm
    cases mem_place.1 hm with
    | inl he =>
        rw [he, ha.priority, ha.taskFunction, Function.update_self, Function.update_self]
        exact ⟨hp, hf⟩
    | inr hm =>
        rw [h.same hx ha.priority a hm, h.same hx ha.taskFunction a hm]
        exact h.below a hm

/-- The new task has a number of its own. -/
theorem Added.adds {f : Interrupts} (ha : Added x s.calls p f xs s s') (q : Nat) :
    IrqTasks.adds q s'.log = IrqTasks.adds q s.log ++ if p = q then [s.calls] else [] := by
  rw [ha.log, adds_append]
  by_cases hq : p = q
  · simp [IrqTasks.adds, hq]
  · simp [IrqTasks.adds, hq]

theorem Good.add {f : Interrupts} (h : Good s xs rs st) (ha : Added x s.calls p f xs s s')
    (hx : x ∉ s.live) (hp : p < 9999) (hf : f.Below 9999) :
    Good s' (Sentinel.place s.priority p x xs) rs st ∧
      s'.work (Sentinel.place s.priority p x xs) = s.work xs + f.size + 1 ∧
      ∀ q, tasks q s' (Sentinel.place s.priority p x xs) =
        tasks q s xs + (if p = q then 1 else 0) + f.tasks q := by
  have hprio := h.same hx ha.priority
  have hpx : s'.priority x = p := by rw [ha.priority, Function.update_self]
  have hfx : s'.taskFunction x = f := by rw [ha.taskFunction, Function.update_self]
  have hix : s'.number x = s.calls := by rw [ha.number, Function.update_self]
  refine ⟨⟨h.toQueued.add ha hx hp hf, ?_, ?_, fun q => ?_, fun q i hi => ?_, fun q => ?_⟩, ?_, fun q => ?_⟩
  · rw [ha.log, stack_record h.stack]
    rfl
  · rw [ha.currTaskPriority]
    exact h.top
  · have hfilter : xs.filter (fun a => s'.priority a = q) = xs.filter fun a => s.priority a = q :=
      List.filter_congr fun a hm => by rw [hprio a hm]
    have hmap : (xs.filter fun a => s.priority a = q).map s'.number =
        (xs.filter fun a => s.priority a = q).map s.number :=
      List.map_congr_left fun a hm => h.same hx ha.number a (List.mem_of_mem_filter hm)
    have hplaced := (h.ordered.congr hprio).filter_place (x := x) (p := q)
    rw [ha.place h.toQueued hx] at hplaced
    rw [ha.log, adds_append, starts_append, hplaced, List.map_append, hfilter, hmap, h.pending q]
    by_cases hq : p = q
    · simp [IrqTasks.adds, starts, hpx, hix, hq]
    · simp [IrqTasks.adds, starts, hpx, hq]
  · rw [ha.adds] at hi
    rw [ha.calls]
    cases List.mem_append.1 hi with
    | inl hi => exact Nat.lt_succ_of_lt (h.numbered q i hi)
    | inr hi =>
        split at hi
        · rw [List.mem_singleton.1 hi]
          exact Nat.lt_succ_self _
        · cases hi
  · rw [ha.adds]
    split
    · refine List.nodup_append.2 ⟨h.distinct q, List.pairwise_singleton _ _, fun i hi j hj => ?_⟩
      rw [List.mem_singleton.1 hj]
      exact Nat.ne_of_lt (h.numbered q i hi)
    · rw [List.append_nil]
      exact h.distinct q
  · have hcongr : (xs.map fun a => (s'.taskFunction a).size + 1) = xs.map fun a => (s.taskFunction a).size + 1 :=
      List.map_congr_left fun a hm => by rw [h.same hx ha.taskFunction a hm]
    unfold work
    rw [(place_perm.map _).sum_nat, List.map_cons, List.sum_cons, hfx, hcongr]
    omega
  · have hcongr : (xs.map fun a => (s'.taskFunction a).tasks q) = xs.map fun a => (s.taskFunction a).tasks q :=
      List.map_congr_left fun a hm => by rw [h.same hx ha.taskFunction a hm]
    unfold tasks
    rw [(place_perm.map _).sum_nat, List.map_cons, List.sum_cons, hfx, hcongr, ha.adds, List.length_append]
    split <;> simp only [List.length_singleton, List.length_nil] <;> omega

/-! ## running -/

/-- The first task is taken off the queue. -/
structure Taken (x : Nat) (xs : List Nat) (s s' : IrqTasks) : Prop where
  between : Between s'.next s'.prev s.taskHead s.taskTail xs
  priority : s'.priority = s.priority
  number : s'.number = s.number
  taskFunction : s'.taskFunction = s.taskFunction
  taskHead : s'.taskHead = s.taskHead
  taskTail : s'.taskTail = s.taskTail
  currTaskPriority : s'.currTaskPriority = s.priority x
  live : s'.live = s.live
  calls : s'.calls = s.calls
  log : s'.log = s.log ++ [.start (s.number x) (s.priority x)]

theorem unlinkFirst_relinked : Relinked s (s.unlinkFirst x) := by
  have h := relinked_setNext s s.taskHead (s.next x)
  unfold unlinkFirst
  dsimp only
  cases hb : s.next x with
  | none => rwa [hb] at h
  | some b =>
      rw [hb] at h
      exact h.trans (relinked_setPrev _ b _)

theorem unlinkFirst_next : (s.unlinkFirst x).next = Function.update s.next s.taskHead (s.next x) := by
  unfold unlinkFirst
  dsimp only
  cases hb : s.next x <;> simp

theorem unlinkFirst_prev (hb : s.next x = some b) :
    (s.unlinkFirst x).prev = Function.update s.prev b (some s.taskHead) := by
  unfold unlinkFirst
  simp only [hb, setPrev_prev, setNext_prev]
  rfl

theorem takeTask_taken (hb : Between s.next s.prev s.taskHead s.taskTail (x :: xs)) :
    Taken x xs s (s.takeTask x) := by
  have hb' : Between s.next s.prev s.taskHead s.taskTail ([] ++ x :: xs) := hb
  have hnext : s.next x = some (firstOf xs s.taskTail) := hb'.around.2
  have hrel : Relinked s (s.unlinkFirst x) := unlinkFirst_relinked
  refine ⟨?_, hrel.priority, hrel.number, hrel.taskFunction, hrel.taskHead, hrel.taskTail,
    congrFun hrel.priority x, hrel.live, hrel.calls, ?_⟩
  case refine_2 =>
    show (s.unlinkFirst x).log ++ _ = _
    rw [hrel.log, hrel.number, hrel.priority]
  show Between (s.unlinkFirst x).next (s.unlinkFirst x).prev _ _ ([] ++ xs)
  rw [unlinkFirst_next, unlinkFirst_prev hnext, hnext]
  exact hb'.cut

theorem Queued.take (h : Queued s (x :: xs) rs) (ht : Taken x xs s s') : Queued s' xs (x :: rs) := by
  have hperm : (x :: rs ++ s.taskHead :: (xs ++ [s.taskTail])).Perm
      (rs ++ s.taskHead :: (x :: xs ++ [s.taskTail])) := by
    refine List.Perm.trans ?_ ((List.Perm.swap x s.taskHead (xs ++ [s.taskTail])).symm.append_left rs)
    exact List.perm_middle.symm
  constructor
  case between =>
    rw [ht.taskHead, ht.taskTail]
    exact ht.between
  case live =>
    rw [ht.taskHead, ht.taskTail, ht.live]
    exact fun a hm => h.live a (hperm.mem_iff.1 hm)
  case nodup =>
    rw [ht.taskHead, ht.taskTail, hperm.nodup_iff]
    exact h.nodup
  case ordered =>
    rw [ht.priority]
    exact (List.pairwise_cons.1 h.ordered).2
  case below =>
    rw [ht.priority, ht.taskFunction]
    exact fun a ha => h.below a (List.mem_cons_of_mem x ha)

/-- A start adds nothing. -/
theorem Taken.adds (ht : Taken x xs s s') (q : Nat) : IrqTasks.adds q s'.log = IrqTasks.adds q s.log := by
  rw [ht.log, adds_append]
  exact List.append_nil _

theorem Good.take (h : Good s (x :: xs) rs st) (ht : Taken x xs s s')
    (hp : s.priority x < s.currTaskPriority) :
    Good s' xs (x :: rs) (.task (s.number x) (s.priority x) :: st) := by
  have hbelow : ∀ f ∈ st, Frame.Below (s.priority x) f := fun f hf => by
    cases f with
    | task i q => exact Nat.lt_of_lt_of_le hp (h.top i q hf)
    | activation cur => trivial
  refine ⟨h.toQueued.take ht, ?_, fun i q hm => ?_, fun q => ?_, fun q => ?_, fun q => ?_⟩
  · rw [ht.log, stack_record h.stack]
    exact if_pos hbelow
  · rw [ht.currTaskPriority]
    cases hm with
    | head => exact Nat.le_refl _
    | tail _ hm => exact Nat.le_of_lt (hbelow _ hm)
  · rw [ht.log, adds_append, starts_append, ht.priority, ht.number, h.pending q]
    by_cases hq : s.priority x = q
    · simp [adds, starts, hq]
    · simp [adds, starts, hq]
  · rw [ht.adds, ht.calls]
    exact h.numbered q
  · rw [ht.adds]
    exact h.distinct q

/-- What the first task will add is still to come. -/
theorem Taken.tasks (ht : Taken x xs s s') (q : Nat) :
    IrqTasks.tasks q s (x :: xs) = IrqTasks.tasks q s' xs + (s.taskFunction x).tasks q := by
  unfold IrqTasks.tasks
  rw [ht.adds, ht.taskFunction, List.map_cons, List.sum_cons]
  omega

/-- The block of a task that is finished is given back. -/
theorem Queued.finish {c : Nat} (h : Queued s xs (x :: rs)) : Queued (s.finishTask x c) xs rs := by
  obtain ⟨hx, hnd⟩ := List.nodup_cons.1 h.nodup
  refine ⟨h.between, fun a ha => ?_, hnd, h.ordered, h.below⟩
  refine List.mem_filter.2 ⟨h.live a (List.mem_cons_of_mem x ha), ?_⟩
  simpa using fun he : a = x => hx (he ▸ ha)

/-- An event that neither adds nor starts a task. -/
theorem Queued.record (h : Queued s xs rs) (e : IrqEvent) : Queued (s.record e) xs rs :=
  ⟨h.between, h.live, h.nodup, h.ordered, h.below⟩

theorem pending_record {e : IrqEvent} {log : List IrqEvent} {ns : List Nat} (ha : adds p [e] = [])
    (hs : starts p [e] = []) (h : adds p log = starts p log ++ ns) :
    adds p (log ++ [e]) = starts p (log ++ [e]) ++ ns := by
  rw [adds_append, starts_append, ha, hs, List.append_nil, List.append_nil, h]

theorem adds_record {e : IrqEvent} {log : List IrqEvent} (ha : adds p [e] = []) :
    adds p (log ++ [e]) = adds p log := by
  rw [adds_append, ha, List.append_nil]

/-- Nor are there new numbers. -/
theorem Good.numbers {e : IrqEvent} (h : Good s xs rs st) (ha : ∀ q, adds q [e] = []) :
    (∀ q, ∀ i ∈ adds q (s.record e).log, i < s.calls) ∧ ∀ q, (adds q (s.record e).log).Nodup := by
  have hlog (q : Nat) : adds q (s.record e).log = adds q s.log := adds_record (ha q)
  simp only [hlog]
  exact ⟨h.numbered, h.distinct⟩

/-- The task is finished. -/
theorem Good.finish {c i : Nat} (h : Good s xs (x :: rs) (.task i p :: st))
    (htop : ∀ i p, Frame.task i p ∈ st → c ≤ p) :
    Good ((s.record (.finish i p)).finishTask x c) xs rs st := by
  obtain ⟨hnumbered, hdistinct⟩ := h.numbers (e := .finish i p) fun _ => rfl
  refine ⟨(h.toQueued.record _).finish, ?_, htop, fun q => pending_record rfl rfl (h.pending q),
    hnumbered, hdistinct⟩
  exact (stack_record h.stack).trans (if_pos ⟨rfl, rfl⟩)

theorem Good.enter (h : Good s xs rs st) :
    Good (s.record (.enter s.currTaskPriority)) xs rs (.activation s.currTaskPriority :: st) := by
  obtain ⟨hnumbered, hdistinct⟩ := h.numbers (e := .enter s.currTaskPriority) fun _ => rfl
  refine ⟨h.toQueued.record _, stack_record h.stack, fun i p hm => ?_,
    fun q => pending_record rfl rfl (h.pending q), hnumbered, hdistinct⟩
  cases hm with
  | tail _ hm => exact h.top i p hm

theorem Good.leave (h : Good s xs rs (.activation s.currTaskPriority :: st)) :
    Good (s.record (.leave s.currTaskPriority)) xs rs st := by
  obtain ⟨hnumbered, hdistinct⟩ := h.numbers (e := .leave s.currTaskPriority) fun _ => rfl
  exact ⟨h.toQueued.record _, (stack_record h.stack).trans (if_pos rfl),
    fun i p hm => h.top i p (List.mem_cons_of_mem _ hm), fun q => pending_record rfl rfl (h.pending q),
    hnumbered, hdistinct⟩

/-- An event that is no addition. -/
theorem tasks_record {e : IrqEvent} (ha : adds p [e] = []) : tasks p (s.record e) xs = tasks p s xs :=
  congrArg (fun l : List Nat => l.length + _) (adds_record ha)

/-! ## runs -/

/-- What is shown of interrupts whose loops are bounded by `n`. -/
def Serves (exec : Interrupts → IrqTasks → Option IrqTasks) (n : Nat) : Prop :=
  ∀ i s xs rs st, Good s xs rs st → i.Below 9999 → i.size + s.work xs < n →
    ∃ s' xs', exec i s = some s' ∧ Good s' xs' rs st ∧ s'.currTaskPriority = s.currTaskPriority ∧
      s'.work xs' + 1 ≤ s.work xs + i.size ∧ ∀ p, tasks p s' xs' = tasks p s xs + i.tasks p

/-- The loop ends, and leaves only tasks that are not more urgent than the one it
interrupted. -/
theorem runLoop_good {exec : Interrupts → IrqTasks → Option IrqTasks} (he : Serves exec n) {m : Nat}
    (h : Good s xs rs st) (hn : s.work xs ≤ n) (hm : s.work xs < m) :
    ∃ s' xs', runLoop exec m s = some s' ∧ Good s' xs' rs st ∧
      s'.currTaskPriority = s.currTaskPriority ∧ s'.work xs' ≤ s.work xs ∧
      (∀ p, tasks p s' xs' = tasks p s xs) ∧ ∀ a ∈ xs', s.currTaskPriority ≤ s'.priority a := by
  induction m generalizing s xs with
  | zero => exact absurd hm (Nat.not_lt_zero _)
  | succ m ih =>
      rw [runLoop]
      cases xs with
      | nil =>
          rw [if_pos (show s.isTaskQueueEmpty from h.between.nil_iff.2 rfl)]
          exact ⟨s, [], rfl, h, rfl, Nat.le_refl _, fun _ => rfl, by simp⟩
      | cons x xs =>
          have hne : ¬ s.isTaskQueueEmpty := fun hq => List.cons_ne_nil _ _ (h.between.nil_iff.1 hq)
          rw [if_neg hne, h.between.next_head, firstOf_cons]
          by_cases hp : s.currTaskPriority ≤ s.priority x
          · refine ⟨s, x :: xs, by simp [hp], h, rfl, Nat.le_refl _, fun _ => rfl, fun a ha => ?_⟩
            cases ha with
            | head => exact hp
            | tail _ ha => exact Nat.le_trans hp ((List.pairwise_cons.1 h.ordered).1 a ha)
          · -- the task runs, and interrupts with it
            have ht := takeTask_taken h.between
            have hg := h.take ht (Nat.lt_of_not_le hp)
            have hw : s.work (x :: xs) = (s.taskFunction x).size + 1 + s.work xs := rfl
            have hw' : (s.takeTask x).work xs = s.work xs := by
              unfold work
              rw [ht.taskFunction]
            obtain ⟨s₂, xs₂, hx₂, hg₂, hc₂, hw₂, htasks⟩ := he _ _ _ _ _ hg (h.below x List.mem_cons_self).2
              (by omega)
            have hfin := hg₂.finish (c := s.currTaskPriority) h.top
            have hwf : ((s₂.record (.finish (s.number x) (s.priority x))).finishTask x s.currTaskPriority).work
                xs₂ = s₂.work xs₂ := rfl
            obtain ⟨s', xs', hrun, hg', hc', hw'', htasks', hrest⟩ := ih hfin (by omega) (by omega)
            refine ⟨s', xs', ?_, hg', hc', by omega, fun p => ?_, hrest⟩
            case refine_2 =>
              have hfinish : tasks p ((s₂.record (.finish (s.number x) (s.priority x))).finishTask x
                  s.currTaskPriority) xs₂ = tasks p s₂ xs₂ := tasks_record rfl
              rw [htasks', hfinish, htasks, ht.tasks]
            simp only [Option.bind_eq_bind, Option.bind_some, if_neg hp, hx₂]
            exact hrun

/-- `irqtask_run_preemptive` gives `curr_task_priority` back; when no task was
running, it runs all that are queued. -/
theorem irqtaskRunPreemptive_good {exec : Interrupts → IrqTasks → Option IrqTasks} (he : Serves exec n)
    {m : Nat} (h : Good s xs rs st) (hn : s.work xs ≤ n) (hm : s.work xs < m) :
    ∃ s' xs', irqtaskRunPreemptive exec m s = some s' ∧ Good s' xs' rs st ∧
      s'.currTaskPriority = s.currTaskPriority ∧ s'.work xs' ≤ s.work xs ∧
      (∀ p, tasks p s' xs' = tasks p s xs) ∧ (s.currTaskPriority = 9999 → xs' = []) := by
  obtain ⟨s', xs', hrun, hg, hc, hw, htasks, hrest⟩ := runLoop_good he h.enter hn hm
  have hcur : s'.currTaskPriority = s.currTaskPriority := hc
  rw [← hcur] at hg
  refine ⟨s'.record (.leave s'.currTaskPriority), xs', ?_, hg.leave, hcur, hw, fun p => ?_, fun h9 => ?_⟩
  · unfold irqtaskRunPreemptive
    rw [hrun]
    rfl
  · rw [tasks_record rfl, htasks p, tasks_record rfl]
  · rw [List.eq_nil_iff_forall_not_mem]
    intro a ha
    have hle : s.currTaskPriority ≤ s'.priority a := hrest a ha
    have hlt := (hg.below a ha).1
    omega

/-- All interrupts are served. -/
theorem interrupts_serves (hk : ∀ n live, kmalloc n live ∉ live) (n : Nat) :
    Serves (interrupts kmalloc n) n := by
  induction n with
  | zero => exact fun i s xs rs st _ _ hn => absurd hn (Nat.not_lt_zero _)
  | succ n ih =>
      intro i s xs rs st h hb hn
      cases i with
      | done => exact ⟨s, xs, rfl, h, rfl, Nat.le_refl _, fun _ => rfl⟩
      | add p during after =>
          obtain ⟨hp, hd, ha⟩ := hb
          simp only [Interrupts.size] at hn ⊢
          have hlen : xs.length ≤ s.work xs := length_le_work
          obtain ⟨s₁, hadd, hadded⟩ := irqtaskAdd_added (p := p) (f := during) hk h.between
            (fun a ha => h.live a (List.mem_append_right rs ha)) (show xs.length < n by omega)
          obtain ⟨hg, hw, htasks⟩ := h.add hadded (hk _ _) hp hd
          obtain ⟨s', xs', hrun, hg', hc, hw', htasks'⟩ := ih after _ _ _ _ hg ha (by omega)
          refine ⟨s', xs', ?_, hg', hc.trans hadded.currTaskPriority, by omega, fun q => ?_⟩
          · rw [interrupts, hadd]
            exact hrun
          · rw [htasks', htasks, Interrupts.tasks]
            omega
      | run after =>
          simp only [Interrupts.size] at hn ⊢
          obtain ⟨s₁, xs₁, hrun₁, hg, hc, hw, htasks, -⟩ :=
            irqtaskRunPreemptive_good ih h (show s.work xs ≤ n by omega) (show s.work xs < n by omega)
          obtain ⟨s', xs', hrun, hg', hc', hw', htasks'⟩ := ih after _ _ _ _ hg hb (by omega)
          refine ⟨s', xs', ?_, hg', hc'.trans hc, by omega, fun q => ?_⟩
          · rw [interrupts, hrun₁]
            exact hrun
          · rw [htasks', htasks, Interrupts.tasks]

/-- Before `irqtask_init_list`. -/
structure Unused (s : IrqTasks) : Prop where
  currTaskPriority : s.currTaskPriority = 9999
  log : s.log = []

/-- After `irqtask_init_list` nothing is queued. -/
theorem irqtaskInitList_good (hk : ∀ n live, kmalloc n live ∉ live) (hs : s.Unused) :
    Good (irqtaskInitList kmalloc s) [] [] [] ∧ (irqtaskInitList kmalloc s).currTaskPriority = 9999 := by
  have hhead : kmalloc s.calls s.live ∉ s.live := hk _ _
  have htail : kmalloc (s.calls + 1) (kmalloc s.calls s.live :: s.live) ∉ kmalloc s.calls s.live :: s.live :=
    hk _ _
  unfold irqtaskInitList newTask
  dsimp only
  generalize kmalloc s.calls s.live = hd at hhead htail
  generalize kmalloc (s.calls + 1) (hd :: s.live) = tl at htail
  have hne : hd ≠ tl := fun he => htail (he ▸ List.mem_cons_self)
  refine ⟨⟨⟨⟨?_, ?_⟩, ?_, ?_, .nil, by simp⟩, ?_, by simp, fun p => ?_, fun p => ?_, fun p => ?_⟩,
    hs.currTaskPriority⟩
  · simp [Linked, next, prev, setNext, setTask, hne, hne.symm]
  · simpa using hne
  · simp [setNext, setTask]
  · simpa using hne
  · show stack s.log = some []
    rw [hs.log]
    rfl
  · show adds p s.log = starts p s.log ++ _
    rw [hs.log]
    rfl
  · show ∀ i ∈ adds p s.log, _
    rw [hs.log]
    exact fun i hi => absurd hi List.not_mem_nil
  · show (adds p s.log).Nodup
    rw [hs.log]
    exact List.nodup_nil

/-- **Tasks.**  From `irqtask_init_list` on, whatever interrupts come in, they are
served, and when `irqtask_run_preemptive` is then called with no task running, it
returns.  As many tasks of each priority were then added as the interrupts are to add,
each of them was run once, those of one priority in the order they were added; tasks
start on top of less urgent ones only, and `curr_task_priority` is given back every
time. -/
theorem irqtasks_complete (kmalloc : Nat → List Nat → Nat) (hk : ∀ n live, kmalloc n live ∉ live)
    (s₀ : IrqTasks) (hs : s₀.Unused) (i : Interrupts) (hb : i.Below 9999) (n : Nat) (hn : i.size < n) :
    ∃ s s', interrupts kmalloc n i (irqtaskInitList kmalloc s₀) = some s ∧
      irqtaskRunPreemptive (interrupts kmalloc n) n s = some s' ∧
      s.currTaskPriority = 9999 ∧ s'.currTaskPriority = 9999 ∧ stack s'.log = some [] ∧
      ∀ p, starts p s'.log = adds p s'.log ∧ (adds p s'.log).Nodup ∧ (adds p s'.log).length = i.tasks p := by
  obtain ⟨hg, hc⟩ := irqtaskInitList_good hk hs
  obtain ⟨s, xs, hrun, hg₁, hc₁, hw₁, htasks₁⟩ := interrupts_serves hk n i _ _ _ _ hg hb hn
  have hw : (irqtaskInitList kmalloc s₀).work [] = 0 := rfl
  obtain ⟨s', xs', hrun', hg', hc', -, htasks', hnil⟩ := irqtaskRunPreemptive_good (interrupts_serves hk n) hg₁
    (show s.work xs ≤ n by omega) (show s.work xs < n by omega)
  have h9 : s.currTaskPriority = 9999 := hc₁.trans hc
  obtain rfl := hnil h9
  refine ⟨s, s', hrun, hrun', h9, hc'.trans h9, hg'.stack, fun p => ⟨?_, hg'.distinct p, ?_⟩⟩
  · simpa using (hg'.pending p).symm
  · have hnone : adds p (irqtaskInitList kmalloc s₀).log = [] := by
      have hlog : (irqtaskInitList kmalloc s₀).log = s₀.log := rfl
      rw [hlog, hs.log]
      rfl
    have htotal := (htasks' p).trans (htasks₁ p)
    simpa [tasks, hnone] using htotal

/-- The first address behind all that are given out. -/
def bumpKmalloc (_ : Nat) (live : List Nat) : Nat := live.foldr max 0 + 1

theorem bumpKmalloc_fresh (n : Nat) (live : List Nat) : bumpKmalloc n live ∉ live := by
  have hle : ∀ a ∈ live, a ≤ live.foldr max 0 := by
    induction live with
    | nil => simp
    | cons b live ih =>
        intro a ha
        simp only [List.foldr_cons]
        cases ha with
        | head => exact Nat.le_max_left _ _
        | tail _ ha => exact Nat.le_trans (ih a ha) (Nat.le_max_right _ _)
  intro hm
  have h := hle _ hm
  unfold bumpKmalloc at h
  omega

/-- Nothing was called yet. -/
def unused : IrqTasks := ⟨fun _ => ⟨0, .done, none, none, 0⟩, 0, 0, 9999, [], 0, []⟩

/-- A timer interrupt while the task of a UART interrupt runs, which queues
another UART task. -/
theorem irqtasks_complete_nested :
    ∃ s s', interrupts bumpKmalloc 30 (.add 1 (.add 0 .done (.add 1 .done (.run .done))) .done)
        (irqtaskInitList bumpKmalloc unused) = some s ∧
      irqtaskRunPreemptive (interrupts bumpKmalloc 30) 30 s = some s' ∧
      s.currTaskPriority = 9999 ∧ s'.currTaskPriority = 9999 ∧ stack s'.log = some [] ∧
      ∀ p, starts p s'.log = adds p s'.log ∧ (adds p s'.log).Nodup ∧ (adds p s'.log).length =
        (Interrupts.add 1 (.add 0 .done (.add 1 .done (.run .done))) .done).tasks p :=
  irqtasks_complete bumpKmalloc bumpKmalloc_fresh unused ⟨rfl, rfl⟩ _ (by decide) 30 (by decide)

end IrqTasks

end RpiKernel
