import Mathlib.Logic.Function.Basic

/-!
# RpiKernel.Sched.Thread

The scheduler of `sched.c` and the system calls of `syscall.c` and
`signal.c` that end a thread: the thread table, the run queue threaded
through it, and every operation that edits the queue.

A `thread_t *` is the index of its slot, `none` is `NULL`.  Of `thread_t`
this module has the fields the queue operations read and write; the rest of
a thread (its memory, its files) is added by `RpiKernel.Process`.  The two
loops take the number of passes they may make and answer `none` when that
is not enough.
-/

namespace RpiKernel

/-! ## threads -/

/-- `MAX_THREAD_COUNT`; `threads` has one slot more. -/
def maxThreadCount : Nat := 32768

/-- `THREAD_FREE`, `THREAD_ACTIVE` and `THREAD_ZOMBIE`. -/
inductive ThreadStatus where
  | free
  | active
  | zombie
deriving Repr, DecidableEq

/-- The scheduling fields of a `thread_t`. -/
structure Thread where
  status : ThreadStatus
  prev : Option Nat
  next : Option Nat
deriving Repr, DecidableEq

/-- `threads`, `RQ_head`, `RQ_tail` and `curr_thread`. -/
structure Sched where
  threads : Nat → Thread
  rqHead : Option Nat
  rqTail : Option Nat
  currThread : Nat

namespace Sched

/-- `threads[th].status = st`. -/
def setStatus (th : Nat) (st : ThreadStatus) (s : Sched) : Sched :=
  { s with threads := Function.update s.threads th { s.threads th with status := st } }

/-- `threads[th].prev = p`. -/
def setPrev (th : Nat) (p : Option Nat) (s : Sched) : Sched :=
  { s with threads := Function.update s.threads th { s.threads th with prev := p } }

/-- `threads[th].next = p`. -/
def setNext (th : Nat) (p : Option Nat) (s : Sched) : Sched :=
  { s with threads := Function.update s.threads th { s.threads th with next := p } }

/-- An assignment to `q->prev` under a test of `q` against `NULL`. -/
def setPrev? (q p : Option Nat) (s : Sched) : Sched :=
  match q with
  | some th => s.setPrev th p
  | none => s

/-- An assignment to `q->next` under a test of `q` against `NULL`. -/
def setNext? (q p : Option Nat) (s : Sched) : Sched :=
  match q with
  | some th => s.setNext th p
  | none => s

/-- `RQ_head = p`. -/
def setHead (p : Option Nat) (s : Sched) : Sched := { s with rqHead := p }

/-- `RQ_tail = p`. -/
def setTail (p : Option Nat) (s : Sched) : Sched := { s with rqTail := p }

/-- `curr_thread = th`. -/
def setCurr (th : Nat) (s : Sched) : Sched := { s with currThread := th }

/-- The status, `prev` and `next` of a slot. -/
def status (s : Sched) (th : Nat) : ThreadStatus := (s.threads th).status
def prev (s : Sched) (th : Nat) : Option Nat := (s.threads th).prev
def next (s : Sched) (th : Nat) : Option Nat := (s.threads th).next

section

variable (s : Sched) (th j : Nat) (st : ThreadStatus) (p : Option Nat)

@[simp] theorem status_setStatus :
    (s.setStatus th st).status j = if j = th then st else s.status j := by
  by_cases h : j = th
  · subst h; simp [setStatus, status]
  · simp [setStatus, status, h]

@[simp] theorem prev_setStatus : (s.setStatus th st).prev j = s.prev j := by
  by_cases h : j = th
  · subst h; simp [setStatus, prev]
  · simp [setStatus, prev, h]

@[simp] theorem next_setStatus : (s.setStatus th st).next j = s.next j := by
  by_cases h : j = th
  · subst h; simp [setStatus, next]
  · simp [setStatus, next, h]

@[simp] theorem status_setPrev : (s.setPrev th p).status j = s.status j := by
  by_cases h : j = th
  · subst h; simp [setPrev, status]
  · simp [setPrev, status, h]

@[simp] theorem prev_setPrev : (s.setPrev th p).prev j = if j = th then p else s.prev j := by
  by_cases h : j = th
  · subst h; simp [setPrev, prev]
  · simp [setPrev, prev, h]

@[simp] theorem next_setPrev : (s.setPrev th p).next j = s.next j := by
  by_cases h : j = th
  · subst h; simp [setPrev, next]
  · simp [setPrev, next, h]

@[simp] theorem status_setNext : (s.setNext th p).status j = s.status j := by
  by_cases h : j = th
  · subst h; simp [setNext, status]
  · simp [setNext, status, h]

@[simp] theorem prev_setNext : (s.setNext th p).prev j = s.prev j := by
  by_cases h : j = th
  · subst h; simp [setNext, prev]
  · simp [setNext, prev, h]

@[simp] theorem next_setNext : (s.setNext th p).next j = if j = th then p else s.next j := by
  by_cases h : j = th
  · subst h; simp [setNext, next]
  · simp [setNext, next, h]

end

/-! Every other field keeps its value. -/

section

variable (s : Sched) (th j : Nat) (st : ThreadStatus) (p : Option Nat)

@[simp] theorem rqHead_setStatus : (s.setStatus th st).rqHead = s.rqHead := rfl
@[simp] theorem rqTail_setStatus : (s.setStatus th st).rqTail = s.rqTail := rfl
@[simp] theorem currThread_setStatus : (s.setStatus th st).currThread = s.currThread := rfl
@[simp] theorem rqHead_setPrev : (s.setPrev th p).rqHead = s.rqHead := rfl
@[simp] theorem rqTail_setPrev : (s.setPrev th p).rqTail = s.rqTail := rfl
@[simp] theorem currThread_setPrev : (s.setPrev th p).currThread = s.currThread := rfl
@[simp] theorem rqHead_setNext : (s.setNext th p).rqHead = s.rqHead := rfl
@[simp] theorem rqTail_setNext : (s.setNext th p).rqTail = s.rqTail := rfl
@[simp] theorem currThread_setNext : (s.setNext th p).currThread = s.currThread := rfl
@[simp] theorem rqHead_setHead : (s.setHead p).rqHead = p := rfl
@[simp] theorem rqTail_setHead : (s.setHead p).rqTail = s.rqTail := rfl
@[simp] theorem currThread_setHead : (s.setHead p).currThread = s.currThread := rfl
@[simp] theorem status_setHead : (s.setHead p).status j = s.status j := rfl
@[simp] theorem prev_setHead : (s.setHead p).prev j = s.prev j := rfl
@[simp] theorem next_setHead : (s.setHead p).next j = s.next j := rfl
@[simp] theorem rqHead_setTail : (s.setTail p).rqHead = s.rqHead := rfl
@[simp] theorem rqTail_setTail : (s.setTail p).rqTail = p := rfl
@[simp] theorem currThread_setTail : (s.setTail p).currThread = s.currThread := rfl
@[simp] theorem status_setTail : (s.setTail p).status j = s.status j := rfl
@[simp] theorem prev_setTail : (s.setTail p).prev j = s.prev j := rfl
@[simp] theorem next_setTail : (s.setTail p).next j = s.next j := rfl
@[simp] theorem rqHead_setCurr : (s.setCurr th).rqHead = s.rqHead := rfl
@[simp] theorem rqTail_setCurr : (s.setCurr th).rqTail = s.rqTail := rfl
@[simp] theorem currThread_setCurr : (s.setCurr th).currThread = th := rfl
@[simp] theorem status_setCurr : (s.setCurr th).status j = s.status j := rfl
@[simp] theorem prev_setCurr : (s.setCurr th).prev j = s.prev j := rfl
@[simp] theorem next_setCurr : (s.setCurr th).next j = s.next j := rfl

end

section

variable (s : Sched) (j : Nat) (q p : Option Nat)

@[simp] theorem status_setPrev? : (s.setPrev? q p).status j = s.status j := by
  cases q <;> simp [setPrev?]

@[simp] theorem prev_setPrev? :
    (s.setPrev? q p).prev j = if q = some j then p else s.prev j := by
  cases q <;> simp [setPrev?, eq_comm]

@[simp] theorem next_setPrev? : (s.setPrev? q p).next j = s.next j := by
  cases q <;> simp [setPrev?]

@[simp] theorem rqHead_setPrev? : (s.setPrev? q p).rqHead = s.rqHead := by
  cases q <;> rfl

@[simp] theorem rqTail_setPrev? : (s.setPrev? q p).rqTail = s.rqTail := by
  cases q <;> rfl

@[simp] theorem currThread_setPrev? : (s.setPrev? q p).currThread = s.currThread := by
  cases q <;> rfl

@[simp] theorem status_setNext? : (s.setNext? q p).status j = s.status j := by
  cases q <;> simp [setNext?]

@[simp] theorem prev_setNext? : (s.setNext? q p).prev j = s.prev j := by
  cases q <;> simp [setNext?]

@[simp] theorem next_setNext? :
    (s.setNext? q p).next j = if q = some j then p else s.next j := by
  cases q <;> simp [setNext?, eq_comm]

@[simp] theorem rqHead_setNext? : (s.setNext? q p).rqHead = s.rqHead := by
  cases q <;> rfl

@[simp] theorem rqTail_setNext? : (s.setNext? q p).rqTail = s.rqTail := by
  cases q <;> rfl

@[simp] theorem currThread_setNext? : (s.setNext? q p).currThread = s.currThread := by
  cases q <;> rfl

end

end Sched

open Sched

/-! ## the run queue -/

/-- `push_rq`: an empty queue leaves `th->prev` as it is. -/
def pushRq (th : Nat) (s : Sched) : Sched :=
  let s := match s.rqTail with
    | some t => ((s.setPrev th (some t)).setNext t (some th)).setTail (some th)
    | none => (s.setHead (some th)).setTail (some th)
  s.setNext th none

/-- `pop_rq`. -/
def popRq (s : Sched) : Option Nat × Sched :=
  match s.rqHead with
  | none => (none, s)
  | some h =>
      let s := match s.next h with
        | none => s.setTail none
        | some y => s.setPrev y none
      let s := s.setHead (s.next h)
      (some h, (s.setPrev h none).setNext h none)

/-! What the two operations do to the fields. -/

section

variable (s : Sched) (th j : Nat)

@[simp] theorem status_pushRq : (pushRq th s).status j = s.status j := by
  unfold pushRq
  cases s.rqTail <;> simp

@[simp] theorem currThread_pushRq : (pushRq th s).currThread = s.currThread := by
  unfold pushRq
  cases s.rqTail <;> rfl

@[simp] theorem rqTail_pushRq : (pushRq th s).rqTail = some th := by
  unfold pushRq
  cases s.rqTail <;> rfl

theorem rqHead_pushRq : (pushRq th s).rqHead = if s.rqTail = none then some th else s.rqHead := by
  unfold pushRq
  cases s.rqTail <;> rfl

theorem next_pushRq :
    (pushRq th s).next j =
      if j = th then none else if s.rqTail = some j then some th else s.next j := by
  unfold pushRq
  cases s.rqTail <;> simp [eq_comm]

theorem prev_pushRq :
    (pushRq th s).prev j = if j = th ∧ s.rqTail ≠ none then s.rqTail else s.prev j := by
  unfold pushRq
  cases s.rqTail <;> simp

/-- The queue after its head `h` was popped. -/
theorem popRq_some {s : Sched} {h : Nat} (hh : s.rqHead = some h) :
    ∃ s', popRq s = (some h, s') ∧ s'.rqHead = s.next h ∧ s'.currThread = s.currThread ∧
      s'.rqTail = (if s.next h = none then none else s.rqTail) ∧
      (∀ j, s'.status j = s.status j) ∧
      (∀ j, s'.next j = if j = h then none else s.next j) ∧
      ∀ j, s'.prev j = if j = h ∨ s.next h = some j then none else s.prev j := by
  unfold popRq
  rw [hh]
  cases hn : s.next h with
  | none => refine ⟨_, rfl, ?_⟩; simp [hn]
  | some y => refine ⟨_, rfl, ?_⟩; simp [hn]; grind

end

/-! ## schedule -/

/-- The `do`/`while` loop of `schedule`, at most `n` passes: the thread it
stops at, `none` when `pop_rq` found the queue empty. -/
def scheduleLoop : Nat → Sched → Option (Option Nat × Sched)
  | 0, _ => none
  | n + 1, s =>
      match popRq s with
      | (none, s) => some (none, s)
      | (some t, s) =>
          if s.status t = .zombie then scheduleLoop n (pushRq t s) else some (some t, s)

/-- `schedule`; the switch of contexts is the change of `curr_thread`. -/
def schedule (n : Nat) (s : Sched) : Option Sched :=
  if s.rqHead = none then some s
  else
    match scheduleLoop n s with
    | none => none
    | some (none, s') => some s'
    | some (some t, s') =>
        -- the outgoing thread is the one current when `schedule` was called
        let s' := s'.setCurr t
        some (if s'.status s.currThread ≠ .zombie then pushRq s.currThread s' else s')

/-! ## kill_zombies -/

/-- The part of `kill_zombies` that takes a zombie out of the queue and
gives its slot back. -/
def reapThread (th : Nat) (s : Sched) : Sched :=
  let s := s.setHead (if s.rqHead = some th then s.next th else s.rqHead)
  let s := s.setTail (if s.rqTail = some th then s.prev th else s.rqTail)
  let s := s.setNext? (s.prev th) (s.next th)
  let s := s.setPrev? (s.next th) (s.prev th)
  ((s.setStatus th .free).setPrev th none).setNext th none

section

variable (s : Sched) (th j : Nat)

theorem rqHead_reapThread :
    (reapThread th s).rqHead = if s.rqHead = some th then s.next th else s.rqHead := by
  simp [reapThread]

theorem rqTail_reapThread :
    (reapThread th s).rqTail = if s.rqTail = some th then s.prev th else s.rqTail := by
  by_cases h : s.rqTail = some th <;> simp [reapThread, h]

@[simp] theorem currThread_reapThread : (reapThread th s).currThread = s.currThread := by
  simp [reapThread]

@[simp] theorem status_reapThread :
    (reapThread th s).status j = if j = th then .free else s.status j := by
  simp [reapThread]

theorem next_reapThread :
    (reapThread th s).next j =
      if j = th then none else if s.prev th = some j then s.next th else s.next j := by
  simp [reapThread]

theorem prev_reapThread :
    (reapThread th s).prev j =
      if j = th then none else if s.next th = some j then s.prev th else s.prev j := by
  simp [reapThread]

end

/-- The loop of `kill_zombies` from `th_ptr` on, at most `n` passes;
`next_ptr` is read before the slot is given back. -/
def killZombiesLoop : Nat → Option Nat → Sched → Option Sched
  | _, none, s => some s
  | 0, some _, _ => none
  | n + 1, some th, s =>
      killZombiesLoop n (s.next th)
        (if s.status th = .zombie then reapThread th s else s)

/-- `kill_zombies`. -/
def killZombies (n : Nat) (s : Sched) : Option Sched := killZombiesLoop n s.rqHead s

/-! ## creating threads -/

/-- The first of the `n` slots from `i` on that is `THREAD_FREE`. -/
def findFree (s : Sched) : Nat → Nat → Option Nat
  | 0, _ => none
  | n + 1, i => if s.status i = .free then some i else findFree s n (i + 1)

/-- `thread_create`: the slot it took, `none` when there is no free one. -/
def threadCreate (s : Sched) : Option (Nat × Sched) :=
  (findFree s (maxThreadCount + 1) 0).map fun th => (th, pushRq th (s.setStatus th .active))

/-- The loop of `init_thread_sched`. -/
def clearThreads (s : Sched) : Sched :=
  { s with threads := fun i => if i ≤ maxThreadCount then ⟨.free, none, none⟩ else s.threads i }

/-- `init_thread_sched`: every slot is cleared, and the idle thread is made
and becomes current. -/
def initThreadSched (s : Sched) : Option Sched :=
  (threadCreate (clearThreads s)).map fun r => r.2.setCurr r.1

/-- `thread_exec`: the new thread becomes current. -/
def threadExec (s : Sched) : Option Sched :=
  (threadCreate s).map fun r => r.2.setCurr r.1

/-- `fork`.  Without a free slot it writes through the `NULL` that
`thread_create` returned and never comes back. -/
def fork (s : Sched) : Option Sched := (threadCreate s).map Prod.snd

/-! ## the ways to die -/

/-- `exit`: the thread runs on until the next tick. -/
def exit (s : Sched) : Sched := s.setStatus s.currThread .zombie

/-- `pid` passes the checks of `kill`. -/
def killable (pid : Int) (s : Sched) : Prop :=
  ¬ (pid ≥ maxThreadCount ∨ pid < 0 ∨ s.status pid.toNat = .free)

instance (pid : Int) (s : Sched) : Decidable (killable pid s) := inferInstanceAs (Decidable (¬ _))

/-- `kill`. -/
def kill (n : Nat) (pid : Int) (s : Sched) : Option Sched :=
  if killable pid s then schedule n (s.setStatus pid.toNat .zombie) else some s

/-- `thread_exit`, the end of a thread with a bad page fault. -/
def threadExit (n : Nat) (s : Sched) : Option Sched :=
  schedule n (s.setStatus s.currThread .zombie)

/-- What `signal_default_handler` does before it calls `schedule`. -/
def defaultDeath (s : Sched) : Sched :=
  let c := s.currThread
  pushRq c (((s.setStatus c .zombie).setPrev c none).setNext c none)

/-- `signal_default_handler`. -/
def signalDefaultHandler (n : Nat) (s : Sched) : Option Sched := schedule n (defaultDeath s)

end RpiKernel
