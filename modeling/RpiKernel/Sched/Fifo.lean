import RpiKernel.Lib.Runs
import RpiKernel.Sched.Queue

/-!
# RpiKernel.Sched.Fifo

The run queue over whole runs.

* `runQueue_fifo` — `push_rq` and `pop_rq` on the linked threads are the two
  operations of a list, over every sequence of calls;
* `killZombies_filter` — `kill_zombies` filters that list.
-/

namespace RpiKernel

open Dlist Runs Sched

/-! ## the abstract queue -/

/-- The calls on the run queue. -/
inductive QueueCall where
  | push (th : Nat)
  | pop
deriving Repr, DecidableEq

/-- A queue and what was taken out of it. -/
structure Fifo where
  queue : List Nat
  popped : List Nat
deriving Repr, DecidableEq

/-- A thread is appended, or the first one is taken out. -/
inductive Fifo.Step : Fifo → QueueCall → Option Nat → Fifo → Prop
  | push (xs popped : List Nat) (th : Nat) : Step ⟨xs, popped⟩ (.push th) none ⟨xs ++ [th], popped⟩
  | pop (x : Nat) (xs popped : List Nat) : Step ⟨x :: xs, popped⟩ .pop (some x) ⟨xs, x :: popped⟩
  | pop_nil (popped : List Nat) : Step ⟨[], popped⟩ .pop none ⟨[], popped⟩

/-! ## the run queue -/

/-- A call, what it returns and the state behind it. -/
inductive QueueStep : Sched → QueueCall → Option Nat → Sched → Prop
  | push (s : Sched) (th : Nat) : QueueStep s (.push th) none (pushRq th s)
  | pop (s : Sched) : QueueStep s .pop (popRq s).1 (popRq s).2

/-- A thread that is pushed is not in the queue, and its links are `NULL`. -/
def Pushable (s : Sched) : QueueCall → Prop
  | .push th => (∀ xs, Visits s.next s.rqHead xs → th ∉ xs) ∧ s.prev th = none ∧ s.next th = none
  | .pop => True

/-- The linked threads are the abstract queue, and what was taken out and is not in it again
has no links. -/
structure Represents (s : Sched) (f : Fifo) : Prop where
  linked : Linked s f.queue
  popped : ∀ th ∈ f.popped, th ∉ f.queue → s.prev th = none ∧ s.next th = none

variable {s s' : Sched} {f : Fifo} {xs ys : List Nat} {th : Nat}

theorem Represents.push (h : Represents s f) (hth : Pushable s (.push th)) :
    Represents (pushRq th s) ⟨f.queue ++ [th], f.popped⟩ where
  linked := h.linked.pushRq (hth.1 _ h.linked.visits) fun _ => hth.2.1
  popped t ht hnot := by
    simp only [List.mem_append, List.mem_singleton, not_or] at hnot
    have htail : s.rqTail ≠ some t := fun he =>
      hnot.1 (List.mem_of_getLast? (h.linked.queue.tail ▸ he))
    rw [prev_pushRq, next_pushRq, if_neg (fun hc => hnot.2 hc.1), if_neg hnot.2, if_neg htail]
    exact h.popped t ht hnot.1

/-- `pop_rq` of an empty queue. -/
theorem Represents.pop_nil {popped : List Nat} (h : Represents s ⟨[], popped⟩) : popRq s = (none, s) := by
  have hh : s.rqHead = none := h.linked.queue.head
  rw [popRq, hh]

theorem Represents.pop {x : Nat} {popped : List Nat} (h : Represents s ⟨x :: xs, popped⟩) :
    ∃ s', popRq s = (some x, s') ∧ Represents s' ⟨xs, x :: popped⟩ := by
  have hq := h.linked.queue
  obtain ⟨s', hpop, -, -, hl⟩ := hq.popRq
  obtain ⟨s'', hpop', -, -, -, -, hnext, hprev⟩ := popRq_some (show s.rqHead = some x from hq.head)
  obtain rfl : s' = s'' := congrArg Prod.snd (hpop.symm.trans hpop')
  refine ⟨s', hpop, hl h.linked.tailLinked, fun t ht hnot => ?_⟩
  by_cases htx : t = x
  · rw [hprev, hnext, if_pos (.inl htx), if_pos htx]
    exact ⟨rfl, rfl⟩
  · have hne : s.next x ≠ some t := by
      rw [hq.visits.cons.2.head_eq]
      exact fun he => hnot (List.mem_of_head? he)
    have hpopped := (List.mem_cons.1 ht).resolve_left htx
    rw [hprev, hnext, if_neg (by simp [htx, hne]), if_neg htx]
    exact h.popped t hpopped (by simp [htx, hnot])

/-- One call. -/
theorem Represents.step {a : QueueCall} {b : Option Nat} (h : Represents s f) (ha : Pushable s a)
    (hs : QueueStep s a b s') : ∃ f', Fifo.Step f a b f' ∧ Represents s' f' := by
  cases hs with
  | push th => exact ⟨_, .push f.queue f.popped th, h.push ha⟩
  | pop =>
      obtain ⟨queue, popped⟩ := f
      cases queue with
      | nil =>
          rw [h.pop_nil]
          exact ⟨_, .pop_nil popped, h⟩
      | cons x xs =>
          obtain ⟨s', hpop, hr⟩ := h.pop
          rw [hpop]
          exact ⟨_, .pop x xs popped, hr⟩

/-- Over every sequence of calls of `push_rq`, each with a thread outside of the queue whose
links are `NULL`, and of `pop_rq`, the run queue is a list that `push_rq` appends to and
`pop_rq` takes the first element of, with the answers of that list: `next` from `RQ_head` on
visits it, `RQ_tail` is its last element, `prev` is the inverse of `next` and `NULL` at the
head; and what was taken out has no links. -/
theorem runQueue_fifo {s s' : Sched} {xs : List Nat} {l : List (QueueCall × Option Nat)}
    (hl : Linked s xs) (h : Trace QueueStep Pushable s l s') :
    ∃ f, Trace Fifo.Step (fun _ _ => True) ⟨xs, []⟩ l f ∧ Linked s' f.queue ∧
      ∀ th ∈ f.popped, th ∉ f.queue → s'.prev th = none ∧ s'.next th = none := by
  have hr : Represents s ⟨xs, []⟩ := ⟨hl, by simp⟩
  obtain ⟨f, hf, hrep⟩ := h.simulate (fun _ _ _ _ _ hr ha hs => hr.step ha hs) hr
  exact ⟨f, hf, hrep.linked, hrep.popped⟩

/-- No thread is queued. -/
def emptyQueue : Sched := ⟨fun _ => ⟨.active, none, none⟩, none, none, 0⟩

/-- Two threads in, one out: it is the first one, and has no links. -/
theorem runQueue_fifo_two : ∃ f, Trace Fifo.Step (fun _ _ => True) ⟨[], []⟩
    [(.push 1, none), (.push 2, none), (.pop, some 1)] f ∧
      Linked (popRq (pushRq 2 (pushRq 1 emptyQueue))).2 f.queue := by
  have h₀ : Represents emptyQueue ⟨[], []⟩ := ⟨⟨rfl, rfl⟩, by simp⟩
  have hp₁ : Pushable emptyQueue (.push 1) :=
    ⟨fun xs hv => h₀.linked.visits.unique hv ▸ by decide, rfl, rfl⟩
  have hp₂ : Pushable (pushRq 1 emptyQueue) (.push 2) :=
    ⟨fun xs hv => (h₀.push hp₁).linked.visits.unique hv ▸ by decide, rfl, rfl⟩
  obtain ⟨f, hf, hl, -⟩ := runQueue_fifo h₀.linked <| .cons (.push 1) none hp₁ (.push _ 1) <|
    .cons (.push 2) none hp₂ (.push _ 2) <|
    .cons .pop (some 1) (show Pushable _ .pop from trivial) (.pop _) <| .nil _
  exact ⟨f, hf, hl⟩

/-! ## kill_zombies -/

/-- Links outside of the queue are left alone, and those of the zombies are cleared. -/
theorem Linked.killZombiesLoop_links {n : Nat} (hl : Linked s (ys ++ xs))
    (h : RpiKernel.killZombiesLoop n xs.head? s = some s') :
    (∀ j, j ∉ ys ++ xs → s.prev j = none ∧ s.next j = none → s'.prev j = none ∧ s'.next j = none) ∧
      ∀ x ∈ xs, s.status x = .zombie → s'.prev x = none ∧ s'.next x = none := by
  induction xs generalizing s ys n with
  | nil =>
      have hs : s = s' := by cases n <;> exact Option.some.inj h
      exact ⟨fun _ _ hj => hs ▸ hj, by simp⟩
  | cons x xs ih =>
      have hnd := hl.queue.nodup
      have hx : x ∉ ys ++ xs := (List.nodup_cons.1 (List.perm_middle.nodup_iff.1 hnd)).1
      have hnext : s.next x = xs.head? := by
        obtain ⟨_, _, -, -, -, hrest⟩ := isSeg_append.mp hl
        exact hrest.visits.head_eq
      cases n with
      | zero => contradiction
      | succ n =>
          rw [List.head?_cons, RpiKernel.killZombiesLoop, hnext] at h
          by_cases hz : s.status x = .zombie
          · rw [if_pos hz] at h
            have hlinks : (RpiKernel.reapThread x s).prev x = none ∧ (RpiKernel.reapThread x s).next x = none := by
              rw [prev_reapThread, next_reapThread, if_pos rfl, if_pos rfl]
              exact ⟨rfl, rfl⟩
            obtain ⟨hout, hin⟩ := ih hl.reapThread h
            refine ⟨fun j hj hjl => ?_, fun y hy hyz => ?_⟩
            · have hjx : j ≠ x := fun he => hj (by simp [he])
              have hsucc : s.next x ≠ some j := fun he => hj (IsSeg.mem_next hl (by simp) he)
              have hpred : s.prev x ≠ some j := fun he => hj (IsSeg.mem_prev hl (by simp) he)
              refine hout j (fun hmem => hj ?_) ?_
              · simp only [List.mem_append, List.mem_cons] at hmem ⊢
                tauto
              · rwa [prev_reapThread, next_reapThread, if_neg hjx, if_neg hjx, if_neg hsucc, if_neg hpred]
            · by_cases hyx : y = x
              · exact hyx ▸ hout x hx hlinks
              · refine hin y ((List.mem_cons.1 hy).resolve_left hyx) ?_
                rwa [status_reapThread, if_neg hyx]
          · rw [if_neg hz] at h
            rw [← List.singleton_append, ← List.append_assoc] at hl
            obtain ⟨hout, hin⟩ := ih hl h
            refine ⟨fun j hj => hout j (by simpa using hj), fun y hy hyz => ?_⟩
            cases List.mem_cons.1 hy with
            | inl he => exact absurd (he ▸ hyz) hz
            | inr hy => exact hin y hy hyz

/-- On a run queue of any length, linked from `RQ_head` to `RQ_tail` without repetition and with
`NULL` in front of the head, `kill_zombies` returns, and leaves such a queue with the
threads that are no zombies, in the same order; `RQ_head` and `RQ_tail` are `NULL` exactly
when none is left; and every zombie is `THREAD_FREE` and has no links. -/
theorem killZombies_filter {s : Sched} {xs : List Nat} (hl : Linked s xs) :
    ∃ s', (∀ n, killZombies n s = if xs.length ≤ n then some s' else none) ∧
      Linked s' (xs.filter fun x => s.status x ≠ .zombie) ∧
      ((s'.rqHead = none ∧ s'.rqTail = none) ↔ ∀ x ∈ xs, s.status x = .zombie) ∧
      (∀ x ∈ xs, s.status x = .zombie → s'.status x = .free ∧ s'.prev x = none ∧ s'.next x = none) ∧
      ∀ x, x ∉ xs ∨ s.status x ≠ .zombie → s'.status x = s.status x := by
  obtain ⟨s', hrun, hl', hr⟩ := hl.killZombies
  have hrun' : killZombiesLoop xs.length xs.head? s = some s' := by
    have h := hrun xs.length
    rwa [if_pos (Nat.le_refl _), killZombies, hl.queue.head] at h
  have hl₀ : Linked s ([] ++ xs) := hl
  have hlinks := (hl₀.killZombiesLoop_links hrun').2
  refine ⟨s', hrun, hl', ?_, fun x hx hz => ⟨?_, hlinks x hx hz⟩, fun x hx => ?_⟩
  · rw [hl'.queue.head, hl'.queue.tail, List.head?_eq_none_iff, List.getLast?_eq_none_iff, and_self,
      List.filter_eq_nil_iff]
    simp
  · rw [hr.status, if_pos ⟨hx, hz⟩]
  · rw [hr.status, if_neg]
    tauto

/-- A zombie at the head and an active thread behind it. -/
def zombieHead : Sched where
  threads i := if i = 1 then ⟨.zombie, none, some 2⟩ else ⟨.active, some 1, none⟩
  rqHead := some 1
  rqTail := some 2
  currThread := 0

theorem killZombies_filter_head : ∃ s', killZombies 2 zombieHead = some s' ∧ Linked s' [2] ∧
    s'.status 1 = .free := by
  have hl : Linked zombieHead [1, 2] := ⟨rfl, rfl, rfl, rfl, rfl, rfl⟩
  obtain ⟨s', hrun, hl', -, hfree, -⟩ := killZombies_filter hl
  exact ⟨s', hrun 2, hl', (hfree 1 (by decide) rfl).1⟩

end RpiKernel
