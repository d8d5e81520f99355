import RpiKernel.Lib.Dlist
import RpiKernel.Sched.Thread

/-!
# RpiKernel.Sched.Queue

The run queue as a list.  `Queue s xs` says what a traversal along `next`
sees, `Linked s xs` that the `prev` pointers agree with it; every operation
of `RpiKernel.Sched.Thread` is described by what it does to `xs`.

`push_rq` of a thread that is queued already cuts the queue at that thread
(`Queue.pushRq`): the threads behind it are lost and its `prev` is wrong.
Both stay intact only when the thread is not queued (`Linked.pushRq`).
-/

namespace RpiKernel

open Dlist Sched

/-- Following `next` from `RQ_head` visits `xs` and ends at `RQ_tail`. -/
structure Queue (s : Sched) (xs : List Nat) : Prop where
  visits : Visits s.next s.rqHead xs
  tail : s.rqTail = xs.getLast?

/-- The queue is the doubly linked list `xs`: `prev` is the inverse of
`next` along it, and `NULL` at the head. -/
def Linked (s : Sched) (xs : List Nat) : Prop :=
  IsSeg s.next s.prev none s.rqHead xs s.rqTail none

/-- The back links are right from the third member on: what `pop_rq` needs
to leave a well linked queue. -/
def TailLinked (s : Sched) : List Nat → Prop
  | [] => True
  | h :: xs => ∃ p, IsSeg s.next s.prev p (s.next h) xs s.rqTail none

section

variable {s s' : Sched} {xs ys zs : List Nat} {t c : Nat}

theorem Linked.tailLinked (hl : Linked s xs) : TailLinked s xs := by
  cases xs with
  | nil => trivial
  | cons x xs => exact ⟨some x, hl.2.2⟩

theorem Linked.queue (hl : Linked s xs) : Queue s xs :=
  ⟨hl.visits, by simpa using hl.last_eq⟩

theorem Queue.nodup (hq : Queue s xs) : xs.Nodup := hq.visits.nodup

theorem Queue.unique (hq : Queue s xs) (hq' : Queue s ys) : xs = ys :=
  hq.visits.unique hq'.visits

theorem Queue.head (hq : Queue s xs) : s.rqHead = xs.head? := hq.visits.head_eq

/-- An empty queue has nothing to disagree about. -/
theorem Queue.linked_nil (hq : Queue s []) : Linked s [] := ⟨hq.tail.symm, hq.head⟩

/-- The queue depends on the links of its members only. -/
theorem Queue.congr (hq : Queue s xs) (hh : s'.rqHead = s.rqHead) (ht : s'.rqTail = s.rqTail)
    (hn : ∀ y ∈ xs, s'.next y = s.next y) : Queue s' xs :=
  ⟨by rw [hh]; exact hq.visits.congr hn, by rw [ht]; exact hq.tail⟩

theorem Linked.congr (hl : Linked s xs) (hh : s'.rqHead = s.rqHead) (ht : s'.rqTail = s.rqTail)
    (hn : ∀ y ∈ xs, s'.next y = s.next y) (hp : ∀ y ∈ xs, s'.prev y = s.prev y) :
    Linked s' xs := by
  unfold Linked
  rw [hh, ht]
  exact IsSeg.congr hl hn hp

/-! ## push_rq -/

/-- `push_rq` puts the thread last, and cuts the queue where the thread
stood before. -/
theorem Queue.pushRq (hq : Queue s xs) (c : Nat) :
    Queue (pushRq c s) (xs.takeWhile (· ≠ c) ++ [c]) := by
  have hh : (RpiKernel.pushRq c s).rqHead = s.rqHead.or (some c) := by
    rw [rqHead_pushRq, hq.tail, hq.head]
    cases xs <;> simp
  constructor
  · rw [hh]
    refine hq.visits.pushBack _ (by simp [next_pushRq]) fun y _ hyc => ?_
    rw [next_pushRq, if_neg hyc, hq.tail]
  · simp

/-- A thread outside the queue is appended. -/
theorem Queue.pushRq_new (hq : Queue s xs) (hc : c ∉ xs) :
    Queue (RpiKernel.pushRq c s) (xs ++ [c]) := by
  have hcut : xs.takeWhile (· ≠ c) = xs := by
    rw [List.takeWhile_eq_self_iff]
    intro y hy
    simpa using fun he : y = c => hc (he ▸ hy)
  simpa only [hcut] using hq.pushRq c

/-- The back links stay right when the thread was not queued and, for an
empty queue, its own `prev` was `NULL`. -/
theorem Linked.pushRq (hl : Linked s xs) (hc : c ∉ xs) (hp : xs = [] → s.prev c = none) :
    Linked (pushRq c s) (xs ++ [c]) := by
  have ht := hl.queue.tail
  have hh : (RpiKernel.pushRq c s).rqHead = s.rqHead.or (some c) := by
    rw [rqHead_pushRq, ht, hl.queue.head]
    cases xs <;> simp
  have hpc : (RpiKernel.pushRq c s).prev c = s.rqTail := by
    rw [prev_pushRq]
    cases xs with
    | nil => simp [ht, hp rfl]
    | cons x xs => simp [ht]
  unfold Linked
  rw [hh, rqTail_pushRq]
  refine IsSeg.pushBack _ _ hl hc (by simp [next_pushRq]) hpc (fun y hy => ?_) fun y hy => ?_
  · have hyc : y ≠ c := fun he => hc (he ▸ hy)
    simp [prev_pushRq, hyc]
  · have hyc : y ≠ c := fun he => hc (he ▸ hy)
    rw [next_pushRq, if_neg hyc]

/-! ## pop_rq -/

/-- What one `pop_rq` leaves behind. -/
structure Popped (s s' : Sched) (h : Nat) : Prop where
  status : ∀ j, s'.status j = s.status j
  curr : s'.currThread = s.currThread
  prev_head : s'.prev h = none
  prev_other : ∀ j, s.next h ≠ some j → j ≠ h → s'.prev j = s.prev j

/-- `pop_rq` takes the head off; the new head's `prev` is cleared, whatever
it was. -/
theorem Queue.popRq {h : Nat} (hq : Queue s (h :: xs)) :
    ∃ s', popRq s = (some h, s') ∧ Queue s' xs ∧ Popped s s' h ∧
      (TailLinked s (h :: xs) → Linked s' xs) := by
  obtain ⟨hh, hv⟩ := hq.visits.cons
  obtain ⟨s', hpop, hh', hc', ht', hst, hn, hp⟩ := popRq_some hh
  have hnd := List.nodup_cons.mp hq.nodup
  have hne : ∀ y ∈ xs, y ≠ h := fun y hy he => hnd.1 (he ▸ hy)
  have hnext : ∀ y ∈ xs, s'.next y = s.next y := fun y hy => by rw [hn, if_neg (hne y hy)]
  have htail : s'.rqTail = xs.getLast? := by
    rw [ht', hq.tail]
    cases xs with
    | nil => simpa using hv
    | cons x xs => simp [hv.cons.1, List.getLast?_cons]
  refine ⟨s', hpop, ⟨by rw [hh']; exact hv.congr hnext, htail⟩,
    ⟨hst, hc', by simp [hp], fun j hj hjh => ?_⟩, fun hl => ?_⟩
  · rw [hp, if_neg (by simp [hj, hjh])]
  · -- behind the new head nothing changes
    unfold Linked
    cases xs with
    | nil => exact ⟨htail.symm, by rw [hh']; simpa using hv⟩
    | cons x xs =>
        obtain ⟨p, hx, -, hrest⟩ := hl
        have hnd' := List.nodup_cons.mp hnd.2
        have hlast : s'.rqTail = s.rqTail := by rw [ht', if_neg (by simp [hx])]
        rw [hh', hlast]
        refine ⟨hx, by simp [hp, hx], ?_⟩
        rw [hnext x List.mem_cons_self]
        refine hrest.congr (fun y hy => hnext y (List.mem_cons_of_mem x hy)) fun y hy => ?_
        have hyx : y ≠ x := fun he => hnd'.1 (he ▸ hy)
        rw [hp, if_neg]
        simp [hne y (List.mem_cons_of_mem x hy), hx, hyx.symm]

/-! ## schedule -/

/-- What a full turn of the `schedule` loop leaves alone. -/
structure Rotated (s s' : Sched) (xs : List Nat) : Prop where
  status : ∀ j, s'.status j = s.status j
  curr : s'.currThread = s.currThread
  prev_other : ∀ j, j ∉ xs → s'.prev j = s.prev j

/-- The loop moves the zombies `zs` in front of the first runnable thread
`t` behind the rest, and stops at `t`. -/
theorem Queue.scheduleLoop (hq : Queue s (zs ++ t :: ys)) (hz : ∀ z ∈ zs, s.status z = .zombie)
    (ht : s.status t ≠ .zombie) :
    ∃ s', (∀ n, scheduleLoop n s = if zs.length < n then some (some t, s') else none) ∧
      Queue s' (ys ++ zs) ∧ Rotated s s' (zs ++ t :: ys) ∧ s'.prev t = none ∧
      (TailLinked s (zs ++ t :: ys) → Linked s' (ys ++ zs)) := by
  induction zs generalizing s ys with
  | nil =>
      obtain ⟨s', hpop, hq', hp, hl⟩ := hq.popRq
      have hnext := hq.visits.cons.2.head_eq
      refine ⟨s', fun n => ?_, by simpa using hq', ⟨hp.status, hp.curr, fun j hj => ?_⟩,
        hp.prev_head, by simpa using hl⟩
      · cases n with
        | zero => rfl
        | succ n =>
            have ht' : s'.status t ≠ .zombie := by rw [hp.status]; exact ht
            simp [RpiKernel.scheduleLoop, hpop, ht']
      · simp only [List.nil_append, List.mem_cons, not_or] at hj
        refine hp.prev_other j (fun he => hj.2 ?_) hj.1
        rw [hnext] at he
        exact List.mem_of_head? he
  | cons z zs ih =>
      rw [List.cons_append] at hq
      obtain ⟨s₁, hpop, hq₁, hp, hl₁⟩ := hq.popRq
      have hnext := hq.visits.cons.2.head_eq
      have hznew := (List.nodup_cons.mp hq.nodup).1
      -- the zombie goes to the end
      have hq₂ := hq₁.pushRq_new hznew
      rw [List.append_assoc, List.cons_append] at hq₂
      have hzz : s₁.status z = .zombie := by rw [hp.status]; exact hz z List.mem_cons_self
      obtain ⟨s', hrun, hq', hrot, hpt, hl'⟩ := ih hq₂
        (fun w hw => by rw [status_pushRq, hp.status]; exact hz w (List.mem_cons_of_mem z hw))
        (by rw [status_pushRq, hp.status]; exact ht)
      refine ⟨s', fun n => ?_, by simpa using hq', ?_, hpt, fun hl => ?_⟩
      · cases n with
        | zero => rfl
        | succ n => simp [RpiKernel.scheduleLoop, hpop, hzz, hrun]
      · refine ⟨fun j => ?_, ?_, fun j hj => ?_⟩
        · rw [hrot.status, status_pushRq, hp.status]
        · rw [hrot.curr, currThread_pushRq, hp.curr]
        · simp only [List.cons_append, List.mem_cons, not_or] at hj
          have hjz : j ∉ zs ++ t :: (ys ++ [z]) := by
            have h2 := hj.2
            simp only [List.mem_append, List.mem_cons, not_or] at h2 ⊢
            simp [h2, hj.1]
          rw [hrot.prev_other j hjz, prev_pushRq, if_neg (by simp [hj.1])]
          refine hp.prev_other j (fun he => hj.2 ?_) hj.1
          rw [hnext] at he
          exact List.mem_of_head? he
      · have hl₂ := (hl₁ hl).pushRq hznew (by simp)
        rw [List.append_assoc, List.cons_append] at hl₂
        simpa using hl' hl₂.tailLinked

/-- The loop runs for ever on a queue of zombies. -/
theorem Queue.scheduleLoop_stuck (hq : Queue s xs) (hne : xs ≠ [])
    (hz : ∀ z ∈ xs, s.status z = .zombie) (n : Nat) : RpiKernel.scheduleLoop n s = none := by
  induction n generalizing s xs with
  | zero => rfl
  | succ n ih =>
      cases xs with
      | nil => exact absurd rfl hne
      | cons z zs =>
          obtain ⟨s₁, hpop, hq₁, hp, -⟩ := hq.popRq
          have hzz : s₁.status z = .zombie := by rw [hp.status]; exact hz z List.mem_cons_self
          have hq₂ := hq₁.pushRq_new (List.nodup_cons.mp hq.nodup).1
          simp only [RpiKernel.scheduleLoop, hpop, hzz, if_true]
          refine ih hq₂ (by simp) fun w hw => ?_
          rw [status_pushRq, hp.status]
          exact hz w (by simpa [or_comm] using hw)

/-- The state `schedule` ends in, from the one its loop ends in. -/
def switchFrom (off t : Nat) (s : Sched) : Sched :=
  if s.status off ≠ .zombie then pushRq off (s.setCurr t) else s.setCurr t

theorem Queue.schedule_nil (hq : Queue s []) (n : Nat) : schedule n s = some s := by
  have hh : s.rqHead = none := hq.head
  unfold schedule
  rw [if_pos hh]

theorem Queue.schedule_stuck (hq : Queue s xs) (hne : xs ≠ [])
    (hz : ∀ z ∈ xs, s.status z = .zombie) (n : Nat) : schedule n s = none := by
  have hh : s.rqHead ≠ none := by
    rw [hq.head]
    simpa using hne
  unfold schedule
  rw [if_neg hh, hq.scheduleLoop_stuck hne hz n]

theorem Queue.schedule (hq : Queue s (zs ++ t :: ys)) (hz : ∀ z ∈ zs, s.status z = .zombie)
    (ht : s.status t ≠ .zombie) :
    ∃ s₁, (∀ n, schedule n s =
        if zs.length < n then some (switchFrom s.currThread t s₁) else none) ∧
      Queue s₁ (ys ++ zs) ∧ Rotated s s₁ (zs ++ t :: ys) ∧ s₁.prev t = none ∧
      (TailLinked s (zs ++ t :: ys) → Linked s₁ (ys ++ zs)) := by
  obtain ⟨s₁, hrun, hrest⟩ := hq.scheduleLoop hz ht
  have hh : s.rqHead ≠ none := by
    rw [hq.head]
    simp
  refine ⟨s₁, fun n => ?_, hrest⟩
  unfold RpiKernel.schedule
  rw [if_neg hh, hrun]
  by_cases hn : zs.length < n
  · rw [if_pos hn, if_pos hn]
    rfl
  · rw [if_neg hn, if_neg hn]

/-! ## kill_zombies -/

/-- Taking a member out of the queue. -/
theorem Linked.reapThread (hl : Linked s (ys ++ t :: xs)) :
    Linked (reapThread t s) (ys ++ xs) := by
  have hnd := hl.queue.nodup
  have hmem : t ∈ ys ++ t :: xs := by simp
  have hty : t ∉ ys := fun h => (List.nodup_append.mp hnd).2.2 t h t List.mem_cons_self rfl
  have hs := IsSeg.erase (RpiKernel.reapThread t s).next (RpiKernel.reapThread t s).prev hl hmem
    (fun y _ hy => by rw [next_reapThread, if_neg hy])
    (fun y _ hy => by rw [prev_reapThread, if_neg hy])
  rw [List.erase_append_right _ hty, List.erase_cons_head] at hs
  unfold Linked
  rw [rqHead_reapThread, rqTail_reapThread]
  exact hs

/-- What a pass of `kill_zombies` over `xs` does. -/
structure Reaped (s s' : Sched) (xs : List Nat) : Prop where
  status : ∀ j, s'.status j =
    if j ∈ xs ∧ s.status j = .zombie then .free else s.status j
  curr : s'.currThread = s.currThread
  prev_other : ∀ j, j ∉ xs → s'.prev j = s.prev j

/-- The loop of `kill_zombies` from the first of `xs` on, with `ys` behind
it: the zombies among `xs` leave the queue. -/
theorem Linked.killZombiesLoop (hl : Linked s (ys ++ xs)) :
    ∃ s', (∀ n, killZombiesLoop n xs.head? s = if xs.length ≤ n then some s' else none) ∧
      Linked s' (ys ++ xs.filter fun x => s.status x ≠ .zombie) ∧ Reaped s s' xs := by
  induction xs generalizing s ys with
  | nil =>
      refine ⟨s, fun n => ?_, hl, ⟨fun j => by simp, rfl, fun _ _ => rfl⟩⟩
      cases n <;> rfl
  | cons x xs ih =>
      have hnd := hl.queue.nodup
      have hx : x ∉ xs := (List.nodup_cons.mp (List.nodup_append.mp hnd).2.1).1
      have hnext : s.next x = xs.head? := by
        obtain ⟨_, _, -, -, -, hrest⟩ := isSeg_append.mp hl
        exact hrest.visits.head_eq
      by_cases hz : s.status x = .zombie
      · have hst : ∀ j, j ≠ x → (RpiKernel.reapThread x s).status j = s.status j :=
          fun j hj => by rw [status_reapThread, if_neg hj]
        obtain ⟨s', hrun, hl', hr⟩ := ih hl.reapThread
        have hfilter : (xs.filter fun y => (RpiKernel.reapThread x s).status y ≠ .zombie) =
            (x :: xs).filter fun y => s.status y ≠ .zombie := by
          rw [List.filter_cons_of_neg (by simp [hz])]
          refine List.filter_congr fun y hy => ?_
          rw [hst y fun he => hx (he ▸ hy)]
        rw [hfilter] at hl'
        refine ⟨s', fun n => ?_, hl', ⟨fun j => ?_, by rw [hr.curr, currThread_reapThread], ?_⟩⟩
        · cases n with
          | zero => rfl
          | succ n => simp [RpiKernel.killZombiesLoop, hz, hnext, hrun]
        · rw [hr.status, status_reapThread]
          by_cases hj : j = x
          · subst hj; simp [hx, hz]
          · simp [hj]
        · intro j hj
          simp only [List.mem_cons, not_or] at hj
          rw [hr.prev_other j hj.2, prev_reapThread, if_neg hj.1, if_neg]
          intro he
          rw [hnext] at he
          exact hj.2 (List.mem_of_head? he)
      · rw [← List.singleton_append, ← List.append_assoc] at hl
        obtain ⟨s', hrun, hl', hr⟩ := ih hl
        have hfilter : ((x :: xs).filter fun y => s.status y ≠ .zombie) =
            x :: xs.filter fun y => s.status y ≠ .zombie :=
          List.filter_cons_of_pos (by simpa using hz)
        rw [List.append_assoc, List.singleton_append, ← hfilter] at hl'
        refine ⟨s', fun n => ?_, hl', ⟨fun j => ?_, hr.curr, ?_⟩⟩
        · cases n with
          | zero => rfl
          | succ n => simp [RpiKernel.killZombiesLoop, hz, hnext, hrun]
        · rw [hr.status]
          by_cases hj : j = x
          · subst hj; simp [hx, hz]
          · simp [hj]
        · intro j hj
          exact hr.prev_other j fun h => hj (List.mem_cons_of_mem x h)

/-- `kill_zombies` on a well linked queue: every queued zombie leaves the
queue and its slot becomes free. -/
theorem Linked.killZombies (hl : Linked s xs) :
    ∃ s', (∀ n, killZombies n s = if xs.length ≤ n then some s' else none) ∧
      Linked s' (xs.filter fun x => s.status x ≠ .zombie) ∧ Reaped s s' xs := by
  have hl₀ : Linked s ([] ++ xs) := hl
  obtain ⟨s', hrun, hl', hr⟩ := hl₀.killZombiesLoop
  refine ⟨s', fun n => ?_, hl', hr⟩
  unfold RpiKernel.killZombies
  rw [hl.queue.head, hrun]

/-- Without zombies the pass changes nothing, however the back links are. -/
theorem killZombiesLoop_noop {h : Option Nat} (hv : Visits s.next h xs)
    (hz : ∀ x ∈ xs, s.status x ≠ .zombie) (n : Nat) :
    killZombiesLoop n h s = if xs.length ≤ n then some s else none := by
  induction xs generalizing n h with
  | nil =>
      obtain rfl : h = none := by simpa using hv
      cases n <;> rfl
  | cons x xs ih =>
      obtain ⟨rfl, hv'⟩ := hv.cons
      cases n with
      | zero => rfl
      | succ n =>
          have hx := hz x List.mem_cons_self
          simp only [killZombiesLoop, if_neg hx]
          rw [ih hv' (fun y hy => hz y (List.mem_cons_of_mem x hy))]
          simp

theorem Queue.killZombies_noop (hq : Queue s xs) (hz : ∀ x ∈ xs, s.status x ≠ .zombie) (n : Nat) :
    killZombies n s = if xs.length ≤ n then some s else none :=
  killZombiesLoop_noop hq.visits hz n

end

end RpiKernel
