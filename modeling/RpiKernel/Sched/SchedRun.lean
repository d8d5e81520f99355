import RpiKernel.Sched.Step

/-!
# RpiKernel.Sched.SchedRun

Runs of the scheduler.

* `schedRun_queue`: no runnable thread is lost as long as no step pushes the
  current thread while it is still queued; `schedRun_fork_lost` is a run that
  loses one.
* `schedRun_reaped`: every dead thread is reaped as long as no step switches
  away from a dead thread that is not queued, and none is cut off;
  `schedRun_exit_leaks` is a run that leaks one.
-/

namespace RpiKernel

open Dlist Sched Runs

/-- The step meets the condition `S` at every call of `schedule`, and `D` at
a default-signal death. -/
def Meeting (S D : Sched → List Nat → Prop) (s : Sched) (a : Nat × SchedAct) : Prop :=
  ∃ xs, Queue s xs ∧ a.2.Meets S D s xs

theorem SchedAct.Meets.mono {S S' D D' : Sched → List Nat → Prop} {s : Sched} {xs : List Nat}
    {a : SchedAct} (hS : ∀ s xs, S s xs → S' s xs) (hD : ∀ s xs, D s xs → D' s xs)
    (h : a.Meets S D s xs) : a.Meets S' D' s xs := by
  cases a with
  | schedule => exact hS _ _ h
  | kill pid => exact fun hk => hS _ _ (h hk)
  | threadExit => exact hS _ _ h
  | signalDefault => exact hD _ _ h
  | fork => trivial
  | exit => trivial
  | killZombies => trivial

/-! ## no runnable thread is lost -/

/-- Following `next` from `RQ_head` visits `xs` and ends at `RQ_tail`, and
`prev` leads back, to `p` in front of the head; every active thread but the
current one is visited, once, and no free slot is. -/
structure RunQueueOk (s : Sched) (p : Option Nat) (xs : List Nat) : Prop where
  linked : IsSeg s.next s.prev p s.rqHead xs s.rqTail none
  nodup : xs.Nodup
  runnable : ∀ t, s.status t = .active → t ≠ s.currThread → t ∈ xs
  alive : ∀ t ∈ xs, s.status t ≠ .free

/-- A thread that dies of a signal has no runnable thread behind it in the
queue, and no dead idle thread in front of it. -/
def DeathSafe (s : Sched) (xs : List Nat) : Prop := SafeDeath False s xs ∧ DeathInFront s xs

/-- A queued thread is pushed only when it stands right behind a live idle
thread, with no runnable thread behind it. -/
def CutSafe (s : Sched) (xs : List Nat) : Prop := SafeSwitch False s xs ∧ IdleInFront s xs

theorem NoRelink.safeSwitch {s : Sched} {xs : List Nat} (h : NoRelink s xs) :
    SafeSwitch False s xs :=
  ⟨fun hf => hf.elim, fun zs t ws vs hr => absurd hr (h zs t ws vs)⟩

/-- Only the two threads made at boot are in use. -/
theorem tracks_boot (z : Prop) : Tracks z schedBoot [0, 1] := by
  have hboot : schedBoot = (pushRq 1 (((pushRq 0 ((clearThreads staticSched).setStatus 0
      .active)).setCurr 0).setStatus 1 .active)).setCurr 1 := rfl
  have hclear : ∀ x, (clearThreads staticSched).status x = .free := fun x => by
    simp [clearThreads, staticSched, Sched.status]
  intro x hx _
  rw [hboot] at hx
  simp only [status_setCurr, status_pushRq, status_setStatus, hclear] at hx
  by_cases h1 : x = 1
  · simp [h1]
  · by_cases h0 : x = 0
    · simp [h0]
    · rw [if_neg h1, if_neg h0] at hx
      simp [tracked] at hx

/-- The invariant of the runs that lose no tracked thread. -/
theorem reach_tracks {z : Prop} {s : Sched}
    (hr : Reach schedStep (Meeting (SafeSwitch z) (SafeDeath z)) schedBoot s) :
    ∃ xs, Inv s xs ∧ Tracks z s xs := by
  refine hr.inv (I := fun s => ∃ xs, Inv s xs ∧ Tracks z s xs)
    ⟨[0, 1], schedBoot_inv.1, tracks_boot z⟩ fun s a s' hI hg hs => ?_
  obtain ⟨xs, h, ht⟩ := hI
  obtain ⟨ys, hq, hm⟩ := hg
  rw [hq.unique h.queue] at hm
  obtain ⟨xs', hk⟩ := h.step hs
  exact ⟨xs', hk.inv, hk.tracks z hm ht⟩

/-- **The run queue.**  While no step pushes the current thread when it is
queued, `next` and `prev` make a list of every runnable thread.  They still
do, but for the `prev` of a head that idle will pop, when the thread pushed
stands right behind idle and in front of no runnable thread. -/
theorem schedRun_queue (s : Sched) :
    (Reach schedStep (Meeting NoRelink DeathSafe) schedBoot s → ∃ xs, RunQueueOk s none xs) ∧
    (Reach schedStep (Meeting CutSafe DeathSafe) schedBoot s →
      ∃ p xs, RunQueueOk s p xs ∧ (p = none ∨ s.currThread = 0 ∧ ∃ c, xs = [c])) := by
  have hok : ∀ s xs p, Inv s xs → Tracks False s xs →
      IsSeg s.next s.prev p s.rqHead xs s.rqTail none → RunQueueOk s p xs :=
    fun s xs p h ht hl => ⟨hl, h.queue.nodup, fun t hst => ht t (Or.inl hst), h.alive⟩
  constructor
  · intro hr
    obtain ⟨xs, h, ht, hl⟩ : ∃ xs, Inv s xs ∧ Tracks False s xs ∧ Links s xs := by
      refine hr.inv (I := fun s => ∃ xs, Inv s xs ∧ Tracks False s xs ∧ Links s xs)
        ⟨[0, 1], schedBoot_inv.1, tracks_boot _, schedBoot_inv.2⟩ fun s a s' hI hg hs => ?_
      obtain ⟨xs, h, ht, hl⟩ := hI
      obtain ⟨ys, hq, hm⟩ := hg
      rw [hq.unique h.queue] at hm
      obtain ⟨xs', hk⟩ := h.step hs
      exact ⟨xs', hk.inv,
        hk.tracks _ (hm.mono (fun _ _ h => h.safeSwitch) fun _ _ h => h.1) ht,
        hk.links (hm.mono (fun _ _ h => h) fun _ _ h => h.2) hl⟩
    exact ⟨xs, hok s xs none h ht hl.1⟩
  · intro hr
    obtain ⟨xs, h, ht, hb⟩ : ∃ xs, Inv s xs ∧ Tracks False s xs ∧ Back s xs := by
      refine hr.inv (I := fun s => ∃ xs, Inv s xs ∧ Tracks False s xs ∧ Back s xs)
        ⟨[0, 1], schedBoot_inv.1, tracks_boot _, Or.inl schedBoot_inv.2⟩ fun s a s' hI hg hs => ?_
      obtain ⟨xs, h, ht, hb⟩ := hI
      obtain ⟨ys, hq, hm⟩ := hg
      rw [hq.unique h.queue] at hm
      obtain ⟨xs', hk⟩ := h.step hs
      exact ⟨xs', hk.inv, hk.tracks _ (hm.mono (fun _ _ h => h.1) fun _ _ h => h.1) ht,
        hk.back (hm.mono (fun _ _ h => h.2) fun _ _ h => h.2) hb⟩
    cases hb with
    | inl hl => exact ⟨none, xs, hok s xs none h ht hl.1, Or.inl rfl⟩
    | inr hp =>
        obtain ⟨hc, -, c, rfl, -⟩ := hp
        have hv := h.queue.visits.cons
        refine ⟨s.prev c, [c], hok s [c] _ h ht ⟨hv.1, rfl, ?_⟩, Or.inr ⟨hc, c, rfl⟩⟩
        exact ⟨by rw [h.queue.tail]; rfl, by simpa using hv.2⟩

/-- The first tick after booting pushes thread 1 right behind idle. -/
theorem schedRun_queue_tick :
    ∃ s, s.currThread = 0 ∧ s.rqHead = some 1 ∧
      ∃ p xs, RunQueueOk s p xs ∧ (p = none ∨ s.currThread = 0 ∧ ∃ c, xs = [c]) := by
  obtain ⟨s, hs, hc, hh⟩ := schedBoot_schedule
  have h0 : schedBoot.status 0 = .active := by decide +kernel
  have hcut : CutSafe schedBoot [0, 1] := by
    refine ⟨⟨fun hf => hf.elim, fun zs t ws vs hr x hx => ?_⟩, fun hz => ?_⟩
    · have hlen := congrArg List.length hr.split
      simp only [List.length_append, List.length_cons, List.length_nil] at hlen
      have hnil : (vs ++ zs).length = 0 := by
        rw [List.length_append]
        omega
      rw [List.length_eq_zero_iff.mp hnil] at hx
      cases hx
    · rw [h0] at hz
      cases hz
  have hr : Reach schedStep (Meeting CutSafe DeathSafe) schedBoot s :=
    .step (1, .schedule) .init ⟨[0, 1], schedBoot_inv.1.queue, hcut⟩ hs
  exact ⟨s, hc, hh, (schedRun_queue s).2 hr⟩

/-- A fork before the first tick: the tick pushes thread 1, which is queued
in front of the new thread, and the new thread is lost. -/
theorem schedRun_fork_lost :
    ¬ ∀ s, Reach schedStep (fun _ _ => True) schedBoot s → ∃ p xs, RunQueueOk s p xs := by
  intro hall
  have hrun : ((run schedStep schedBoot [(1, .fork), (1, .schedule)]).any fun s =>
      decide (s.currThread = 0 ∧ s.rqHead = some 1 ∧ s.next 1 = none ∧ s.status 2 = .active))
      = true := by decide +kernel
  obtain ⟨s, hs, hfacts⟩ := (Option.any_eq_true _ _).mp hrun
  obtain ⟨hc, hh, hn, hst⟩ := of_decide_eq_true hfacts
  obtain ⟨p, xs, hok⟩ := hall s (Reach.init.run (fun _ _ _ => trivial) hs)
  have hv : Visits s.next s.rqHead [1] := ⟨s.prev, s.prev 1, some 1, hh, rfl, rfl, hn⟩
  have h2 := hok.runnable 2 hst (by simp [hc])
  rw [hok.linked.visits.unique hv] at h2
  simp at h2

/-! ## no dead thread escapes -/

/-- **Reaping.**  While no step switches away from a dead thread that is not
queued, or cuts one off, every dead thread is queued; and when idle runs,
its next pass gives every dead thread's slot back.  That its memory goes with the
slot is `Kernel.Owns.reap`. -/
theorem schedRun_reaped (s : Sched)
    (hr : Reach schedStep (Meeting (SafeSwitch True) (SafeDeath True)) schedBoot s) :
    (∃ xs, Queue s xs ∧ ∀ t, s.status t = .zombie → t ≠ s.currThread → t ∈ xs) ∧
      (s.currThread = 0 → ∃ n s', (∀ m, n ≤ m → killZombies m s = some s') ∧
        ∀ t, s.status t = .zombie → s'.status t = .free) := by
  obtain ⟨xs, h, ht⟩ := reach_tracks hr
  have hq : ∀ t, s.status t = .zombie → t ≠ s.currThread → t ∈ xs :=
    fun t hz => ht t (Or.inr ⟨trivial, hz⟩)
  refine ⟨⟨xs, h.queue, hq⟩, fun hc => ?_⟩
  obtain ⟨s', hall, -, hreap, -⟩ := h.killZombies hc
  refine ⟨xs.length, s', fun m hm => by rw [hall, if_pos hm], fun t hz => ?_⟩
  have htc : t ≠ s.currThread := fun he => h.idle_zombie (hc ▸ he ▸ hz) hc
  rw [hreap.status, if_pos ⟨hq t hz htc, hz⟩]

/-- A thread that calls `exit` before its first tick is still queued: idle
reaps it. -/
theorem schedRun_reaped_exit :
    ∃ s, s.currThread = 0 ∧ s.status 1 = .zombie ∧
      ∃ n s', killZombies n s = some s' ∧ s'.status 1 = .free := by
  have hexit : schedStep schedBoot (1, .exit) = some (exit schedBoot) := by
    unfold schedStep
    rw [if_pos (by decide +kernel)]
    rfl
  have hstep : ((schedStep (exit schedBoot) (1, .schedule)).any fun s =>
      decide (s.currThread = 0 ∧ s.status 1 = .zombie)) = true := by decide +kernel
  obtain ⟨s, hs, hfacts⟩ := (Option.any_eq_true _ _).mp hstep
  obtain ⟨hc, hz⟩ := of_decide_eq_true hfacts
  have hq : Queue (exit schedBoot) [0, 1] :=
    (schedBoot_inv.1.mark (by decide +kernel) schedBoot.currThread).queue
  have hcurr : (exit schedBoot).currThread = 1 := by decide +kernel
  have hdead : (exit schedBoot).status (exit schedBoot).currThread = .zombie := by decide +kernel
  have hsafe : SafeSwitch True (exit schedBoot) [0, 1] :=
    ⟨fun _ _ => by simp [hcurr], fun _ _ _ _ hr => absurd hdead hr.live⟩
  have hr : Reach schedStep (Meeting (SafeSwitch True) (SafeDeath True)) schedBoot s :=
    .step (1, .schedule)
      (.step (1, .exit) .init ⟨[0, 1], schedBoot_inv.1.queue, trivial⟩ hexit)
      ⟨[0, 1], hq, hsafe⟩ hs
  obtain ⟨n, s', hk, hfree⟩ := (schedRun_reaped s hr).2 hc
  exact ⟨s, hc, hz, n, s', hk n le_rfl, hfree 1 hz⟩

/-- A thread that calls `exit` after its first tick is never reaped: the
next tick takes it off the processor and does not queue it. -/
theorem schedRun_exit_leaks :
    ¬ ∀ s, Reach schedStep (fun _ _ => True) schedBoot s →
      ∃ xs, Queue s xs ∧ ∀ t, s.status t = .zombie → t ≠ s.currThread → t ∈ xs := by
  intro hall
  have hrun : ((run schedStep schedBoot [(1, .schedule), (1, .schedule), (1, .exit),
      (1, .schedule)]).any fun s =>
      decide (s.currThread = 0 ∧ s.rqHead = none ∧ s.status 1 = .zombie)) = true := by
    decide +kernel
  obtain ⟨s, hs, hfacts⟩ := (Option.any_eq_true _ _).mp hrun
  obtain ⟨hc, hh, hst⟩ := of_decide_eq_true hfacts
  obtain ⟨xs, hq, hz⟩ := hall s (Reach.init.run (fun _ _ _ => trivial) hs)
  have hnil : xs = [] := by
    have := hq.head
    rw [hh] at this
    simpa using this.symm
  have h1 := hz 1 hst (by simp [hc])
  rw [hnil] at h1
  simp at h1

end RpiKernel
