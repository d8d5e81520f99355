import RpiKernel.Sched.Progress

/-!
# RpiKernel.Sched.Fairness

How long a runnable thread waits.  While the current thread is not queued, which it is at boot only, the
place of a thread in the queue never goes up: `fork` appends, `kill_zombies` takes away, and every call of
`schedule` takes away at least one thread that stands in front of it (`Place.step`).  So a thread with `k`
others in front of it runs within `k + 1` calls of `schedule`, whoever forks, exits, is killed or dies of a
signal in between (`schedRun_waits`).
-/

namespace RpiKernel

open Sched Runs

/-- The step calls `schedule`. -/
def callsSchedule (s : Sched) (a : Nat × SchedAct) : Bool :=
  match a.2 with
  | .schedule | .threadExit | .signalDefault => true
  | .kill pid => decide (killable pid s)
  | .fork | .exit | .killZombies => false

/-- `th` waits behind `k` threads, and the current thread is not queued. -/
def Place (th k : Nat) (s : Sched) : Prop :=
  ∃ xs, Inv s xs ∧ s.currThread ∉ xs ∧ s.status th ≠ .zombie ∧ th ∈ xs ∧ xs.idxOf th = k

section

variable {s s' : Sched} {xs xs' ys zs : List Nat} {t th : Nat}

/-! ## places -/

theorem idxOf_behind (hz : th ∉ zs) (ht : th ≠ t) (hy : th ∈ ys) (ws : List Nat) :
    (ys ++ ws).idxOf th < (zs ++ t :: ys).idxOf th := by
  rw [List.idxOf_append_of_mem hy, List.idxOf_append_of_notMem hz, List.idxOf_cons_ne _ (Ne.symm ht)]
  omega

theorem idxOf_filter_le {p : Nat → Bool} (hp : p th = true) : (xs.filter p).idxOf th ≤ xs.idxOf th := by
  induction xs with
  | nil => simp
  | cons x xs ih =>
      by_cases hx : x = th
      · subst hx
        simp [hp]
      · rw [List.idxOf_cons_ne _ hx, List.filter_cons]
        split
        · rw [List.idxOf_cons_ne _ hx]
          omega
        · omega

/-- A switch away from a thread that is dead or not queued: what was in front of the first runnable
thread goes behind the rest. -/
theorem Switch.behind (hs : Switch s s' zs t ys xs')
    (hc : s.status s.currThread = .zombie ∨ s.currThread ∉ zs ++ t :: ys) : ∃ ws, xs' = ys ++ ws := by
  cases hs.requeued with
  | dead => exact ⟨zs, rfl⟩
  | fresh => exact ⟨zs ++ [s.currThread], List.append_assoc _ _ _⟩
  | cut A B hlive hys _ =>
      have hnot := hc.resolve_left hlive
      rw [hys] at hnot
      simp at hnot

/-- The thread switched to is not queued. -/
theorem Switch.away (hs : Switch s s' zs t ys xs') (h : Members s (zs ++ t :: ys))
    (hc : s.status s.currThread = .zombie ∨ s.currThread ∉ zs ++ t :: ys) : s'.currThread ∉ xs' := by
  rw [hs.curr]
  intro hm
  rcases hs.requeued.mem_of_mem hm with hm | rfl
  · exact h.target_notMem hm
  · rcases hc with hz | hnot
    · exact hs.runnable hz
    · simp at hnot

/-! ## one step -/

/-- A call of `schedule`. -/
theorem Members.place {n : Nat} (h : Members s xs)
    (hb : s.currThread ∈ xs → s.status s.currThread = .zombie ∨ Boot s xs)
    (hready : s.status 0 = .zombie ∨ Ready s xs)
    (hc : s.status s.currThread = .zombie ∨ s.currThread ∉ xs)
    (hlive : s.status th ≠ .zombie) (hth : th ∈ xs) (hrun : RpiKernel.schedule n s = some s') :
    s'.currThread = th ∨ ∃ k', Place th k' s' ∧ k' + 1 ≤ xs.idxOf th := by
  rcases h.schedule hb with ⟨rfl, -⟩ | ⟨-, hz, -⟩ | ⟨zs, t, ys, s₂, xs', rfl, hsw, hall⟩
  · contradiction
  · exact absurd (hz th hth) hlive
  · rw [hall] at hrun
    obtain rfl : s₂ = s' := by
      split at hrun
      · exact Option.some.inj hrun
      · cases hrun
    by_cases ht : t = th
    · exact .inl (hsw.curr.trans ht)
    have hz : th ∉ zs := fun hm => hlive (hsw.zombies th hm)
    have hy : th ∈ ys := by
      simp only [List.mem_append, List.mem_cons] at hth
      exact (hth.resolve_left hz).resolve_left (Ne.symm ht)
    obtain ⟨ws, rfl⟩ := hsw.behind hc
    exact .inr ⟨_, ⟨ys ++ ws, hsw.inv h hb hready, hsw.away h hc, by rwa [hsw.status],
      List.mem_append_left _ hy, rfl⟩, idxOf_behind hz (Ne.symm ht) hy ws⟩

/-- Every step lets `th` wait where it is or further in front, and every call of `schedule` further in front. -/
theorem Place.step {k : Nat} {a : Nat × SchedAct} (h : Place th k s) (ha : a.2 ≠ .kill th)
    (hs : schedStep s a = some s') :
    s'.currThread = th ∨ ∃ k', Place th k' s' ∧ k' + (callsSchedule s a).toNat ≤ k := by
  obtain ⟨n, a⟩ := a
  obtain ⟨xs, hinv, hc, hlive, hth, rfl⟩ := h
  have hboot : s.currThread ∈ xs → s.status s.currThread = .zombie ∨ Boot s xs := fun hm => absurd hm hc
  have hthc : th ≠ s.currThread := fun he => hc (he ▸ hth)
  unfold schedStep at hs
  dsimp only at hs ha
  by_cases hen : a.Enabled s
  swap
  · rw [if_neg hen] at hs
    cases hs
  rw [if_pos hen] at hs
  have hmark : ∀ c ≠ th, (s.setStatus c .zombie).status th ≠ .zombie := fun c hct => by
    rwa [status_setStatus, if_neg (Ne.symm hct)]
  cases a with
  | schedule => exact hinv.toMembers.place hboot hinv.ready (.inr hc) hlive hth hs
  | fork =>
      obtain ⟨c, hfree, hinv', hcurr, hst, -⟩ := hinv.fork hen hs
      have hcc : s.currThread ≠ c := fun he => hinv.curr_alive (he ▸ hfree)
      have htc : th ≠ c := fun he => hinv.alive th hth (he ▸ hfree)
      refine .inr ⟨_, ⟨xs ++ [c], hinv', ?_, ?_, List.mem_append_left _ hth, rfl⟩, ?_⟩
      · rw [hcurr]
        simp [hc, hcc]
      · rwa [hst, if_neg htc]
      · rw [List.idxOf_append_of_mem hth]
        exact Nat.le_refl _
  | exit =>
      obtain rfl := Option.some.inj hs
      exact .inr ⟨_, ⟨xs, hinv.mark hen _, hc, hmark _ (Ne.symm hthc), hth, rfl⟩, Nat.le_refl _⟩
  | kill pid =>
      simp only [SchedAct.perform, RpiKernel.kill] at hs
      by_cases hk : killable pid s
      · rw [if_pos hk] at hs
        have hm := hinv.mark hen pid.toNat
        have hne : pid.toNat ≠ th := fun he => by
          have hpos : ¬ pid < 0 := fun hneg => hk (.inr (.inl hneg))
          exact ha (by rw [show pid = (th : Int) by omega])
        have hcount : callsSchedule s (n, .kill pid) = true := decide_eq_true hk
        rw [hcount]
        exact hm.toMembers.place (fun hq => absurd hq hc) hm.ready (.inr hc) (hmark _ hne) hth hs
      · rw [if_neg hk] at hs
        obtain rfl := Option.some.inj hs
        have hcount : callsSchedule s (n, .kill pid) = false := decide_eq_false hk
        rw [hcount]
        exact .inr ⟨_, ⟨xs, hinv, hc, hlive, hth, rfl⟩, Nat.le_refl _⟩
  | threadExit =>
      have hm := hinv.mark hen s.currThread
      exact hm.toMembers.place (fun hq => absurd hq hc) hm.ready (.inr hc) (hmark _ (Ne.symm hthc)) hth hs
  | signalDefault =>
      have hstatus : (defaultDeath s).status th ≠ .zombie := by
        rwa [status_defaultDeath, if_neg hthc]
      have hidx : (deathQueue s xs).idxOf th = xs.idxOf th := by
        rw [deathQueue_new hc, List.idxOf_append_of_mem hth]
      have hth' : th ∈ deathQueue s xs := by
        rw [deathQueue_new hc]
        exact List.mem_append_left _ hth
      rw [← hidx]
      exact (hinv.defaultDeath hen).place (fun _ => .inl defaultDeath_dead) (hinv.defaultDeath_ready hen)
        (.inl defaultDeath_dead) hstatus hth' hs
  | killZombies =>
      obtain ⟨s₂, hall, hinv', hr, -, -⟩ := hinv.killZombies hen
      have hs' : (if xs.length ≤ n then some s₂ else none) = some s' := hall n ▸ hs
      obtain rfl : s₂ = s' := by
        split at hs'
        · exact Option.some.inj hs'
        · cases hs'
      have hkept : decide (s.status th ≠ .zombie) = true := decide_eq_true hlive
      refine .inr ⟨_, ⟨_, hinv', ?_, ?_, List.mem_filter.mpr ⟨hth, hkept⟩, rfl⟩, idxOf_filter_le hkept⟩
      · rw [hr.curr]
        exact fun hm => hc (List.mem_filter.mp hm).1
      · rwa [hr.status, if_neg (fun hz => hlive hz.2)]

end

/-! ## waiting -/

/-- **Bounded waiting.**  In every reached state in which the current thread is not queued, a runnable
thread behind `k` others in the queue is switched to within `k + 1` calls of `schedule`, whatever the
threads do, as long as none of them kills it. -/
theorem schedRun_waits {s s' : Sched} {xs : List Nat} {th : Nat} {as : List (Nat × SchedAct)}
    (hr : Reach schedStep (fun _ _ => True) schedBoot s) (hq : Queue s xs) (haway : s.currThread ∉ xs)
    (hth : th ∈ xs) (hlive : s.status th = .active) (hkill : ∀ a ∈ as, a.2 ≠ .kill th)
    (hrun : run schedStep s as = some s') (hcalls : xs.idxOf th < count schedStep callsSchedule s as) :
    ∃ as₁ as₂ s₁, as = as₁ ++ as₂ ∧ run schedStep s as₁ = some s₁ ∧ s₁.currThread = th := by
  obtain ⟨ys, hinv⟩ := reach_inv hr
  obtain rfl := hq.unique hinv.queue
  have hplace : Place th (xs.idxOf th) s := ⟨xs, hinv, haway, by simp [hlive], hth, rfl⟩
  exact exists_of_count (fun k s a s' hk ha hs => hk.step ha hs) hkill hrun hplace hcalls

/-- The first thread forks when it runs again: its child waits behind idle. -/
theorem schedRun_waits_child : ∃ s as₁ as₂ s₁,
    run schedStep schedBoot [(1, .schedule), (1, .schedule), (1, .fork)] = some s ∧ s.currThread = 1 ∧
    [(1, SchedAct.schedule), (1, SchedAct.schedule)] = as₁ ++ as₂ ∧ run schedStep s as₁ = some s₁ ∧
    s₁.currThread = 2 := by
  have hfork : ((run schedStep schedBoot [(1, .schedule), (1, .schedule), (1, .fork)]).any fun s =>
      decide (s.currThread = 1 ∧ s.rqHead = some 0 ∧ s.next 0 = some 2 ∧ s.next 2 = none ∧ s.status 2 = .active ∧
        (run schedStep s [(1, .schedule), (1, .schedule)]).isSome ∧
        count schedStep callsSchedule s [(1, .schedule), (1, .schedule)] = 2)) = true := by decide +kernel
  obtain ⟨s, hs, hfacts⟩ := (Option.any_eq_true _ _).mp hfork
  obtain ⟨hc, hh, hn, hn', hlive, hsome, hcount⟩ := of_decide_eq_true hfacts
  obtain ⟨s', hrun⟩ := Option.isSome_iff_exists.mp hsome
  have hr : Reach schedStep (fun _ _ => True) schedBoot s := .run .init (fun _ _ _ => trivial) hs
  obtain ⟨xs, h⟩ := reach_inv hr
  have hv : Dlist.Visits s.next s.rqHead [0, 2] :=
    ⟨fun x => if x = 2 then some 0 else none, none, some 2, hh, rfl, hn, rfl, rfl, hn'⟩
  obtain rfl := h.queue.visits.unique hv
  obtain ⟨as₁, as₂, s₁, happ, hrun₁, hcurr⟩ := schedRun_waits hr h.queue (by simp [hc])
    (List.mem_cons_of_mem _ List.mem_cons_self) hlive (by simp) hrun (by rw [hcount]; decide)
  exact ⟨s, as₁, as₂, s₁, hs, hc, happ, hrun₁, hcurr⟩

end RpiKernel
