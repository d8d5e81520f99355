import RpiKernel.Sched.Step

/-!
# RpiKernel.Sched.Progress

When `schedule` returns.  Its loop puts every zombie it pops back, so it
ends only if the queue is empty or holds a runnable thread (`Runnable`).
The last runnable thread may be switched to in front of zombies, by a
thread that is dead itself; the queue then holds zombies only, and the next
tick hangs unless idle runs `kill_zombies` first.

`schedRun_terminates` says which steps leave a queue `schedule` returns on;
`schedRun_hangs` is a run after which it does not.
-/

namespace RpiKernel

open Dlist Sched Runs

/-- The loop of `schedule` ends, within some number of passes. -/
def Terminates (s : Sched) : Prop := ∃ n, (schedule n s).isSome

/-- The queue is empty or holds a thread that is not a zombie. -/
def Runnable (s : Sched) (xs : List Nat) : Prop := xs = [] ∨ ∃ x ∈ xs, s.status x ≠ .zombie

/-- A call of `schedule` returns and leaves a queue on which the next call
returns: the queue is runnable; and a dead thread leaves more than the
thread it switches to, or that thread was alone in the queue. -/
def KeepsRunnable (s : Sched) (xs : List Nat) : Prop :=
  Runnable s xs ∧ (s.status s.currThread = .zombie →
    ∀ t, (xs.filter fun x => s.status x ≠ .zombie) = [t] → xs = [t])

/-- The condition a step has to meet, in the state in which it calls
`schedule`, if it does. -/
def SchedAct.LeavesRunnable (s : Sched) (xs : List Nat) : SchedAct → Prop
  | .schedule => KeepsRunnable s xs
  | .exit => Runnable (RpiKernel.exit s) xs
  | .kill pid =>
      if killable pid s then KeepsRunnable (s.setStatus pid.toNat .zombie) xs else Runnable s xs
  | .threadExit => KeepsRunnable (s.setStatus s.currThread .zombie) xs
  | .signalDefault => KeepsRunnable (defaultDeath s) (deathQueue s xs)
  | .fork => True
  | .killZombies => True

section

variable {s s' : Sched} {xs xs' ys zs : List Nat} {t : Nat}

theorem Members.terminates_iff (h : Members s xs)
    (hb : s.currThread ∈ xs → s.status s.currThread = .zombie ∨ Boot s xs) :
    Terminates s ↔ Runnable s xs := by
  unfold Terminates
  rcases h.schedule hb with ⟨rfl, hall⟩ | ⟨hne, hz, hall⟩ | ⟨zs, t, ys, s₂, xs', rfl, hsw, hall⟩
  · simp [hall, Runnable]
  · have hnot : ¬ Runnable s xs := by
      rintro (he | ⟨x, hx, hs⟩)
      · exact hne he
      · exact hs (hz x hx)
    simp [hall, hnot]
  · constructor
    · intro _
      exact Or.inr ⟨t, by simp, hsw.runnable⟩
    · intro _
      exact ⟨zs.length + 1, by rw [hall, if_pos (by omega)]; rfl⟩

theorem Inv.terminates_iff (h : Inv s xs) : Terminates s ↔ Runnable s xs :=
  h.toMembers.terminates_iff fun hc => Or.inr (h.boot hc)

/-- The queue behind the thread switched to. -/
theorem Switch.runnable_iff (hs : Switch s s' zs t ys xs') :
    Runnable s' xs' ↔ KeepsRunnable s (zs ++ t :: ys) := by
  have hzs : (zs.filter fun x => s.status x ≠ .zombie) = [] := by
    rw [List.filter_eq_nil_iff]
    intro x hx
    simp [hs.zombies x hx]
  have hfil : ((zs ++ t :: ys).filter fun x => s.status x ≠ .zombie) =
      t :: ys.filter fun x => s.status x ≠ .zombie := by
    rw [List.filter_append, hzs, List.nil_append,
      List.filter_cons_of_pos (by simpa using hs.runnable)]
  have hrun : Runnable s (zs ++ t :: ys) := Or.inr ⟨t, by simp, hs.runnable⟩
  have hlive : s.status s.currThread ≠ .zombie → s.currThread ∈ xs' →
      (Runnable s' xs' ↔ KeepsRunnable s (zs ++ t :: ys)) := fun hc hm =>
    ⟨fun _ => ⟨hrun, fun hz => absurd hz hc⟩,
      fun _ => Or.inr ⟨s.currThread, hm, by rw [hs.status]; exact hc⟩⟩
  have hreq := hs.requeued
  cases hreq with
  | fresh hc _ => exact hlive hc (by simp)
  | cut A B hc _ _ => exact hlive hc (by simp)
  | dead hc =>
      unfold KeepsRunnable
      rw [hfil]
      constructor
      · rintro (hnil | ⟨x, hx, hxs⟩)
        · obtain ⟨rfl, rfl⟩ := List.append_eq_nil_iff.mp hnil
          exact ⟨hrun, fun _ t' ht' => by simpa using ht'⟩
        · refine ⟨hrun, fun _ t' ht' => ?_⟩
          rw [hs.status] at hxs
          have hxy : x ∈ ys := (List.mem_append.mp hx).resolve_right
            fun hz => hxs (hs.zombies x hz)
          have hmem : x ∈ ys.filter fun x => s.status x ≠ .zombie := by simp [hxy, hxs]
          rw [(List.cons_eq_cons.mp ht').2] at hmem
          cases hmem
      · rintro ⟨-, hk⟩
        by_cases hnil : (ys.filter fun x => s.status x ≠ .zombie) = []
        · have hone := hk hc t (by rw [hnil])
          have hlen := congrArg List.length hone
          refine Or.inl (List.length_eq_zero_iff.mp ?_)
          simp only [List.length_append, List.length_cons, List.length_nil] at hlen ⊢
          omega
        · obtain ⟨x, hx⟩ := List.exists_mem_of_ne_nil _ hnil
          obtain ⟨hxy, hxs⟩ := List.mem_filter.mp hx
          refine Or.inr ⟨x, List.mem_append_left _ hxy, ?_⟩
          rw [hs.status]
          simpa using hxs

/-- A call of `schedule` that keeps the queue runnable returns, and no other
one leads to a state where the next call does. -/
theorem Members.returns (h : Members s xs)
    (hb : s.currThread ∈ xs → s.status s.currThread = .zombie ∨ Boot s xs)
    (hready : s.status 0 = .zombie ∨ Ready s xs) :
    (KeepsRunnable s xs → ∃ n s', RpiKernel.schedule n s = some s') ∧
      ∀ n s', RpiKernel.schedule n s = some s' → (Terminates s' ↔ KeepsRunnable s xs) := by
  rcases h.schedule hb with ⟨rfl, hall⟩ | ⟨hne, hz, hall⟩ | ⟨zs, t, ys, s₂, xs', rfl, hsw, hall⟩
  · refine ⟨fun _ => ⟨0, s, hall 0⟩, fun n s' hn => ?_⟩
    rw [hall] at hn
    obtain rfl := Option.some.inj hn
    constructor
    · intro _
      exact ⟨Or.inl rfl, fun _ t ht => by cases ht⟩
    · intro _
      exact ⟨0, by rw [hall]; rfl⟩
  · refine ⟨fun hk => ?_, fun n s' hn => ?_⟩
    · obtain ⟨x, hx, hs⟩ := hk.1.resolve_left hne
      exact absurd (hz x hx) hs
    · rw [hall] at hn
      cases hn
  · refine ⟨fun _ => ⟨zs.length + 1, s₂, by rw [hall, if_pos (by omega)]⟩, fun n s' hn => ?_⟩
    rw [hall] at hn
    split at hn
    · rw [← Option.some.inj hn, ← hsw.runnable_iff, (hsw.inv h hb hready).terminates_iff]
    · cases hn

/-- A step that meets its condition returns, and no other one leads to a
state where `schedule` does. -/
theorem Inv.returns {a : SchedAct} (h : Inv s xs) (hen : a.Enabled s) (hf : a ≠ .fork) :
    (a.LeavesRunnable s xs → ∃ n s', schedStep s (n, a) = some s') ∧
      ∀ n s', schedStep s (n, a) = some s' → (Terminates s' ↔ a.LeavesRunnable s xs) := by
  have hstep : ∀ n, schedStep s (n, a) = a.perform n s := fun n => if_pos hen
  simp only [hstep]
  cases a with
  | schedule => exact h.toMembers.returns (fun hc => Or.inr (h.boot hc)) h.ready
  | fork => exact absurd rfl hf
  | exit =>
      have hm := h.mark hen s.currThread
      refine ⟨fun _ => ⟨0, _, rfl⟩, fun n s' hs => ?_⟩
      rw [← Option.some.inj hs]
      exact hm.terminates_iff
  | kill pid =>
      simp only [SchedAct.perform, RpiKernel.kill, SchedAct.LeavesRunnable]
      by_cases hk : killable pid s
      · have hm := h.mark hen pid.toNat
        simp only [if_pos hk]
        exact hm.toMembers.returns (fun hc => Or.inr (hm.boot hc)) hm.ready
      · simp only [if_neg hk]
        refine ⟨fun _ => ⟨0, s, rfl⟩, fun n s' hs => ?_⟩
        rw [← Option.some.inj hs]
        exact h.terminates_iff
  | threadExit =>
      have hm := h.mark hen s.currThread
      exact hm.toMembers.returns (fun hc => Or.inr (hm.boot hc)) hm.ready
  | signalDefault =>
      exact (h.defaultDeath hen).returns (fun _ => Or.inl defaultDeath_dead)
        (h.defaultDeath_ready hen)
  | killZombies =>
      obtain ⟨s₂, hall, hinv, hr, -⟩ := h.killZombies hen
      refine ⟨fun _ => ⟨xs.length, s₂, by rw [SchedAct.perform, hall, if_pos le_rfl]⟩,
        fun n s' hs => ?_⟩
      rw [SchedAct.perform, hall] at hs
      split at hs
      · rw [← Option.some.inj hs, hinv.terminates_iff]
        refine ⟨fun _ => trivial, fun _ => ?_⟩
        -- no zombie is left in the queue
        by_cases hnil : (xs.filter fun x => s.status x ≠ .zombie) = []
        · exact Or.inl hnil
        · obtain ⟨x, hx⟩ := List.exists_mem_of_ne_nil _ hnil
          have hxs := (List.mem_filter.mp hx).2
          refine Or.inr ⟨x, hx, ?_⟩
          rw [hr.status, if_neg (by simpa using fun _ => hxs)]
          simpa using hxs
      · cases hs

end

/-- The step leaves a queue `schedule` returns on. -/
def Leaving (s : Sched) (a : Nat × SchedAct) : Prop := ∃ xs, Queue s xs ∧ a.2.LeavesRunnable s xs

/-- Every reached state has a run queue in order. -/
theorem reach_inv {good : Sched → Nat × SchedAct → Prop} {s : Sched}
    (hr : Reach schedStep good schedBoot s) : ∃ xs, Inv s xs := by
  refine hr.inv (I := fun s => ∃ xs, Inv s xs) ⟨[0, 1], schedBoot_inv.1⟩ fun s a s' hI _ hs => ?_
  obtain ⟨xs, h⟩ := hI
  obtain ⟨xs', hk⟩ := h.step hs
  exact ⟨xs', hk.inv⟩

/-- **Termination of `schedule`.**  In a run whose steps meet the condition
the queue is always empty or holds a runnable thread, `schedule` returns,
and so does every further step that meets it.  In any reached state a step
that does not meet it hangs, or leads to a state in which `schedule`
hangs. -/
theorem schedRun_terminates (s : Sched) :
    (Reach schedStep Leaving schedBoot s →
      (∃ xs, Queue s xs ∧ Runnable s xs) ∧ Terminates s ∧
        ∀ a, a.Enabled s → a ≠ .fork → Leaving s (0, a) → ∃ n s', schedStep s (n, a) = some s') ∧
    (Reach schedStep (fun _ _ => True) schedBoot s → ∀ a, a.Enabled s → a ≠ .fork →
      ((∃ n s', schedStep s (n, a) = some s' ∧ Terminates s') ↔ Leaving s (0, a))) := by
  constructor
  · intro hr
    obtain ⟨xs, h, hrun⟩ : ∃ xs, Inv s xs ∧ Runnable s xs := by
      refine hr.inv (I := fun s => ∃ xs, Inv s xs ∧ Runnable s xs)
        ⟨[0, 1], schedBoot_inv.1, Or.inr ⟨0, by simp, by decide +kernel⟩⟩
        fun s a s' hI hg hs => ?_
      obtain ⟨xs, h, -⟩ := hI
      obtain ⟨ys, hq, hm⟩ := hg
      rw [hq.unique h.queue] at hm
      obtain ⟨n, a⟩ := a
      have hen : a.Enabled s := by
        by_contra hne
        rw [schedStep, if_neg hne] at hs
        cases hs
      by_cases hf : a = .fork
      · subst hf
        have hs' : RpiKernel.fork s = some s' := by rwa [schedStep, if_pos hen] at hs
        obtain ⟨th, -, hinv, -, hst, -⟩ := h.fork hen hs'
        exact ⟨xs ++ [th], hinv, Or.inr ⟨th, by simp, by simp [hst]⟩⟩
      · obtain ⟨xs', hk⟩ := h.step hs
        exact ⟨xs', hk.inv, hk.inv.terminates_iff.mp (((h.returns hen hf).2 n s' hs).mpr hm)⟩
    refine ⟨⟨xs, h.queue, hrun⟩, h.terminates_iff.mpr hrun, fun a hen hf hl => ?_⟩
    obtain ⟨ys, hq, hm⟩ := hl
    rw [hq.unique h.queue] at hm
    exact (h.returns hen hf).1 hm
  · intro hr a hen hf
    obtain ⟨xs, h⟩ := reach_inv hr
    obtain ⟨hret, hiff⟩ := h.returns hen hf
    constructor
    · rintro ⟨n, s', hs, ht⟩
      exact ⟨xs, h.queue, (hiff n s' hs).mp ht⟩
    · rintro ⟨ys, hq, hm⟩
      rw [hq.unique h.queue] at hm
      obtain ⟨n, s', hs⟩ := hret hm
      exact ⟨n, s', hs, (hiff n s' hs).mpr hm⟩

/-- The first tick after booting. -/
theorem schedRun_terminates_tick : ∃ s, s.currThread = 0 ∧ s.rqHead = some 1 ∧ Terminates s := by
  obtain ⟨s, hs, hc, hh⟩ := schedBoot_schedule
  have hlive : schedBoot.status schedBoot.currThread ≠ .zombie := by decide +kernel
  have hk : KeepsRunnable schedBoot [0, 1] :=
    ⟨Or.inr ⟨0, by simp, by decide +kernel⟩, fun hz => absurd hz hlive⟩
  have hr : Reach schedStep Leaving schedBoot s :=
    .step (1, .schedule) .init ⟨[0, 1], schedBoot_inv.1.queue, hk⟩ hs
  exact ⟨s, hc, hh, ((schedRun_terminates s).1 hr).2.1⟩

/-- The last user thread dies of a signal, idle is switched to, and a tick
comes before idle has run `kill_zombies`: `schedule` never returns. -/
theorem schedRun_hangs :
    ¬ ∀ s, Reach schedStep (fun _ _ => True) schedBoot s → Terminates s := by
  intro hall
  have hrun : ((run schedStep schedBoot [(1, .schedule), (1, .schedule),
      (1, .signalDefault)]).any fun s =>
      decide (s.rqHead = some 1 ∧ s.next 1 = none ∧ s.status 1 = .zombie)) = true := by
    decide +kernel
  obtain ⟨s, hs, hfacts⟩ := (Option.any_eq_true _ _).mp hrun
  obtain ⟨hh, hn, hz⟩ := of_decide_eq_true hfacts
  have hr : Reach schedStep (fun _ _ => True) schedBoot s :=
    Reach.init.run (fun _ _ _ => trivial) hs
  obtain ⟨xs, h⟩ := reach_inv hr
  have hv : Visits s.next s.rqHead [1] := ⟨s.prev, s.prev 1, some 1, hh, rfl, rfl, hn⟩
  obtain rfl := h.queue.visits.unique hv
  cases h.terminates_iff.mp (hall s hr) with
  | inl he => cases he
  | inr hx =>
      obtain ⟨x, hx, hxs⟩ := hx
      rw [List.mem_singleton.mp hx] at hxs
      exact hxs hz

end RpiKernel
