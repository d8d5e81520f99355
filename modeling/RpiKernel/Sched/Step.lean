import RpiKernel.Lib.Runs
import RpiKernel.Sched.Lifecycle

/-!
# RpiKernel.Sched.Step

The steps of the scheduler, from `init_thread_sched` and `thread_exec` on: a
timer tick, a fork, one of the ways to die, or a pass of `kill_zombies`.

A step may lose a thread at two places: where `schedule` pushes the current
thread while it is still queued (`Relinks`), and where it does not push a
dead one that is not queued.  `Inv.step` says what a step keeps, with the
conditions under which it loses nothing.
-/

namespace RpiKernel

open Dlist Sched Runs

/-! ## steps -/

/-- A step of the scheduler: a timer tick, a system call or fault of the
current thread, or the idle thread's `kill_zombies`. -/
inductive SchedAct where
  | schedule
  | fork
  | exit
  | kill (pid : Int)
  | threadExit
  | signalDefault
  | killZombies

/-- Who takes the step: ticks come at any time, `kill_zombies` is called by
`idle` alone, the rest are exceptions taken from a user thread. -/
def SchedAct.Enabled (s : Sched) : SchedAct → Prop
  | .schedule => True
  | .killZombies => s.currThread = 0
  | _ => s.currThread ≠ 0

instance (s : Sched) (a : SchedAct) : Decidable (a.Enabled s) := by
  cases a <;> unfold SchedAct.Enabled <;> infer_instance

/-- The step; its loops may make `n` passes. -/
def SchedAct.perform (n : Nat) (s : Sched) : SchedAct → Option Sched
  | .schedule => RpiKernel.schedule n s
  | .fork => RpiKernel.fork s
  | .exit => some (RpiKernel.exit s)
  | .kill pid => RpiKernel.kill n pid s
  | .threadExit => RpiKernel.threadExit n s
  | .signalDefault => signalDefaultHandler n s
  | .killZombies => RpiKernel.killZombies n s

/-- An enabled step that returns within its passes. -/
def schedStep (s : Sched) (a : Nat × SchedAct) : Option Sched :=
  if a.2.Enabled s then a.2.perform a.1 s else none

/-- The static variables before `init_thread_sched`. -/
def staticSched : Sched := ⟨fun _ => ⟨.free, none, none⟩, none, none, 0⟩

/-- `init_thread_sched`, then `thread_exec`. -/
def schedBoot : Sched := ((initThreadSched staticSched).bind threadExec).get (by decide)

theorem schedBoot_eq : (initThreadSched staticSched).bind threadExec = some schedBoot :=
  (Option.some_get _).symm

/-- After booting thread 1 is current, and queued behind idle. -/
theorem schedBoot_inv : Inv schedBoot [0, 1] ∧ Links schedBoot [0, 1] := by
  have h : schedBoot.rqHead = some 0 ∧ schedBoot.rqTail = some 1 ∧ schedBoot.currThread = 1 ∧
      schedBoot.threads 0 = ⟨.active, none, some 1⟩ ∧
      schedBoot.threads 1 = ⟨.active, some 0, none⟩ := by decide +kernel
  obtain ⟨hh, ht, hc, h0, h1⟩ := h
  have hl : Linked schedBoot [0, 1] := by
    simp [Linked, Sched.next, Sched.prev, hh, ht, h0, h1]
  have hlinks : Links schedBoot [0, 1] := ⟨hl, by simp [hc]⟩
  refine ⟨⟨⟨hl.queue, ?_, ?_, ?_, ?_, ?_⟩, fun _ => ⟨[], [], by simp [hc], fun _ => rfl⟩,
    Or.inr (Or.inl hlinks)⟩, hlinks⟩
  · simp [Sched.status, h0, h1]
  · simp [Sched.status, hc, h1]
  · simp [Sched.status, h0]
  · simp [hc]
  · simp [hc]

/-- The first tick switches to idle. -/
theorem schedBoot_schedule : ∃ s, schedStep schedBoot (1, .schedule) = some s ∧ s.currThread = 0 ∧
    s.rqHead = some 1 := by
  have hstep : ((schedStep schedBoot (1, .schedule)).any fun s =>
      decide (s.currThread = 0 ∧ s.rqHead = some 1)) = true := by decide +kernel
  obtain ⟨s, hs, hfacts⟩ := (Option.any_eq_true _ _).mp hstep
  exact ⟨s, hs, of_decide_eq_true hfacts⟩

/-! ## the threads a step loses -/

/-- The threads a property is about: the runnable ones, and the dead ones
too when `z` is set. -/
def tracked (z : Prop) (st : ThreadStatus) : Prop := st = .active ∨ z ∧ st = .zombie

/-- Every tracked thread but the current one is queued. -/
def Tracks (z : Prop) (s : Sched) (xs : List Nat) : Prop :=
  ∀ x, tracked z (s.status x) → x ≠ s.currThread → x ∈ xs

/-- The next switch pushes the current thread, which is queued between `ws`
and `vs`: the queue is cut behind it. -/
structure Relinks (s : Sched) (xs zs : List Nat) (t : Nat) (ws vs : List Nat) : Prop where
  split : xs = zs ++ t :: (ws ++ s.currThread :: vs)
  live : s.status s.currThread ≠ .zombie
  zombies : ∀ z ∈ zs, s.status z = .zombie
  runnable : s.status t ≠ .zombie

/-- A call of `schedule` loses no tracked thread: a tracked outgoing thread
that is dead is queued, and none is behind the place where the queue is
cut. -/
def SafeSwitch (z : Prop) (s : Sched) (xs : List Nat) : Prop :=
  (z → s.status s.currThread = .zombie → s.currThread ∈ xs) ∧
    ∀ zs t ws vs, Relinks s xs zs t ws vs → ∀ x ∈ vs ++ zs, ¬ tracked z (s.status x)

/-- Nor does `signal_default_handler`: no tracked thread is queued behind
the dying one. -/
def SafeDeath (z : Prop) (s : Sched) (xs : List Nat) : Prop :=
  ∀ ys zs, xs = ys ++ s.currThread :: zs → ∀ x ∈ zs, ¬ tracked z (s.status x)

/-- The condition `S` on every call of `schedule`, in the state it is called
in, and `D` on the default-signal death. -/
def SchedAct.Meets (S D : Sched → List Nat → Prop) (s : Sched) (xs : List Nat) :
    SchedAct → Prop
  | .schedule => S s xs
  | .kill pid => killable pid s → S (s.setStatus pid.toNat .zombie) xs
  | .threadExit => S (s.setStatus s.currThread .zombie) xs
  | .signalDefault => D s xs
  | _ => True

section

variable {s s' : Sched} {xs xs' ys zs : List Nat} {t : Nat} {z : Prop}

theorem Switch.tracks (hs : Switch s s' zs t ys xs') (hsafe : SafeSwitch z s (zs ++ t :: ys))
    (ht : Tracks z s (zs ++ t :: ys)) : Tracks z s' xs' := by
  intro x hx hxt
  rw [hs.curr] at hxt
  rw [hs.status] at hx
  have hrest : x ≠ s.currThread → x ∈ ys ++ zs := fun hxc => by
    have hm := ht x hx hxc
    simp only [List.mem_append, List.mem_cons] at hm ⊢
    tauto
  have hreq := hs.requeued
  cases hreq with
  | dead hz =>
      by_cases hxc : x = s.currThread
      · subst hxc
        have hzt : z := by
          rw [hz] at hx
          simpa [tracked] using hx
        have hm := hsafe.1 hzt hz
        simp only [List.mem_append, List.mem_cons] at hm ⊢
        tauto
      · exact hrest hxc
  | fresh =>
      by_cases hxc : x = s.currThread
      · simp [hxc]
      · exact List.mem_append_left _ (hrest hxc)
  | cut A B hlive hys _ =>
      by_cases hxc : x = s.currThread
      · simp [hxc]
      · have hm := hrest hxc
        have hlost := hsafe.2 zs t A B ⟨by rw [hys], hlive, hs.zombies, hs.runnable⟩ x
        rw [hys] at hm
        simp only [List.mem_append, List.mem_cons] at hm hlost ⊢
        tauto

/-! ## one step -/

/-- No switch pushes a thread that is queued. -/
def NoRelink (s : Sched) (xs : List Nat) : Prop := ∀ zs t ws vs, ¬ Relinks s xs zs t ws vs

/-- A switch that pushes a queued thread finds idle alive, and so in front
of that thread. -/
def IdleInFront (s : Sched) (xs : List Nat) : Prop := s.status 0 = .zombie → NoRelink s xs

/-- A queued thread does not die behind a dead idle thread. -/
def DeathInFront (s : Sched) (xs : List Nat) : Prop :=
  s.currThread ∈ xs → s.status 0 ≠ .zombie

/-- The back links `schedule` needs. -/
def Ready (s : Sched) (xs : List Nat) : Prop :=
  TailLinked s xs ∧ (s.currThread ∉ xs → s.prev s.currThread = none)

theorem Back.ready (hb : Back s xs) (hq : Queue s xs) : Ready s xs :=
  ⟨hb.tailLinked hq, hb.prev_curr⟩

theorem Links.ready (hl : Links s xs) : Ready s xs := ⟨hl.1.tailLinked, hl.2⟩

theorem Inv.ready (h : Inv s xs) : s.status 0 = .zombie ∨ Ready s xs :=
  h.back.imp_right fun hb => hb.ready h.queue

/-- The thread that dies of a signal is dead, and queued, when `schedule` is
called. -/
theorem defaultDeath_dead : (defaultDeath s).status (defaultDeath s).currThread = .zombie := by
  simp

theorem defaultDeath_queued (xs : List Nat) : (defaultDeath s).currThread ∈ deathQueue s xs := by
  simp [deathQueue]

theorem Inv.ready_defaultDeath (h : Inv s xs) (hu : s.currThread ≠ 0) (hd : DeathInFront s xs)
    (hb : Back s xs) : Ready (RpiKernel.defaultDeath s) (deathQueue s xs) :=
  ⟨h.defaultDeath_tailLinked hu hb hd, fun hn => absurd (defaultDeath_queued xs) hn⟩

theorem Inv.defaultDeath_ready (h : Inv s xs) (hu : s.currThread ≠ 0) :
    (RpiKernel.defaultDeath s).status 0 = .zombie ∨
      Ready (RpiKernel.defaultDeath s) (deathQueue s xs) := by
  by_cases h0 : s.status 0 = .zombie
  · exact Or.inl (by simp [h0])
  · exact Or.inr (h.ready_defaultDeath hu (fun _ => h0) (h.back.resolve_left h0))

/-- A dead thread is not pushed. -/
theorem noRelink_of_zombie (hc : s.status s.currThread = .zombie) : NoRelink s xs :=
  fun _ _ _ _ hr => hr.live hc

/-- A call of `schedule` that returns. -/
theorem Members.step {n : Nat} (h : Members s xs)
    (hb : s.currThread ∈ xs → s.status s.currThread = .zombie ∨ Boot s xs)
    (hready : s.status 0 = .zombie ∨ Ready s xs) (hrun : RpiKernel.schedule n s = some s') :
    ∃ xs', Inv s' xs' ∧ (∀ z, SafeSwitch z s xs → Tracks z s xs → Tracks z s' xs') ∧
      (NoRelink s xs → Ready s xs → Links s' xs') ∧
      (IdleInFront s xs → Ready s xs → Back s' xs') := by
  rcases h.schedule hb with ⟨rfl, hall⟩ | ⟨-, -, hall⟩ | ⟨zs, t, ys, s₂, xs', rfl, hsw, hall⟩
  · -- an empty queue: nothing happens
    rw [hall] at hrun
    obtain rfl := Option.some.inj hrun
    have hlinks : Ready s [] → Links s [] := fun hr => ⟨h.queue.linked_nil, hr.2⟩
    exact ⟨[], ⟨h, by simp, hready.imp_right fun hr => Or.inl (hlinks hr)⟩,
      fun _ _ ht => ht, fun _ hr => hlinks hr, fun _ hr => Or.inl (hlinks hr)⟩
  · rw [hall] at hrun
    cases hrun
  · rw [hall] at hrun
    obtain rfl : s₂ = s' := by
      split at hrun
      · exact Option.some.inj hrun
      · cases hrun
    have hrelink : NoRelink s (zs ++ t :: ys) →
        s.status s.currThread = .zombie ∨ s.currThread ∉ ys := fun hn => by
      by_contra hc
      rw [not_or, not_not] at hc
      obtain ⟨ws, vs, rfl⟩ := List.append_of_mem hc.2
      exact hn zs t ws vs ⟨rfl, hc.1, hsw.zombies, hsw.runnable⟩
    refine ⟨xs', hsw.inv h hb hready, fun z hsafe ht => hsw.tracks hsafe ht,
      fun hn hr => hsw.links hr.1 hr.2 (hrelink hn), fun hi hr => ?_⟩
    by_cases hc : s.status s.currThread = .zombie ∨ s.currThread ∉ ys
    · exact Or.inl (hsw.links hr.1 hr.2 hc)
    · refine hsw.back (fun hz => hc (Or.inl hz)) (by_contra fun hn => hc (Or.inr hn)) fun h0 => ?_
      exact hc (hrelink (hi h0))

theorem Tracks.mark (ht : Tracks z s xs) {c : Nat} (hc : s.status c ≠ .free) :
    Tracks z (s.setStatus c .zombie) xs := by
  intro x hx hxc
  refine ht x ?_ hxc
  rw [status_setStatus] at hx
  by_cases he : x = c
  · subst he
    unfold tracked at hx ⊢
    cases hst : s.status x <;> simp_all
  · rwa [if_neg he] at hx

theorem Tracks.defaultDeath (ht : Tracks z s xs) (hsafe : SafeDeath z s xs)
    (hnd : xs.Nodup) : Tracks z (defaultDeath s) (deathQueue s xs) := by
  intro x hx hxc
  rw [currThread_defaultDeath] at hxc
  rw [status_defaultDeath, if_neg hxc] at hx
  have hm := ht x hx hxc
  by_cases hc : s.currThread ∈ xs
  · obtain ⟨ys, zs, rfl⟩ := List.append_of_mem hc
    have hlost := hsafe ys zs rfl x
    rw [deathQueue_queued hnd]
    simp only [List.mem_append, List.mem_cons] at hm ⊢
    tauto
  · rw [deathQueue_new hc]
    exact List.mem_append_left _ hm

/-- What one step keeps. -/
structure Kept (s s' : Sched) (xs : List Nat) (a : SchedAct) (xs' : List Nat) : Prop where
  inv : Inv s' xs'
  tracks : ∀ z, a.Meets (SafeSwitch z) (SafeDeath z) s xs → Tracks z s xs → Tracks z s' xs'
  links : a.Meets NoRelink DeathInFront s xs → Links s xs → Links s' xs'
  back : a.Meets IdleInFront DeathInFront s xs → Back s xs → Back s' xs'

/-- Every step keeps the invariant, and under its conditions the tracked
threads and the back links. -/
theorem Inv.step {n : Nat} {a : SchedAct} (h : Inv s xs) (hs : schedStep s (n, a) = some s') :
    ∃ xs', Kept s s' xs a xs' := by
  unfold schedStep at hs
  dsimp only at hs
  by_cases hen : a.Enabled s
  swap
  · rw [if_neg hen] at hs
    cases hs
  rw [if_pos hen] at hs
  have hboot : s.currThread ∈ xs → s.status s.currThread = .zombie ∨ Boot s xs :=
    fun hc => Or.inr (h.boot hc)
  cases a with
  | schedule =>
      obtain ⟨xs', hinv, htr, hl, hb⟩ := h.toMembers.step hboot h.ready hs
      exact ⟨xs', hinv, htr, fun hn hlk => hl hn hlk.ready,
        fun hi hbk => hb hi (hbk.ready h.queue)⟩
  | fork =>
      obtain ⟨th, -, hinv, hcurr, hst, hl⟩ := h.fork hen hs
      refine ⟨xs ++ [th], hinv, fun z _ ht x hx hxc => ?_, fun _ hlk => hl (Or.inl hlk),
        fun _ hbk => Or.inl (hl hbk)⟩
      rw [hcurr] at hxc
      rw [hst] at hx
      by_cases hxt : x = th
      · simp [hxt]
      · rw [if_neg hxt] at hx
        exact List.mem_append_left _ (ht x hx hxc)
  | exit =>
      obtain rfl := Option.some.inj hs
      exact ⟨xs, h.mark hen _, fun z _ ht => ht.mark h.curr_alive,
        fun _ hlk => Back.mark (Or.inl hlk) hen _, fun _ hbk => Or.inl (hbk.mark hen _)⟩
  | kill pid =>
      simp only [SchedAct.perform, RpiKernel.kill] at hs
      by_cases hk : killable pid s
      · rw [if_pos hk] at hs
        have hfree : s.status pid.toNat ≠ .free := fun hf => hk (Or.inr (Or.inr hf))
        have hm := h.mark hen pid.toNat
        obtain ⟨xs', hinv, htr, hl, hb⟩ := hm.toMembers.step (fun hc => Or.inr (hm.boot hc))
          hm.ready hs
        exact ⟨xs', hinv, fun z hz ht => htr z (hz hk) (ht.mark hfree),
          fun hn hlk => hl (hn hk) (Back.mark (Or.inl hlk) hen _).ready,
          fun hi hbk => hb (hi hk) (hbk.mark hen _).ready⟩
      · rw [if_neg hk] at hs
        obtain rfl := Option.some.inj hs
        exact ⟨xs, h, fun _ _ ht => ht, fun _ hlk => hlk, fun _ hbk => hbk⟩
  | threadExit =>
      have hm := h.mark hen s.currThread
      obtain ⟨xs', hinv, htr, hl, hb⟩ := hm.toMembers.step (fun hc => Or.inr (hm.boot hc))
        hm.ready hs
      exact ⟨xs', hinv, fun z hz ht => htr z hz (ht.mark h.curr_alive),
        fun hn hlk => hl hn (Back.mark (Or.inl hlk) hen _).ready,
        fun hi hbk => hb hi (hbk.mark hen _).ready⟩
  | signalDefault =>
      have hsafe : ∀ z, SafeSwitch z (RpiKernel.defaultDeath s) (deathQueue s xs) := fun z =>
        ⟨fun _ _ => defaultDeath_queued xs, fun _ _ _ _ hr => absurd defaultDeath_dead hr.live⟩
      obtain ⟨xs', hinv, htr, hl, hb⟩ := (h.defaultDeath hen).step
        (fun _ => Or.inl defaultDeath_dead) (h.defaultDeath_ready hen) hs
      exact ⟨xs', hinv, fun z hz ht => htr z (hsafe z) (ht.defaultDeath hz h.queue.nodup),
        fun hd hlk => hl (noRelink_of_zombie defaultDeath_dead)
          (h.ready_defaultDeath hen hd (Or.inl hlk)),
        fun hd hbk => hb (fun _ => noRelink_of_zombie defaultDeath_dead)
          (h.ready_defaultDeath hen hd hbk)⟩
  | killZombies =>
      obtain ⟨s₂, hall, hinv, hr, hb, hl⟩ := h.killZombies hen
      have hs' : (if xs.length ≤ n then some s₂ else none) = some s' := hall n ▸ hs
      obtain rfl : s₂ = s' := by
        split at hs'
        · exact Option.some.inj hs'
        · cases hs'
      refine ⟨_, hinv, fun z _ ht x hx hxc => ?_, fun _ hlk => hl hlk, fun _ _ => hb⟩
      rw [hr.curr] at hxc
      rw [hr.status] at hx
      by_cases hz : x ∈ xs ∧ s.status x = .zombie
      · rw [if_pos hz] at hx
        simp [tracked] at hx
      · rw [if_neg hz] at hx
        have hm := ht x hx hxc
        exact List.mem_filter.mpr ⟨hm, by simpa using fun he => hz ⟨hm, he⟩⟩

end

end RpiKernel
