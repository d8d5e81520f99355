import RpiKernel.Sched.Queue

/-!
# RpiKernel.Sched.Lifecycle

What holds of the run queue between two lifecycle steps, whatever the steps
were (`Inv`), and how each step of `RpiKernel.Sched.Thread` keeps it.

`thread_exec` makes the new thread current and leaves it queued, right
behind idle; until it is switched away from, the current thread is a member
of the queue (`Boot`).  The switch away from it is the one place where
`push_rq` meets a thread that is queued (`Requeued.cut`).
-/

namespace RpiKernel

open Dlist Sched

/-! ## the invariant -/

/-- The current thread is still queued, right behind idle; idle is first as
long as it lives. -/
def Boot (s : Sched) (xs : List Nat) : Prop :=
  ∃ A B, xs = A ++ 0 :: s.currThread :: B ∧ (s.status 0 = .active → A = [])

/-- The queue has no free slot in it, and idle is queued unless it is
current.  A current idle thread is no zombie: only user threads kill. -/
structure Members (s : Sched) (xs : List Nat) : Prop where
  queue : Queue s xs
  alive : ∀ x ∈ xs, s.status x ≠ .free
  curr_alive : s.status s.currThread ≠ .free
  idle_alive : s.status 0 ≠ .free
  idle_queued : 0 ∈ xs ↔ s.currThread ≠ 0
  idle_zombie : s.status 0 = .zombie → s.currThread ≠ 0

/-- The back links are right, and the current thread has none unless it is
queued. -/
def Links (s : Sched) (xs : List Nat) : Prop :=
  Linked s xs ∧ (s.currThread ∉ xs → s.prev s.currThread = none)

/-- The back links are right; or idle runs, and the one queued thread was
pushed while it was queued, so that its `prev` is not `NULL`. -/
def Back (s : Sched) (xs : List Nat) : Prop :=
  Links s xs ∨
    (s.currThread = 0 ∧ s.prev 0 = none ∧ ∃ c, xs = [c] ∧ s.status c = .active)

/-- What every lifecycle step keeps.  Once idle is a zombie `kill_zombies`
never runs again and nothing reads the back links. -/
structure Inv (s : Sched) (xs : List Nat) : Prop extends Members s xs where
  boot : s.currThread ∈ xs → Boot s xs
  back : s.status 0 = .zombie ∨ Back s xs

section

variable {s s' : Sched} {xs xs' ys zs : List Nat} {t : Nat}

theorem Back.tailLinked (h : Back s xs) (hq : Queue s xs) : TailLinked s xs := by
  cases h with
  | inl h => exact h.1.tailLinked
  | inr h =>
      obtain ⟨-, -, c, rfl, -⟩ := h
      have hnext : s.next c = none := by simpa using hq.visits.cons.2
      exact ⟨s.rqTail, rfl, hnext⟩

theorem Back.prev_curr (h : Back s xs) (hc : s.currThread ∉ xs) : s.prev s.currThread = none := by
  cases h with
  | inl h => exact h.2 hc
  | inr h => rw [h.1, h.2.1]

/-- Idle is alive or a zombie. -/
theorem Members.idle_active (h : Members s xs) (hz : s.status 0 ≠ .zombie) :
    s.status 0 = .active := by
  cases hs : s.status 0 with
  | free => exact absurd hs h.idle_alive
  | active => rfl
  | zombie => exact absurd hs hz

/-- What stands in front of a queued current thread. -/
theorem Boot.front (hb : Boot s (ys ++ s.currThread :: zs))
    (hnd : (ys ++ s.currThread :: zs).Nodup) :
    ∃ A, ys = A ++ [0] ∧ (s.status 0 = .active → A = []) := by
  obtain ⟨A, B, heq, hfirst⟩ := hb
  have heq' : ys ++ s.currThread :: zs = (A ++ [0]) ++ s.currThread :: B := by simpa using heq
  have hl : s.currThread ∉ ys := fun hm =>
    (List.nodup_append.mp hnd).2.2 _ hm _ List.mem_cons_self rfl
  have hr : s.currThread ∉ zs := (List.nodup_cons.mp (List.nodup_append.mp hnd).2.1).1
  exact ⟨A, ((List.append_cons_inj_of_notMem hl hr).mp heq').1, hfirst⟩

/-! ## the switch -/

/-- A queue holds zombies only, or has a first runnable thread. -/
theorem runnable_cases (s : Sched) (xs : List Nat) :
    (∀ z ∈ xs, s.status z = .zombie) ∨
      ∃ zs t ys, xs = zs ++ t :: ys ∧ (∀ z ∈ zs, s.status z = .zombie) ∧ s.status t ≠ .zombie := by
  induction xs with
  | nil => simp
  | cons x xs ih =>
      by_cases hx : s.status x = .zombie
      · cases ih with
        | inl h => exact Or.inl (by simpa [hx] using h)
        | inr h =>
            obtain ⟨zs, t, ys, rfl, hz, ht⟩ := h
            exact Or.inr ⟨x :: zs, t, ys, rfl, by simpa [hx] using hz, ht⟩
      · exact Or.inr ⟨[], x, xs, rfl, by simp, hx⟩

/-- The queue after a switch from the queue `zs ++ t :: ys` to its first
runnable thread `t`.  A dead thread is not pushed, a live one is pushed
behind the rest; if it was queued it takes the queue behind it away. -/
inductive Requeued (s : Sched) (zs : List Nat) (t : Nat) (ys : List Nat) : List Nat → Prop
  | dead : s.status s.currThread = .zombie → Requeued s zs t ys (ys ++ zs)
  | fresh : s.status s.currThread ≠ .zombie → s.currThread ∉ ys ++ zs →
      Requeued s zs t ys (ys ++ zs ++ [s.currThread])
  | cut (A B : List Nat) : s.status s.currThread ≠ .zombie → ys = A ++ s.currThread :: B →
      (s.status 0 = .zombie ∧ 0 ∈ A ∨ zs = [] ∧ t = 0 ∧ A = []) →
      Requeued s zs t ys (A ++ [s.currThread])

/-- A switch from the queue `zs ++ t :: ys` to `t`. -/
structure Switch (s s' : Sched) (zs : List Nat) (t : Nat) (ys xs' : List Nat) : Prop where
  zombies : ∀ z ∈ zs, s.status z = .zombie
  runnable : s.status t ≠ .zombie
  requeued : Requeued s zs t ys xs'
  queue : Queue s' xs'
  status : ∀ j, s'.status j = s.status j
  curr : s'.currThread = t
  links : TailLinked s (zs ++ t :: ys) →
    (s.currThread ∉ zs ++ t :: ys → s.prev s.currThread = none) →
    (s.status s.currThread = .zombie ∨ s.currThread ∉ ys) → Links s' xs'
  back : s.status s.currThread ≠ .zombie → s.currThread ∈ ys → s.status 0 ≠ .zombie →
    Back s' xs'

/-- Where a live current thread stands when the first runnable is `t`. -/
theorem Members.requeued (h : Members s (zs ++ t :: ys))
    (hb : s.currThread ∈ zs ++ t :: ys → s.status s.currThread = .zombie ∨ Boot s (zs ++ t :: ys))
    (hz : ∀ z ∈ zs, s.status z = .zombie) (ht : s.status t ≠ .zombie) :
    Requeued s zs t ys (if s.status s.currThread = .zombie then ys ++ zs
      else (ys ++ zs).takeWhile (· ≠ s.currThread) ++ [s.currThread]) := by
  have hnd := h.queue.nodup
  by_cases hc : s.status s.currThread = .zombie
  · rw [if_pos hc]
    exact .dead hc
  rw [if_neg hc]
  have hczs : s.currThread ∉ zs := fun hm => hc (hz _ hm)
  by_cases hcy : s.currThread ∈ ys
  · obtain ⟨A, B, rfl⟩ := List.append_of_mem hcy
    have hsplit : zs ++ t :: (A ++ s.currThread :: B) = (zs ++ t :: A) ++ s.currThread :: B := by
      simp
    rw [hsplit] at hb hnd
    -- idle is the member right in front of the current thread
    obtain ⟨A₀, hfront, hfirst⟩ := ((hb (by simp)).resolve_left hc).front hnd
    have hcut : (A ++ s.currThread :: B ++ zs).takeWhile (· ≠ s.currThread) = A := by
      have hA : ∀ y ∈ A, y ≠ s.currThread := fun y hy he =>
        (List.nodup_append.mp hnd).2.2 y (by simp [hy]) _ List.mem_cons_self he
      rw [List.append_assoc, List.takeWhile_append_of_pos (by simpa using hA)]
      simp
    rw [hcut]
    refine .cut A B hc rfl ?_
    rcases List.eq_nil_or_concat A with rfl | ⟨A', a, rfl⟩
    · obtain ⟨rfl, rfl⟩ : zs = A₀ ∧ t = 0 := by simpa using List.append_inj' hfront rfl
      exact Or.inr ⟨hfirst (h.idle_active ht), rfl, rfl⟩
    · rw [List.concat_eq_append, ← List.cons_append, ← List.append_assoc] at hfront
      obtain ⟨hA₀, ha⟩ := List.append_inj' hfront rfl
      refine Or.inl ⟨?_, by simp [List.singleton_inj.mp ha]⟩
      by_contra hs
      have hnil := hA₀.trans (hfirst (h.idle_active hs))
      simp at hnil
  · have hcm : s.currThread ∉ ys ++ zs := by simp [hcy, hczs]
    have hcut : (ys ++ zs).takeWhile (· ≠ s.currThread) = ys ++ zs := by
      rw [List.takeWhile_eq_self_iff]
      intro y hy
      simpa using fun he : y = s.currThread => hcm (he ▸ hy)
    rw [hcut]
    exact .fresh hc hcm

/-- The threads in front of `t` and behind it. -/
theorem Requeued.mem_of_mem (hr : Requeued s zs t ys xs') {x : Nat} (hx : x ∈ xs') :
    x ∈ ys ++ zs ∨ x = s.currThread := by
  cases hr with
  | dead => exact Or.inl hx
  | fresh => simpa [or_assoc] using hx
  | cut A B _ hys _ =>
      subst hys
      simp only [List.mem_append, List.mem_singleton] at hx ⊢
      cases hx with
      | inl hx => exact Or.inl (Or.inl (Or.inl hx))
      | inr hx => exact Or.inr hx

/-- Pushing a live outgoing thread that is not queued keeps the links. -/
theorem Requeued.links {s₁ : Sched} (hr : Requeued s zs t ys xs')
    (hc : s.status s.currThread ≠ .zombie) (hcy : s.currThread ∉ ys)
    (hrot : Rotated s s₁ (zs ++ t :: ys)) (hpt : s₁.prev t = none)
    (hl : Linked s₁ (ys ++ zs))
    (hprev : s.currThread ∉ zs ++ t :: ys → s.prev s.currThread = none) :
    Links (RpiKernel.pushRq s.currThread (s₁.setCurr t)) xs' := by
  have hl' : Linked (s₁.setCurr t) (ys ++ zs) := hl.congr rfl rfl (fun _ _ => rfl) fun _ _ => rfl
  cases hr with
  | dead hz => exact absurd hz hc
  | cut A B _ hys _ => exact absurd (by simp [hys]) hcy
  | fresh _ hcm =>
      refine ⟨hl'.pushRq hcm fun _ => ?_, fun htm => ?_⟩
      · rw [prev_setCurr]
        by_cases hct : s.currThread = t
        · rw [hct, hpt]
        · have hcx : s.currThread ∉ zs ++ t :: ys := by
            simp only [List.mem_append, List.mem_cons, not_or] at hcm ⊢
            exact ⟨hcm.2, hct, hcm.1⟩
          rw [hrot.prev_other _ hcx, hprev hcx]
      · rw [currThread_pushRq, currThread_setCurr] at htm ⊢
        have htc : t ≠ s.currThread := fun he => htm (by simp [he])
        rw [prev_pushRq, if_neg (by simp [htc]), prev_setCurr, hpt]

/-- Pushing a queued thread leaves it alone in the queue, with idle, that
stood in front of it, running. -/
theorem Requeued.back {s₁ : Sched} (hr : Requeued s zs t ys xs')
    (h : Members s (zs ++ t :: ys)) (hc : s.status s.currThread ≠ .zombie)
    (hcy : s.currThread ∈ ys) (h0 : s.status 0 ≠ .zombie)
    (hrot : Rotated s s₁ (zs ++ t :: ys)) (hpt : s₁.prev t = none) :
    Back (RpiKernel.pushRq s.currThread (s₁.setCurr t)) xs' := by
  cases hr with
  | dead hz => exact absurd hz hc
  | fresh _ hcm => exact absurd (List.mem_append_left _ hcy) hcm
  | cut A B _ hys hwhy =>
      obtain ⟨rfl, rfl, rfl⟩ := hwhy.resolve_left fun hzom => h0 hzom.1
      have hact : s.status s.currThread = .active := by
        cases hs : s.status s.currThread with
        | free => exact absurd hs h.curr_alive
        | active => rfl
        | zombie => exact absurd hs hc
      have hc0 : s.currThread ≠ 0 := h.idle_queued.mp (by simp)
      refine Or.inr ⟨by simp, ?_, _, rfl, ?_⟩
      · rw [prev_pushRq, if_neg (by simp [hc0.symm]), prev_setCurr, hpt]
      · rw [status_pushRq, status_setCurr, hrot.status, hact]

/-- The state after the switch, from the one the loop of `schedule` left. -/
theorem Members.switch {s₁ : Sched} (h : Members s (zs ++ t :: ys))
    (hb : s.currThread ∈ zs ++ t :: ys → s.status s.currThread = .zombie ∨ Boot s (zs ++ t :: ys))
    (hz : ∀ z ∈ zs, s.status z = .zombie) (ht : s.status t ≠ .zombie)
    (hq : Queue s₁ (ys ++ zs)) (hrot : Rotated s s₁ (zs ++ t :: ys)) (hpt : s₁.prev t = none)
    (hl : TailLinked s (zs ++ t :: ys) → Linked s₁ (ys ++ zs)) :
    ∃ xs', Switch s (switchFrom s.currThread t s₁) zs t ys xs' := by
  have hreq := h.requeued hb hz ht
  have hst : ∀ j, (switchFrom s.currThread t s₁).status j = s.status j := fun j => by
    unfold switchFrom
    split <;> simp [hrot.status]
  have hcurr : (switchFrom s.currThread t s₁).currThread = t := by
    unfold switchFrom
    split <;> simp
  by_cases hc : s.status s.currThread = .zombie
  · have hsw : switchFrom s.currThread t s₁ = s₁.setCurr t := by
      unfold switchFrom
      rw [if_neg (by simp [hrot.status, hc])]
    rw [if_pos hc] at hreq
    refine ⟨_, hz, ht, hreq, ?_, hst, hcurr, fun htl _ _ => ⟨?_, fun _ => ?_⟩,
      fun hlive => absurd hc hlive⟩
    · rw [hsw]
      exact hq.congr rfl rfl fun _ _ => rfl
    · rw [hsw]
      exact (hl htl).congr rfl rfl (fun _ _ => rfl) fun _ _ => rfl
    · rw [hcurr, hsw]
      exact hpt
  · have hsw : switchFrom s.currThread t s₁ = pushRq s.currThread (s₁.setCurr t) := by
      unfold switchFrom
      rw [if_pos (by simpa [hrot.status] using hc)]
    have hq' : Queue (s₁.setCurr t) (ys ++ zs) := hq.congr rfl rfl fun _ _ => rfl
    rw [if_neg hc] at hreq
    refine ⟨_, hz, ht, hreq, ?_, hst, hcurr, fun htl hprev hcy => ?_, fun _ hcy h0 => ?_⟩
    · rw [hsw]
      exact hq'.pushRq _
    · rw [hsw]
      exact hreq.links hc (hcy.resolve_left hc) hrot hpt (hl htl) hprev
    · rw [hsw]
      exact hreq.back h hc hcy h0 hrot hpt

/-- `schedule` finds the queue empty, or runs for ever on zombies, or
switches to the first runnable thread. -/
theorem Members.schedule (h : Members s xs)
    (hb : s.currThread ∈ xs → s.status s.currThread = .zombie ∨ Boot s xs) :
    (xs = [] ∧ ∀ n, schedule n s = some s) ∨
      (xs ≠ [] ∧ (∀ z ∈ xs, s.status z = .zombie) ∧ ∀ n, schedule n s = none) ∨
      ∃ zs t ys s' xs', xs = zs ++ t :: ys ∧ Switch s s' zs t ys xs' ∧
        ∀ n, schedule n s = if zs.length < n then some s' else none := by
  cases runnable_cases s xs with
  | inl hz =>
      by_cases hne : xs = []
      · subst hne
        exact Or.inl ⟨rfl, h.queue.schedule_nil⟩
      · exact Or.inr (Or.inl ⟨hne, hz, h.queue.schedule_stuck hne hz⟩)
  | inr hex =>
      obtain ⟨zs, t, ys, rfl, hz, ht⟩ := hex
      obtain ⟨s₁, hrun, hq, hrot, hpt, hl⟩ := h.queue.schedule hz ht
      obtain ⟨xs', hsw⟩ := h.switch hb hz ht hq hrot hpt hl
      exact Or.inr (Or.inr ⟨zs, t, ys, _, xs', rfl, hsw, hrun⟩)

/-! ## the switch keeps the invariant -/

theorem Switch.alive (hs : Switch s s' zs t ys xs') (h : Members s (zs ++ t :: ys)) {x : Nat}
    (hx : x ∈ xs') : s'.status x ≠ .free := by
  rw [hs.status]
  cases hs.requeued.mem_of_mem hx with
  | inl hx => exact h.alive x (by simp only [List.mem_append, List.mem_cons] at hx ⊢; tauto)
  | inr hx => rw [hx]; exact h.curr_alive

/-- The thread switched to is taken off the queue. -/
theorem Members.target_notMem (h : Members s (zs ++ t :: ys)) : t ∉ ys ++ zs := by
  have hnd := (List.perm_append_comm.nodup_iff).mp h.queue.nodup
  rw [List.cons_append] at hnd
  exact (List.nodup_cons.mp hnd).1

/-- Idle stays in the queue, or is switched to. -/
theorem Switch.idle_queued (hs : Switch s s' zs t ys xs') (h : Members s (zs ++ t :: ys)) :
    0 ∈ xs' ↔ t ≠ 0 := by
  have htn := h.target_notMem
  have hidle := h.idle_queued
  constructor
  · intro h0 ht
    subst ht
    have hc : s.currThread ≠ 0 := hidle.mp (by simp)
    cases hs.requeued.mem_of_mem h0 with
    | inl hm => exact htn hm
    | inr he => exact hc he.symm
  · intro ht
    have hrest : s.currThread ≠ 0 → 0 ∈ ys ++ zs := fun hc => by
      have hm := hidle.mpr hc
      simp only [List.mem_append, List.mem_cons] at hm ⊢
      grind
    cases hs.requeued with
    | dead hz => exact hrest fun hc => h.idle_zombie (by rw [← hc, hz]) hc
    | fresh _ _ =>
        by_cases hc : s.currThread = 0
        · simp [hc]
        · exact List.mem_append_left _ (hrest hc)
    | cut A B _ _ hwhy =>
        cases hwhy with
        | inl hzom => exact List.mem_append_left _ hzom.2
        | inr hidle => exact absurd hidle.2.1 ht

/-- The thread switched to is queued only when it was current and queued
already, behind a zombie idle thread. -/
theorem Switch.boot (hs : Switch s s' zs t ys xs') (h : Members s (zs ++ t :: ys))
    (hb : s.currThread ∈ zs ++ t :: ys → s.status s.currThread = .zombie ∨ Boot s (zs ++ t :: ys))
    (htm : t ∈ xs') : Boot s' xs' := by
  have htc : t = s.currThread := (hs.requeued.mem_of_mem htm).resolve_left h.target_notMem
  have hlive : s.status s.currThread ≠ .zombie := htc ▸ hs.runnable
  have hboot : Boot s (zs ++ t :: ys) := (hb (by simp [htc])).resolve_left hlive
  have hnd := h.queue.nodup
  rw [htc] at hboot hnd
  obtain ⟨A, rfl, -⟩ := hboot.front hnd
  have h0 : s'.status 0 ≠ .active := by
    rw [hs.status, hs.zombies 0 (by simp)]
    simp
  have hreq := hs.requeued
  cases hreq with
  | dead hz => exact absurd hz hlive
  | fresh => exact ⟨ys ++ A, [], by simp [hs.curr, htc], fun h1 => absurd h1 h0⟩
  | cut A' B _ hys _ =>
      have htn := h.target_notMem
      rw [hys, htc] at htn
      simp at htn

/-- A switch keeps the invariant. -/
theorem Switch.inv (hs : Switch s s' zs t ys xs') (h : Members s (zs ++ t :: ys))
    (hb : s.currThread ∈ zs ++ t :: ys → s.status s.currThread = .zombie ∨ Boot s (zs ++ t :: ys))
    (hback : s.status 0 = .zombie ∨ TailLinked s (zs ++ t :: ys) ∧
      (s.currThread ∉ zs ++ t :: ys → s.prev s.currThread = none)) : Inv s' xs' := by
  have hidle := hs.idle_queued h
  refine ⟨⟨hs.queue, fun x hx => hs.alive h hx, ?_, ?_, ?_, fun h0 => ?_⟩, fun htm => ?_, ?_⟩
  · rw [hs.curr, hs.status]
    exact h.alive t (by simp)
  · rw [hs.status]
    exact h.idle_alive
  · rw [hs.curr]
    exact hidle
  · rw [hs.status] at h0
    rw [hs.curr]
    exact fun ht => hs.runnable (ht ▸ h0)
  · rw [hs.curr] at htm
    exact hs.boot h hb htm
  · rw [hs.status]
    by_cases h0 : s.status 0 = .zombie
    · exact Or.inl h0
    · obtain ⟨htl, hprev⟩ := hback.resolve_left h0
      by_cases hc : s.status s.currThread = .zombie ∨ s.currThread ∉ ys
      · exact Or.inr (Or.inl (hs.links htl hprev hc))
      · rw [not_or, not_not] at hc
        exact Or.inr (hs.back hc.1 hc.2 h0)

/-! ## marking a thread -/

theorem Back.mark (hb : Back s xs) (hu : s.currThread ≠ 0) (c : Nat) :
    Links (s.setStatus c .zombie) xs := by
  cases hb with
  | inl hl =>
      refine ⟨hl.1.congr rfl rfl (fun y _ => next_setStatus ..)
        fun y _ => prev_setStatus .., fun hm => ?_⟩
      rw [prev_setStatus]
      exact hl.2 hm
  | inr hp => exact absurd hp.1 hu

/-- Marking a thread a zombie, by a user thread. -/
theorem Inv.mark (h : Inv s xs) (hu : s.currThread ≠ 0) (c : Nat) :
    Inv (s.setStatus c .zombie) xs := by
  have hst : ∀ j, s.status j ≠ .free → (s.setStatus c .zombie).status j ≠ .free := fun j hj => by
    rw [status_setStatus]
    split <;> simp [hj]
  have hq : Queue (s.setStatus c .zombie) xs :=
    h.queue.congr rfl rfl fun y _ => next_setStatus ..
  refine ⟨⟨hq, fun x hx => hst x (h.alive x hx), hst _ h.curr_alive, hst _ h.idle_alive,
    h.idle_queued, fun _ => hu⟩, fun hc => ?_, ?_⟩
  · obtain ⟨A, B, heq, hfirst⟩ := h.boot hc
    refine ⟨A, B, heq, fun h0 => hfirst ?_⟩
    rw [status_setStatus] at h0
    split at h0
    · cases h0
    · exact h0
  · rw [status_setStatus]
    by_cases hc : 0 = c
    · simp [hc]
    · rw [if_neg hc]
      exact h.back.imp_right fun hb => Or.inl (hb.mark hu c)

/-! ## fork -/

theorem findFree_spec {n i j : Nat} (h : findFree s n i = some j) :
    s.status j = .free ∧ i ≤ j ∧ j < i + n := by
  induction n generalizing i with
  | zero => cases h
  | succ n ih =>
      unfold findFree at h
      by_cases hf : s.status i = .free
      · rw [if_pos hf] at h
        obtain rfl := Option.some.inj h
        exact ⟨hf, le_rfl, by omega⟩
      · rw [if_neg hf] at h
        have := ih h
        exact ⟨this.1, by omega, by omega⟩

/-- What `thread_create` does to the scheduler. -/
theorem threadCreate_spec {th : Nat} (h : threadCreate s = some (th, s')) :
    s.status th = .free ∧ th ≤ maxThreadCount ∧ s' = pushRq th (s.setStatus th .active) := by
  unfold threadCreate at h
  cases hf : findFree s (maxThreadCount + 1) 0 with
  | none => rw [hf] at h; cases h
  | some j =>
      rw [hf] at h
      obtain ⟨rfl, rfl⟩ := Prod.mk.inj (Option.some.inj h)
      have hspec := findFree_spec hf
      exact ⟨hspec.1, by omega, rfl⟩

/-- A new thread is appended to the queue. -/
theorem Inv.fork (h : Inv s xs) (hu : s.currThread ≠ 0) (hf : fork s = some s') :
    ∃ th, s.status th = .free ∧ Inv s' (xs ++ [th]) ∧ s'.currThread = s.currThread ∧
      (∀ j, s'.status j = if j = th then .active else s.status j) ∧
      (Back s xs → Links s' (xs ++ [th])) := by
  obtain ⟨⟨th, s₁⟩, hc, rfl⟩ := Option.map_eq_some_iff.mp hf
  obtain ⟨hfree, -, rfl⟩ := threadCreate_spec hc
  have hth : th ∉ xs := fun hm => h.alive th hm hfree
  have h0 : 0 ≠ th := fun he => h.idle_alive (he ▸ hfree)
  have hct : s.currThread ≠ th := fun he => h.curr_alive (he ▸ hfree)
  have hst : ∀ j, (pushRq th (s.setStatus th .active)).status j =
      if j = th then .active else s.status j := fun j => by simp
  have hq : Queue (s.setStatus th .active) xs :=
    h.queue.congr rfl rfl fun y _ => next_setStatus ..
  have hback : Back s xs → Links (pushRq th (s.setStatus th .active)) (xs ++ [th]) := fun hb => by
    cases hb with
    | inl hl =>
        have hl' : Linked (s.setStatus th .active) xs :=
          hl.1.congr rfl rfl (fun y _ => next_setStatus ..) fun y _ => prev_setStatus ..
        have hne : xs ≠ [] := List.ne_nil_of_mem (h.idle_queued.mpr hu)
        refine ⟨hl'.pushRq hth fun he => absurd he hne, fun hm => ?_⟩
        rw [currThread_pushRq, currThread_setStatus] at hm ⊢
        rw [prev_pushRq, if_neg (by simp [hct]), prev_setStatus]
        exact hl.2 fun hx => hm (List.mem_append_left _ hx)
    | inr hp => exact absurd hp.1 hu
  refine ⟨th, hfree, ⟨⟨hq.pushRq_new hth, fun x hx => ?_, ?_, ?_, ?_, fun _ => ?_⟩,
    fun hm => ?_, ?_⟩, by simp, hst, hback⟩
  · rw [hst]
    split
    · simp
    · refine h.alive x ?_
      simp only [List.mem_append, List.mem_singleton] at hx
      tauto
  · rw [hst, currThread_pushRq, currThread_setStatus, if_neg hct]
    exact h.curr_alive
  · rw [hst, if_neg h0]
    exact h.idle_alive
  · rw [currThread_pushRq, currThread_setStatus, ← h.idle_queued]
    simp [h0]
  · rw [currThread_pushRq]
    exact hu
  · rw [currThread_pushRq, currThread_setStatus] at hm
    have hm' : s.currThread ∈ xs := by simpa [hct] using hm
    obtain ⟨A, B, heq, hfirst⟩ := h.boot hm'
    refine ⟨A, B ++ [th], by simp [heq], fun ha => hfirst ?_⟩
    rwa [hst, if_neg h0] at ha
  · rw [hst, if_neg h0]
    exact h.back.imp_right fun hb => Or.inl (hback hb)

/-! ## kill_zombies -/

/-- `kill_zombies` run by idle: every queued zombie gives its slot back. -/
theorem Inv.killZombies (h : Inv s xs) (hu : s.currThread = 0) :
    ∃ s', (∀ n, killZombies n s = if xs.length ≤ n then some s' else none) ∧
      Inv s' (xs.filter fun x => s.status x ≠ .zombie) ∧ Reaped s s' xs ∧
      Back s' (xs.filter fun x => s.status x ≠ .zombie) ∧
      (Links s xs → Links s' (xs.filter fun x => s.status x ≠ .zombie)) := by
  have h0 : s.status 0 ≠ .zombie := fun hz => h.idle_zombie hz hu
  have h0x : 0 ∉ xs := fun hm => h.idle_queued.mp hm hu
  have hinv : ∀ s', Reaped s s' xs → Queue s' (xs.filter fun x => s.status x ≠ .zombie) →
      Back s' (xs.filter fun x => s.status x ≠ .zombie) →
      Inv s' (xs.filter fun x => s.status x ≠ .zombie) := fun s' hr hq hb => by
    have hst0 : s'.status 0 = s.status 0 := by rw [hr.status, if_neg (by simp [h0])]
    refine ⟨⟨hq, fun x hx => ?_, ?_, ?_, ?_, fun hz => ?_⟩, fun hm => ?_, Or.inr hb⟩
    · obtain ⟨hx, hz⟩ := List.mem_filter.mp hx
      rw [hr.status, if_neg (by simpa [hx] using hz)]
      exact h.alive x hx
    · rw [hr.curr, hu, hst0]
      exact h.idle_alive
    · rw [hst0]
      exact h.idle_alive
    · rw [hr.curr, hu]
      simp [h0x]
    · exact absurd (hst0 ▸ hz) h0
    · rw [hr.curr, hu] at hm
      exact absurd (List.mem_filter.mp hm).1 h0x
  cases h.back.resolve_left h0 with
  | inl hl =>
      obtain ⟨s', hrun, hl', hr⟩ := hl.1.killZombies
      have hb : Links s' (xs.filter fun x => s.status x ≠ .zombie) := by
        refine ⟨hl', fun _ => ?_⟩
        rw [hr.curr, hu, hr.prev_other 0 h0x, ← hu]
        exact hl.2 (hu ▸ h0x)
      exact ⟨s', hrun, hinv s' hr hl'.queue (Or.inl hb), hr, Or.inl hb, fun _ => hb⟩
  | inr hp =>
      -- a single live thread: nothing to reap
      have hp' := hp
      obtain ⟨-, -, c, rfl, hact⟩ := hp'
      have hfil : ([c].filter fun x => s.status x ≠ .zombie) = [c] := by simp [hact]
      have hr : Reaped s s [c] := ⟨fun j => by
        split
        · next hj =>
            obtain ⟨hj, hz⟩ := hj
            rw [List.mem_singleton.mp hj, hact] at hz
            cases hz
        · rfl, rfl, fun _ _ => rfl⟩
      rw [hfil] at hinv ⊢
      exact ⟨s, h.queue.killZombies_noop (by simp [hact]), hinv s hr h.queue (Or.inr hp), hr,
        Or.inr hp, fun hl => hl⟩

/-! ## signal_default_handler -/

@[simp] theorem currThread_defaultDeath : (defaultDeath s).currThread = s.currThread := by
  simp [defaultDeath]

@[simp] theorem status_defaultDeath (j : Nat) : (defaultDeath s).status j =
    if j = s.currThread then .zombie else s.status j := by
  simp [defaultDeath]

theorem next_defaultDeath {j : Nat} (hj : j ≠ s.currThread) : (defaultDeath s).next j =
    if s.rqTail = some j then some s.currThread else s.next j := by
  simp [defaultDeath, next_pushRq, hj]

/-- The queue after `signal_default_handler` pushed the dying thread: what
was behind it is cut off when it was queued already. -/
def deathQueue (s : Sched) (xs : List Nat) : List Nat :=
  xs.takeWhile (· ≠ s.currThread) ++ [s.currThread]

theorem Queue.defaultDeath (hq : Queue s xs) : Queue (defaultDeath s) (deathQueue s xs) := by
  have hh : (RpiKernel.defaultDeath s).rqHead = s.rqHead.or (some s.currThread) := by
    have ht := hq.tail
    have hhd := hq.head
    cases xs <;> simp [RpiKernel.defaultDeath, rqHead_pushRq, ht, hhd]
  constructor
  · rw [hh]
    refine hq.visits.pushBack _ (by simp [RpiKernel.defaultDeath, next_pushRq]) fun y _ hy => ?_
    rw [next_defaultDeath hy, hq.tail]
  · simp [deathQueue, RpiKernel.defaultDeath]

/-- A thread that was not queued is appended. -/
theorem deathQueue_new (hc : s.currThread ∉ xs) : deathQueue s xs = xs ++ [s.currThread] := by
  have hcut : xs.takeWhile (· ≠ s.currThread) = xs := by
    rw [List.takeWhile_eq_self_iff]
    intro y hy
    simpa using fun he : y = s.currThread => hc (he ▸ hy)
  rw [deathQueue, hcut]

/-- A thread that was queued becomes the last. -/
theorem deathQueue_queued (hnd : (ys ++ s.currThread :: zs).Nodup) :
    deathQueue s (ys ++ s.currThread :: zs) = ys ++ [s.currThread] := by
  have hy : ∀ y ∈ ys, y ≠ s.currThread := fun y hy he =>
    (List.nodup_append.mp hnd).2.2 y hy _ List.mem_cons_self he
  rw [deathQueue, List.takeWhile_append_of_pos (by simpa using hy)]
  simp

/-- The state in which `signal_default_handler` calls `schedule`. -/
theorem Inv.defaultDeath (h : Inv s xs) (hu : s.currThread ≠ 0) :
    Members (defaultDeath s) (deathQueue s xs) := by
  have halive : ∀ j, s.status j ≠ .free → (RpiKernel.defaultDeath s).status j ≠ .free :=
    fun j hj => by
      rw [status_defaultDeath]
      split <;> simp [hj]
  have hidle : 0 ∈ deathQueue s xs := by
    have h0 := h.idle_queued.mpr hu
    by_cases hc : s.currThread ∈ xs
    · obtain ⟨ys, zs, rfl⟩ := List.append_of_mem hc
      obtain ⟨A, rfl, -⟩ := (h.boot hc).front h.queue.nodup
      rw [deathQueue_queued h.queue.nodup]
      simp
    · rw [deathQueue_new hc]
      exact List.mem_append_left _ h0
  refine ⟨h.queue.defaultDeath, fun x hx => halive x ?_, halive _ ?_, halive _ h.idle_alive,
    ?_, fun _ => ?_⟩
  · rcases List.mem_append.mp hx with hx | hx
    · exact h.alive x ((List.takeWhile_sublist _).subset hx)
    · rw [List.mem_singleton.mp hx]
      exact h.curr_alive
  · rw [currThread_defaultDeath]
    exact h.curr_alive
  · rw [currThread_defaultDeath]
    exact ⟨fun _ => hu, fun _ => hidle⟩
  · rw [currThread_defaultDeath]
    exact hu

/-- Its back links are right from the third member on, unless the thread was
queued behind a zombie idle thread. -/
theorem Inv.defaultDeath_tailLinked (h : Inv s xs) (hu : s.currThread ≠ 0) (hb : Back s xs)
    (hc : s.currThread ∈ xs → s.status 0 ≠ .zombie) :
    TailLinked (RpiKernel.defaultDeath s) (deathQueue s xs) := by
  by_cases hcx : s.currThread ∈ xs
  · obtain ⟨ys, zs, rfl⟩ := List.append_of_mem hcx
    obtain ⟨A, rfl, hfirst⟩ := (h.boot hcx).front h.queue.nodup
    obtain rfl := hfirst (h.idle_active (hc hcx))
    rw [deathQueue_queued h.queue.nodup]
    -- idle, then the dying thread
    have hnext : s.next 0 = some s.currThread := by
      have hv := h.queue.visits.cons.2
      exact hv.cons.1
    refine ⟨(RpiKernel.defaultDeath s).prev s.currThread, ?_, rfl, ?_⟩
    · rw [next_defaultDeath hu.symm, hnext]
      simp
    · simp [RpiKernel.defaultDeath, next_pushRq]
  · rw [deathQueue_new hcx]
    cases hb with
    | inl hl =>
        have hl' : Linked (((s.setStatus s.currThread .zombie).setPrev s.currThread none).setNext
            s.currThread none) xs := by
          refine hl.1.congr rfl rfl (fun y hy => ?_) fun y hy => ?_
          · have hy' : y ≠ s.currThread := fun he => hcx (he ▸ hy)
            simp [hy']
          · have hy' : y ≠ s.currThread := fun he => hcx (he ▸ hy)
            simp [hy']
        exact (hl'.pushRq hcx fun _ => by simp).tailLinked
    | inr hp => exact absurd hp.1 hu

end

end RpiKernel
