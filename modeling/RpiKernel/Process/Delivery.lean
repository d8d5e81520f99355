import RpiKernel.Process.Signal

/-!
# RpiKernel.Process.Delivery

No signal of a thread is lost or delivered twice: the signals that were sent to it
are the handlers that were entered and those that are still counted
(`signalRun_conserves`).  The loop of `check_signal` is left for user mode in the
middle of a pass, and `sigreturn` goes on with that pass.

Between the section that counts the signal down and the handler the interrupts are
enabled.  When a timer interrupt switches the thread away there, the signal is neither
counted nor delivered, and it is lost when the thread is killed before it runs again.

`SignalMove` is what a step of the whole kernel does to the signals of one thread;
what is known of the thread is carried over these moves.
-/

namespace RpiKernel

open Runs Signals

/-! ## counting -/

/-- What happens to the signals of a thread. -/
inductive SignalEvent where
  | kill (i : Nat)
  | enter (i : Nat)
deriving DecidableEq, Repr

/-- How often each signal was sent, and its handler entered. -/
structure SignalCounts where
  kills : Nat → Nat
  entries : Nat → Nat

def SignalCounts.zero : SignalCounts := ⟨fun _ => 0, fun _ => 0⟩

def SignalCounts.record : Option SignalEvent → SignalCounts → SignalCounts
  | none, l => l
  | some (.kill i), l => { l with kills := Function.update l.kills i (l.kills i + 1) }
  | some (.enter i), l => { l with entries := Function.update l.entries i (l.entries i + 1) }

/-- `signal_kill` counts the signal. -/
def killCounts (pid : Int) (s : Signals) : Prop :=
  ¬ (pid > maxThreadCount ∨ pid < 0 ∨ s.sched.status pid.toNat = .free)

instance (pid : Int) (s : Signals) : Decidable (killCounts pid s) := inferInstanceAs (Decidable (¬ _))

/-- What a step does to the signals of thread `t`. -/
def signalEvent (t : Nat) (s : Signals) : Nat × SignalAct → Option SignalEvent
  | (_, .call (.signalKill pid signal)) =>
      if pid.toNat = t ∧ killCounts pid s then some (.kill signal.toNat) else none
  | (_, .check) =>
      match s.curr.control with
      | .taken i =>
          if s.sched.currThread = t ∧ s.curr.signalHandler i ≠ s.defaultHandler then some (.enter i) else none
      | _ => none
  | _ => none

/-- A step, with the counts for thread `t`. -/
def countedStep (t : Nat) (s : Signals × SignalCounts) (a : Nat × SignalAct) :
    Option (Signals × SignalCounts) :=
  (signalStep s.1 a).map fun s' => (s', s.2.record (signalEvent t s.1 a))

/-- The thread is not in `check_signal`. -/
def SignalThread.Outside (th : SignalThread) : Prop := th.control = .user ∨ th.control = .leaving

/-- The thread starts, and no signal waits. -/
structure SignalThread.Starts (th : SignalThread) : Prop where
  outside : th.Outside
  unchecked : th.signalIsChecking = false
  inactive : th.active = false
  sigcount : ∀ i, th.sigcount i = 0

/-- The thread is there; `sigreturn` comes from a handler, and `exec` does not; and
it has a handler for every signal that its `check_signal` takes. -/
structure Handles (t : Nat) (s : Signals) (a : Nat × SignalAct) : Prop where
  alive : s.sched.status t ≠ .free
  sigreturn : s.sched.currThread = t → a.2 = .call .sigreturn → (s.thread t).active = true
  exec : s.sched.currThread = t → a.2 = .call .exec → (s.thread t).active = false
  registered : s.sched.currThread = t → a.2 = .check → ∀ i, (s.thread t).control = .taken i →
    (s.thread t).signalHandler i ≠ s.defaultHandler

instance {c : Control} {P : Nat → Prop} [DecidablePred P] : Decidable (∀ i, c = .taken i → P i) :=
  match c with
  | .taken i => decidable_of_iff (P i) ⟨fun h _ hj => Control.taken.inj hj ▸ h, fun h => h i rfl⟩
  | .user | .leaving | .checking _ | .stored _ | .found _ => .isTrue fun _ hj => nomatch hj

instance (t : Nat) (s : Signals) (a : Nat × SignalAct) : Decidable (Handles t s a) :=
  decidable_of_iff
    (s.sched.status t ≠ .free ∧
      (s.sched.currThread = t → a.2 = .call .sigreturn → (s.thread t).active = true) ∧
      (s.sched.currThread = t → a.2 = .call .exec → (s.thread t).active = false) ∧
      (s.sched.currThread = t → a.2 = .check → ∀ i, (s.thread t).control = .taken i →
        (s.thread t).signalHandler i ≠ s.defaultHandler))
    ⟨fun h => ⟨h.1, h.2.1, h.2.2.1, h.2.2.2⟩, fun h => ⟨h.1, h.2, h.3, h.4⟩⟩

/-- The thread is not in `run_signal`. -/
def SignalThread.Settled (th : SignalThread) : Prop := ∀ i, th.control ≠ .taken i

instance (th : SignalThread) : Decidable th.Settled :=
  inferInstanceAs (Decidable (∀ i, th.control = .taken i → False))

/-- No timer interrupt comes while the thread runs between the count and the handler. -/
def Uninterrupted (t : Nat) (s : Signals) (a : Nat × SignalAct) : Prop :=
  a.2 = .preempt → s.sched.currThread = t → (s.thread t).Settled

instance (t : Nat) (s : Signals) (a : Nat × SignalAct) : Decidable (Uninterrupted t s a) :=
  inferInstanceAs (Decidable (_ → _ → _))

/-- The signals that were sent are those whose handler was entered and those that are
counted; while the thread itself runs in `run_signal`, one is in its hands. -/
def SignalsConserved (t : Nat) (s : Signals) (l : SignalCounts) : Prop :=
  (s.sched.currThread = t → (s.thread t).Settled) →
    ∀ i, (l.kills i : Int) = l.entries i + (s.thread t).sigcount i

/-- The pass of `check_signal` that the thread has begun.  It waits there while a
handler runs. -/
def SignalThread.pass (th : SignalThread) : Option Nat :=
  match th.control with
  | .checking i | .stored i | .found i | .taken i => some i
  | .user | .leaving => if th.active then th.signalSavedContext else none

/-! ## the moves of one thread -/

/-- The flag, the handler and the saved context stay, and the thread stays in
`check_signal` or outside of it. -/
structure SignalThread.Keeps (th th' : SignalThread) : Prop where
  flag : th'.signalIsChecking = th.signalIsChecking
  active : th'.active = th.active
  saved : th'.signalSavedContext = th.signalSavedContext
  place : th'.control = th.control ∨ th.Outside ∧ th'.Outside

/-- What happens to the signals of one thread. -/
inductive SignalMove : SignalThread → Option SignalEvent → SignalThread → Prop
  | other {th th' : SignalThread} (h : th.Keeps th') (hq : th'.sigcount = th.sigcount) :
      SignalMove th none th'
  | kill {th th' : SignalThread} (i : Nat) (h : th.Keeps th')
      (hq : th'.sigcount = Function.update th.sigcount i (th.sigcount i + 1)) :
      SignalMove th (some (.kill i)) th'
  | begin {th : SignalThread} (hc : th.control = .leaving) (hf : th.signalIsChecking = false) :
      SignalMove th none { th with signalIsChecking := true, control := .checking 0 }
  | store {th : SignalThread} (i : Nat) (hc : th.control = .checking i) :
      SignalMove th none { th with signalSavedContext := some i, control := .stored i }
  | finish {th : SignalThread} (i : Nat) (hc : th.control = .checking i) (hi : ¬ i ≤ signalMax) :
      SignalMove th none { th with signalIsChecking := false, control := .user }
  | find {th : SignalThread} (i : Nat) (hc : th.control = .stored i) (hq : th.sigcount i > 0) :
      SignalMove th none { th with control := .found i }
  | skip {th : SignalThread} (i : Nat) (hc : th.control = .stored i) (hq : ¬ th.sigcount i > 0) :
      SignalMove th none { th with control := .checking (i + 1) }
  | take {th : SignalThread} (i : Nat) (hc : th.control = .found i) :
      SignalMove th none { th with
        sigcount := Function.update th.sigcount i (th.sigcount i - 1)
        control := .taken i }
  | enter {th : SignalThread} (i : Nat) (hc : th.control = .taken i) :
      SignalMove th (some (.enter i)) { th with
        control := .user
        active := true
        delivered := th.delivered + 1 }
  | sigreturn {th : SignalThread} (i : Nat) (ho : th.Outside) (ha : th.active = true)
      (hs : th.signalSavedContext = some i) :
      SignalMove th none { th with control := .stored i, active := false, resumed := th.resumed + 1 }

/-- The signal that was counted down and not delivered. -/
def SignalThread.inHand (th : SignalThread) (i : Nat) : Int := if th.control = .taken i then 1 else 0

/-- The counts agree with `sigcount`; the flag tells that a handler is active or
that the thread is in the loop; and the pass of the loop is the saved one. -/
structure Balanced (th : SignalThread) (l : SignalCounts) : Prop where
  balance : ∀ i, (l.kills i : Int) = l.entries i + th.sigcount i + th.inHand i
  nonneg : ∀ i, 0 ≤ th.sigcount i
  waiting : ∀ i, th.control = .found i → 0 < th.sigcount i
  outside : th.Outside → (th.signalIsChecking = true ↔ th.active = true)
  inside : ¬ th.Outside → th.signalIsChecking = true ∧ th.active = false
  saved : ∀ i, th.control = .stored i ∨ th.control = .found i ∨ th.control = .taken i →
    th.signalSavedContext = some i

section

variable {th th' : SignalThread} {l : SignalCounts} {e : Option SignalEvent} {i : Nat}

theorem SignalThread.Keeps.outside (h : th.Keeps th') : th'.Outside ↔ th.Outside := by
  cases h.place with
  | inl hc => rw [SignalThread.Outside, SignalThread.Outside, hc]
  | inr ho => exact iff_of_true ho.2 ho.1

theorem SignalThread.Keeps.pass (h : th.Keeps th') : th'.pass = th.pass := by
  cases h.place with
  | inl hc => rw [SignalThread.pass, SignalThread.pass, hc, h.active, h.saved]
  | inr ho =>
      have hout : ∀ {th : SignalThread}, th.Outside →
          th.pass = if th.active then th.signalSavedContext else none := fun ho => by
        cases ho with
        | inl hc => simp [SignalThread.pass, hc]
        | inr hc => simp [SignalThread.pass, hc]
      rw [hout ho.1, hout ho.2, h.active, h.saved]

/-- It stays in `run_signal` or outside of it. -/
theorem SignalThread.Keeps.taken (h : th.Keeps th') : th'.control = .taken i ↔ th.control = .taken i := by
  cases h.place with
  | inl hc => rw [hc]
  | inr ho =>
      have hout : ∀ {th : SignalThread}, th.Outside → th.control ≠ .taken i := fun ho hc => by
        cases ho with
        | inl hu => simp [hc] at hu
        | inr hl => simp [hc] at hl
      exact iff_of_false (hout ho.2) (hout ho.1)

theorem not_outside (hu : th.control ≠ .user) (hl : th.control ≠ .leaving) : ¬ th.Outside := fun ho =>
  ho.elim hu hl

/-- A thread that starts. -/
theorem SignalThread.Starts.balanced (h : th.Starts) : Balanced th .zero where
  balance i := by
    have hnot : th.control ≠ .taken i := fun hc => not_outside (by simp [hc]) (by simp [hc]) h.outside
    simp [SignalCounts.zero, h.sigcount i, SignalThread.inHand, hnot]
  nonneg i := (h.sigcount i).ge
  waiting i hc := absurd h.outside (not_outside (by simp [hc]) (by simp [hc]))
  outside _ := by simp [h.unchecked, h.inactive]
  inside ho := absurd h.outside ho
  saved i hc := by
    have hnot : ¬ th.Outside := not_outside (by grind) (by grind)
    exact absurd h.outside hnot

/-- A thread whose flag, handler and saved context stay, and whose counts do not go down. -/
theorem Balanced.keep {l' : SignalCounts} (h : Balanced th l) (hk : th.Keeps th')
    (hbalance : ∀ i, (l'.kills i : Int) = l'.entries i + th'.sigcount i + th.inHand i)
    (hle : ∀ i, th.sigcount i ≤ th'.sigcount i) : Balanced th' l' where
  balance i := by
    have hhand : th'.inHand i = th.inHand i := by
      simp only [SignalThread.inHand, hk.taken]
    rw [hhand]
    exact hbalance i
  nonneg i := (h.nonneg i).trans (hle i)
  waiting i hc := by
    cases hk.place with
    | inl hc' => exact (h.waiting i (hc'.symm.trans hc)).trans_le (hle i)
    | inr ho => exact absurd ho.2 (not_outside (by simp [hc]) (by simp [hc]))
  outside ho := by
    rw [hk.flag, hk.active]
    exact h.outside (hk.outside.1 ho)
  inside ho := by
    rw [hk.flag, hk.active]
    exact h.inside fun ho' => ho (hk.outside.2 ho')
  saved i hc := by
    rw [hk.saved]
    cases hk.place with
    | inl hc' =>
        rw [hc'] at hc
        exact h.saved i hc
    | inr ho => exact absurd ho.2 (not_outside (by grind) (by grind))

/-- Outside of `run_signal` every signal is counted or delivered. -/
theorem Balanced.settled (h : Balanced th l) (hs : th.Settled) (i : Nat) :
    (l.kills i : Int) = l.entries i + th.sigcount i := by
  have hbalance := h.balance i
  rwa [SignalThread.inHand, if_neg (hs i), add_zero] at hbalance

/-- A thread in the loop that goes on in it, with the signal in its hands counted. -/
theorem Balanced.go {l' : SignalCounts} (h : Balanced th l) (ho : ¬ th.Outside) (ho' : ¬ th'.Outside)
    (hflag : th'.signalIsChecking = th.signalIsChecking) (hactive : th'.active = th.active)
    (hbalance : ∀ i, (l'.kills i : Int) = l'.entries i + th'.sigcount i + th'.inHand i)
    (hnonneg : ∀ i, 0 ≤ th'.sigcount i) (hwaiting : ∀ i, th'.control = .found i → 0 < th'.sigcount i)
    (hsaved : ∀ i, th'.control = .stored i ∨ th'.control = .found i ∨ th'.control = .taken i →
      th'.signalSavedContext = some i) : Balanced th' l' where
  balance := hbalance
  nonneg := hnonneg
  waiting := hwaiting
  outside hout := absurd hout ho'
  inside _ := by
    rw [hflag, hactive]
    exact h.inside ho
  saved := hsaved

/-- Every move. -/
theorem Balanced.move (h : Balanced th l) (hm : SignalMove th e th') : Balanced th' (l.record e) := by
  cases hm with
  | other hk hq =>
      refine h.keep hk ?_ ?_
      · rw [hq]
        exact h.balance
      · rw [hq]
        exact fun i => le_rfl
  | kill i hk hq =>
      refine h.keep hk (fun j => ?_) fun j => ?_
      · have hj := h.balance j
        by_cases hji : j = i
        · subst hji
          simp only [SignalCounts.record, hq, Function.update_self]
          omega
        · simpa [SignalCounts.record, hq, hji] using hj
      · by_cases hji : j = i
        · subst hji
          simp only [hq, Function.update_self]
          omega
        · simp [hq, hji]
  | begin hc hf =>
      have hactive : th.active = false := by
        have hiff := h.outside (Or.inr hc)
        simpa [hf] using hiff
      have hbalance := h.settled fun j => by simp [hc]
      exact ⟨by simpa [SignalThread.inHand, SignalCounts.record] using hbalance, h.nonneg, by simp,
        fun ho => absurd ho (not_outside (by simp) (by simp)), fun _ => ⟨rfl, hactive⟩, by simp⟩
  | store i hc =>
      have hbalance := h.settled fun j => by simp [hc]
      exact h.go (not_outside (by simp [hc]) (by simp [hc])) (not_outside (by simp) (by simp)) rfl rfl
        (by simpa [SignalThread.inHand, SignalCounts.record] using hbalance) h.nonneg (by simp) (by simp)
  | finish i hc hi =>
      have hactive := (h.inside (not_outside (by simp [hc]) (by simp [hc]))).2
      have hbalance := h.settled fun j => by simp [hc]
      exact ⟨by simpa [SignalThread.inHand, SignalCounts.record] using hbalance, h.nonneg, by simp, fun _ => by simp [hactive],
        fun ho => absurd (Or.inl rfl) ho, by simp⟩
  | find i hc hq =>
      have hbalance := h.settled fun j => by simp [hc]
      have hsaved := h.saved i (Or.inl hc)
      exact h.go (not_outside (by simp [hc]) (by simp [hc])) (not_outside (by simp) (by simp)) rfl rfl
        (by simpa [SignalThread.inHand, SignalCounts.record] using hbalance) h.nonneg (by simpa using hq) (by simpa using hsaved)
  | skip i hc hq =>
      have hbalance := h.settled fun j => by simp [hc]
      exact h.go (not_outside (by simp [hc]) (by simp [hc])) (not_outside (by simp) (by simp)) rfl rfl
        (by simpa [SignalThread.inHand, SignalCounts.record] using hbalance) h.nonneg (by simp) (by simp)
  | take i hc =>
      have hwaits := h.waiting i hc
      have hsaved := h.saved i (Or.inr (Or.inl hc))
      refine h.go (not_outside (by simp [hc]) (by simp [hc])) (not_outside (by simp) (by simp)) rfl rfl
        (fun j => ?_) (fun j => ?_) (by simp) (by simpa using hsaved)
      · have hj := h.balance j
        simp only [SignalThread.inHand, hc] at hj
        by_cases hji : j = i
        · subst hji
          simp only [SignalCounts.record, SignalThread.inHand, Function.update_self, if_true]
          simp at hj
          omega
        · have hij : ¬ i = j := Ne.symm hji
          simpa [SignalCounts.record, SignalThread.inHand, hji, hij] using hj
      · have hj := h.nonneg j
        by_cases hji : j = i
        · subst hji
          simp only [Function.update_self]
          omega
        · simpa [hji] using hj
  | enter i hc =>
      have hflag := (h.inside (not_outside (by simp [hc]) (by simp [hc]))).1
      refine ⟨fun j => ?_, h.nonneg, by simp, fun _ => by simp [hflag], fun ho => absurd (Or.inl rfl) ho,
        by simp⟩
      have hj := h.balance j
      simp only [SignalThread.inHand, hc] at hj
      by_cases hji : j = i
      · subst hji
        simp only [SignalCounts.record, SignalThread.inHand, Function.update_self]
        simp at hj ⊢
        omega
      · have hij : ¬ i = j := Ne.symm hji
        simpa [SignalCounts.record, SignalThread.inHand, hji, hij] using hj
  | sigreturn i ho ha hs =>
      have hflag := (h.outside ho).2 ha
      have hbalance := h.settled fun j hc => not_outside (by simp [hc]) (by simp [hc]) ho
      exact ⟨by simpa [SignalThread.inHand, SignalCounts.record] using hbalance, h.nonneg, by simp,
        fun ho => absurd ho (not_outside (by simp) (by simp)), fun _ => ⟨hflag, rfl⟩, by simpa using hs⟩

/-- No handler is entered while one is active. -/
theorem Balanced.enter_inactive (h : Balanced th l) (hm : SignalMove th (some (.enter i)) th') :
    th.active = false := by
  cases hm with
  | enter i hc => exact (h.inside (not_outside (by simp [hc]) (by simp [hc]))).2

/-- The loop goes on to the next signal only when none waits. -/
theorem Balanced.pass_move (h : Balanced th l) (hm : SignalMove th e th') (hp : th.pass = some i)
    (hi : i ≤ signalMax) :
    th'.pass = some i ∨ th'.pass = some (i + 1) ∧ th.sigcount i = 0 := by
  cases hm with
  | other hk hq => exact Or.inl (hk.pass.trans hp)
  | kill j hk hq => exact Or.inl (hk.pass.trans hp)
  | begin hc hf =>
      have hactive : th.active = false := by
        have hiff := h.outside (Or.inr hc)
        simpa [hf] using hiff
      simp [SignalThread.pass, hc, hactive] at hp
  | store j hc =>
      have hj : j = i := by simpa [SignalThread.pass, hc] using hp
      exact Or.inl (congrArg some hj)
  | finish j hc hj =>
      have hji : j = i := by simpa [SignalThread.pass, hc] using hp
      exact absurd (hji ▸ hi) hj
  | find j hc hq =>
      have hj : j = i := by simpa [SignalThread.pass, hc] using hp
      exact Or.inl (congrArg some hj)
  | skip j hc hq =>
      have hj : j = i := by simpa [SignalThread.pass, hc] using hp
      subst hj
      have hnonneg := h.nonneg j
      exact Or.inr ⟨rfl, by omega⟩
  | take j hc =>
      have hj : j = i := by simpa [SignalThread.pass, hc] using hp
      exact Or.inl (congrArg some hj)
  | enter j hc =>
      have hj : j = i := by simpa [SignalThread.pass, hc] using hp
      exact Or.inl ((h.saved j (Or.inr (Or.inr hc))).trans (congrArg some hj))
  | sigreturn j ho ha hs =>
      have hj : j = i := by
        cases ho with
        | inl hc => simpa [SignalThread.pass, hc, ha, hs] using hp
        | inr hc => simpa [SignalThread.pass, hc, ha, hs] using hp
      exact Or.inl (congrArg some hj)

/-- It begins with the first signal. -/
theorem pass_begins (hm : SignalMove th e th') (hp : th.pass = none) (hp' : th'.pass = some i) : i = 0 := by
  cases hm with
  | other hk hq => simp [hk.pass, hp] at hp'
  | kill j hk hq => simp [hk.pass, hp] at hp'
  | begin hc hf => simpa [SignalThread.pass] using hp'.symm
  | store j hc => simp [SignalThread.pass, hc] at hp
  | finish j hc hj => simp [SignalThread.pass, hc] at hp
  | find j hc hq => simp [SignalThread.pass, hc] at hp
  | skip j hc hq => simp [SignalThread.pass, hc] at hp
  | take j hc => simp [SignalThread.pass, hc] at hp
  | enter j hc => simp [SignalThread.pass, hc] at hp
  | sigreturn j ho ha hs =>
      cases ho with
      | inl hc => simp [SignalThread.pass, hc, ha, hs] at hp
      | inr hc => simp [SignalThread.pass, hc, ha, hs] at hp

end

/-! ## one step -/

section

variable {s s' : Signals} {n t u : Nat} {f : SignalThread → SignalThread}

theorem SignalThread.Keeps.refl (th : SignalThread) : th.Keeps th := ⟨rfl, rfl, rfl, Or.inl rfl⟩

theorem thread_modify_other (h : t ≠ u) : (s.modify u f).thread t = s.thread t :=
  Function.update_of_ne h ..

theorem thread_modify_self : (s.modify t f).thread t = f (s.thread t) := Function.update_self ..

theorem modifyCurr_other (h : s.sched.currThread ≠ t) : (s.modifyCurr f).thread t = s.thread t :=
  thread_modify_other (Ne.symm h)

theorem modifyCurr_self (h : s.sched.currThread = t) : (s.modifyCurr f).thread t = f (s.thread t) := by
  subst h
  exact thread_modify_self

/-- A thread that does not change. -/
theorem signalMove_same (h : s'.thread t = s.thread t) : SignalMove (s.thread t) none (s'.thread t) := by
  rw [h]
  exact .other (.refl _) rfl

theorem onSched_thread {g : Sched → Option Sched} (h : s.onSched g = some s') : s'.thread = s.thread := by
  obtain ⟨sched, -, rfl⟩ := Option.map_eq_some_iff.1 h
  rfl

theorem onSched_move {g : Sched → Option Sched} (h : s.onSched g = some s') :
    SignalMove (s.thread t) none (s'.thread t) :=
  signalMove_same (congrFun (onSched_thread h) t)

/-- A thread that changes only other fields than those that a move is about. -/
theorem modifyCurr_move (hk : s.sched.currThread = t → (s.thread t).Keeps (f (s.thread t)))
    (hq : (f (s.thread t)).sigcount = (s.thread t).sigcount) :
    SignalMove (s.thread t) none ((s.modifyCurr f).thread t) := by
  by_cases ht : s.sched.currThread = t
  · rw [modifyCurr_self ht]
    exact .other (hk ht) hq
  · exact signalMove_same (modifyCurr_other ht)

/-- The thread goes on in `check_signal`. -/
theorem checkSignal_move
    (hreg : ∀ i, s.curr.control = .taken i → s.curr.signalHandler i ≠ s.defaultHandler)
    (hs : checkSignal n s = some s') :
    SignalMove s.curr (signalEvent s.sched.currThread s (n, .check)) (s'.thread s.sched.currThread) := by
  unfold checkSignal at hs
  cases hc : s.curr.control with
  | user => simp [hc] at hs
  | leaving =>
      simp only [hc, Option.some.injEq] at hs
      subst hs
      have hev : signalEvent s.sched.currThread s (n, .check) = none := by simp [signalEvent, hc]
      rw [modifyCurr_self rfl, hev]
      unfold SignalThread.enter
      by_cases hflag : s.curr.signalIsChecking = true
      · have hflag' : (s.thread s.sched.currThread).signalIsChecking = true := hflag
        rw [if_pos hflag']
        exact .other ⟨rfl, rfl, rfl, Or.inr ⟨Or.inr hc, Or.inl rfl⟩⟩ rfl
      · have hflag' : ¬ (s.thread s.sched.currThread).signalIsChecking = true := hflag
        rw [if_neg hflag']
        exact .begin hc (by simpa using hflag)
  | checking i =>
      simp only [hc, Option.some.injEq] at hs
      subst hs
      have hev : signalEvent s.sched.currThread s (n, .check) = none := by simp [signalEvent, hc]
      rw [modifyCurr_self rfl, hev]
      by_cases hi : i ≤ signalMax
      · rw [if_pos hi]
        exact .store i hc
      · rw [if_neg hi]
        exact .finish i hc hi
  | stored i =>
      simp only [hc, Option.some.injEq] at hs
      subst hs
      have hev : signalEvent s.sched.currThread s (n, .check) = none := by simp [signalEvent, hc]
      rw [modifyCurr_self rfl, hev]
      by_cases hq : (s.thread s.sched.currThread).sigcount i > 0
      · rw [if_pos hq]
        exact .find i hc hq
      · rw [if_neg hq]
        exact .skip i hc hq
  | found i =>
      simp only [hc, Option.some.injEq] at hs
      subst hs
      have hev : signalEvent s.sched.currThread s (n, .check) = none := by simp [signalEvent, hc]
      rw [modifyCurr_self rfl, hev]
      exact .take i hc
  | taken i =>
      have hne := hreg i hc
      have hev : signalEvent s.sched.currThread s (n, .check) = some (.enter i) := by
        simp [signalEvent, hc, hne]
      simp only [hc, if_neg hne, Option.some.injEq] at hs
      subst hs
      rw [modifyCurr_self rfl, hev]
      exact .enter i hc

/-- It does nothing to the other threads. -/
theorem checkSignal_other (ht : s.sched.currThread ≠ t) (hs : checkSignal n s = some s') :
    s'.thread t = s.thread t := by
  unfold checkSignal at hs
  cases hc : s.curr.control with
  | user => simp [hc] at hs
  | leaving =>
      simp only [hc, Option.some.injEq] at hs
      rw [← hs, modifyCurr_other ht]
  | checking i =>
      simp only [hc, Option.some.injEq] at hs
      rw [← hs, modifyCurr_other ht]
  | stored i =>
      simp only [hc, Option.some.injEq] at hs
      rw [← hs, modifyCurr_other ht]
  | found i =>
      simp only [hc, Option.some.injEq] at hs
      rw [← hs, modifyCurr_other ht]
  | taken i =>
      simp only [hc] at hs
      split at hs
      · rw [onSched_thread hs, modifyCurr_other ht]
      · rw [← Option.some.inj hs, modifyCurr_other ht]

/-- A call, from the way out of user mode on. -/
theorem handle_move {c : UserCall} (halive : s.sched.status t ≠ .free)
    (hout : s.sched.currThread = t → (s.thread t).control = .leaving)
    (hsigreturn : s.sched.currThread = t → c = .sigreturn → (s.thread t).active = true)
    (hexec : s.sched.currThread = t → c = .exec → (s.thread t).active = false)
    (hs : c.handle n s = some s') :
    SignalMove (s.thread t) (signalEvent t s (n, .call c)) (s'.thread t) := by
  cases c with
  | other =>
      obtain rfl := Option.some.inj hs
      exact signalMove_same rfl
  | exec =>
      obtain rfl := Option.some.inj hs
      exact modifyCurr_move (fun ht => ⟨rfl, (hexec ht rfl).symm, rfl, Or.inl rfl⟩) rfl
  | fork =>
      obtain ⟨r, hr, rfl⟩ := Option.map_eq_some_iff.1 hs
      have hne : t ≠ r.1 := fun ht => halive (ht ▸ (threadCreate_spec hr).1)
      exact signalMove_same (thread_modify_other hne)
  | exit =>
      simp only [UserCall.handle] at hs
      exact onSched_move hs
  | kill pid =>
      simp only [UserCall.handle] at hs
      exact onSched_move hs
  | fault =>
      simp only [UserCall.handle] at hs
      exact onSched_move hs
  | tick =>
      simp only [UserCall.handle] at hs
      exact onSched_move hs
  | signalRegister signal handler =>
      obtain rfl := Option.some.inj hs
      unfold registerSignal
      by_cases hsig : signal > signalMax ∨ signal < 0
      · rw [if_pos hsig]
        exact signalMove_same rfl
      · rw [if_neg hsig]
        exact modifyCurr_move (fun _ => ⟨rfl, rfl, rfl, Or.inl rfl⟩) rfl
  | signalKill pid signal =>
      simp only [UserCall.handle, killSignal] at hs
      by_cases hpid : pid > maxThreadCount ∨ pid < 0 ∨ s.sched.status pid.toNat = .free
      · rw [if_pos hpid] at hs
        obtain rfl := Option.some.inj hs
        have hev : signalEvent t s (n, .call (.signalKill pid signal)) = none := by
          simp [signalEvent, killCounts, hpid]
        rw [hev]
        exact signalMove_same rfl
      · rw [if_neg hpid] at hs
        by_cases hsig : signal < 0 ∨ signal > signalMax
        · simp [hsig] at hs
        rw [if_neg hsig] at hs
        obtain rfl := Option.some.inj hs
        by_cases ht : pid.toNat = t
        · have hev : signalEvent t s (n, .call (.signalKill pid signal)) = some (.kill signal.toNat) :=
            if_pos ⟨ht, hpid⟩
          rw [ht, thread_modify_self, hev]
          exact .kill signal.toNat ⟨rfl, rfl, rfl, Or.inl rfl⟩ rfl
        · have hev : signalEvent t s (n, .call (.signalKill pid signal)) = none :=
            if_neg fun hp => ht hp.1
          rw [hev]
          exact signalMove_same (thread_modify_other (Ne.symm ht))
  | sigreturn =>
      obtain ⟨i, hi, rfl⟩ := Option.map_eq_some_iff.1 hs
      by_cases ht : s.sched.currThread = t
      · rw [modifyCurr_self ht]
        have hsaved : (s.thread t).signalSavedContext = some i := ht ▸ hi
        exact .sigreturn i (Or.inr (hout ht)) (hsigreturn ht rfl) hsaved
      · exact signalMove_same (modifyCurr_other ht)

/-- Every step is a move of the thread, which may leave user mode before. -/
theorem signalStep_move {a : Nat × SignalAct} (hg : Handles t s a) (hs : signalStep s a = some s') :
    ∃ th, (s.thread t).Keeps th ∧ th.sigcount = (s.thread t).sigcount ∧
      SignalMove th (signalEvent t s a) (s'.thread t) := by
  obtain ⟨n, a⟩ := a
  have hstay : ∀ {e}, SignalMove (s.thread t) e (s'.thread t) → ∃ th, (s.thread t).Keeps th ∧
      th.sigcount = (s.thread t).sigcount ∧ SignalMove th e (s'.thread t) :=
    fun hm => ⟨_, .refl _, rfl, hm⟩
  cases a with
  | call c =>
      simp only [signalStep] at hs
      by_cases hc : s.sched.currThread ≠ 0 ∧ s.curr.control = .user
      · rw [if_pos hc] at hs
        have hevent : signalEvent t (s.modifyCurr SignalThread.leave) (n, .call c) =
            signalEvent t s (n, .call c) := by cases c <;> rfl
        rw [← hevent]
        by_cases ht : s.sched.currThread = t
        · have hth : (s.modifyCurr SignalThread.leave).thread t = (s.thread t).leave := modifyCurr_self ht
          have hu : (s.thread t).control = .user := ht ▸ hc.2
          refine ⟨(s.modifyCurr SignalThread.leave).thread t, ?_, ?_, handle_move hg.alive ?_ ?_ ?_ hs⟩
          · rw [hth]
            exact ⟨rfl, rfl, rfl, Or.inr ⟨Or.inl hu, Or.inr rfl⟩⟩
          · rw [hth]
            rfl
          · rw [hth]
            exact fun _ => rfl
          · rw [hth]
            exact fun _ hcall => hg.sigreturn ht (by rw [hcall])
          · rw [hth]
            exact fun _ hcall => hg.exec ht (by rw [hcall])
        · have hth : (s.modifyCurr SignalThread.leave).thread t = s.thread t := modifyCurr_other ht
          have hmove := handle_move (s := s.modifyCurr SignalThread.leave) hg.alive
            (fun ht' => absurd ht' ht) (fun ht' => absurd ht' ht) (fun ht' => absurd ht' ht) hs
          rw [hth] at hmove
          exact hstay hmove
      · simp [hc] at hs
  | check =>
      simp only [signalStep] at hs
      by_cases h0 : s.sched.currThread ≠ 0
      · rw [if_pos h0] at hs
        by_cases ht : s.sched.currThread = t
        · subst ht
          exact hstay (checkSignal_move (fun i => hg.registered rfl rfl i) hs)
        · have hev : signalEvent t s (n, .check) = none := by
            simp only [signalEvent]
            cases s.curr.control <;> simp [ht]
          rw [hev]
          exact hstay (signalMove_same (checkSignal_other ht hs))
      · simp [h0] at hs
  | preempt =>
      simp only [signalStep] at hs
      by_cases hc : s.curr.control ≠ .user
      · rw [if_pos hc] at hs
        exact hstay (onSched_move hs)
      · simp [hc] at hs
  | killZombies =>
      simp only [signalStep] at hs
      by_cases h0 : s.sched.currThread = 0
      · rw [if_pos h0] at hs
        exact hstay (onSched_move hs)
      · simp [h0] at hs

end

/-! ## runs -/

section

variable {s s' : Signals} {l : SignalCounts} {n t i : Nat} {a : Nat × SignalAct}

/-- Every step of a thread that handles its signals, and of all others. -/
theorem Balanced.step (h : Balanced (s.thread t) l) (hg : Handles t s a) (hs : signalStep s a = some s') :
    Balanced (s'.thread t) (l.record (signalEvent t s a)) := by
  obtain ⟨th, hk, hq, hm⟩ := signalStep_move hg hs
  have hkept : Balanced th l := h.move (.other hk hq)
  exact hkept.move hm

/-- A thread that is in `run_signal` runs, and is not the idle thread. -/
def InHands (t : Nat) (s : Signals) : Prop := ¬ (s.thread t).Settled → s.sched.currThread = t ∧ t ≠ 0

/-- A thread comes to `run_signal` from the section that counts down. -/
theorem SignalMove.taken {th th' : SignalThread} {e : Option SignalEvent} (hm : SignalMove th e th')
    (hc : th'.control = .taken i) : th.control = .taken i ∨ th.control = .found i := by
  cases hm with
  | other hk hq => exact Or.inl (hk.taken.1 hc)
  | kill j hk hq => exact Or.inl (hk.taken.1 hc)
  | begin hc' hf => simp at hc
  | store j hc' => simp at hc
  | finish j hc' hj => simp at hc
  | find j hc' hq => simp at hc
  | skip j hc' hq => simp at hc
  | take j hc' =>
      obtain rfl : j = i := by simpa using hc
      exact Or.inr hc'
  | enter j hc' => simp at hc
  | sigreturn j ho ha hs => simp at hc

/-- `check_signal` of a thread with its handlers leads to no other thread. -/
theorem checkSignal_sched
    (hreg : ∀ i, s.curr.control = .taken i → s.curr.signalHandler i ≠ s.defaultHandler)
    (hs : checkSignal n s = some s') : s'.sched = s.sched := by
  unfold checkSignal at hs
  cases hc : s.curr.control with
  | user => simp [hc] at hs
  | leaving =>
      simp only [hc, Option.some.injEq] at hs
      rw [← hs, sched_modifyCurr]
  | checking i =>
      simp only [hc, Option.some.injEq] at hs
      rw [← hs, sched_modifyCurr]
  | stored i =>
      simp only [hc, Option.some.injEq] at hs
      rw [← hs, sched_modifyCurr]
  | found i =>
      simp only [hc, Option.some.injEq] at hs
      rw [← hs, sched_modifyCurr]
  | taken i =>
      simp only [hc, if_neg (hreg i hc), Option.some.injEq] at hs
      rw [← hs, sched_modifyCurr]

theorem handle_stays {c : UserCall} (halive : s.sched.status t ≠ .free) (ht : s.sched.currThread ≠ t)
    (hs : c.handle n s = some s') : (s'.thread t).control = (s.thread t).control := by
  have hsched : ∀ {g : Sched → Option Sched}, s.onSched g = some s' →
      (s'.thread t).control = (s.thread t).control := fun h => by rw [onSched_thread h]
  cases c with
  | other => rw [← Option.some.inj hs]
  | exec =>
      obtain rfl := Option.some.inj hs
      rw [execSignals, modifyCurr_other ht]
  | fork =>
      obtain ⟨r, hr, rfl⟩ := Option.map_eq_some_iff.1 hs
      have hne : t ≠ r.1 := fun ht => halive (ht ▸ (threadCreate_spec hr).1)
      exact congrArg SignalThread.control (thread_modify_other hne)
  | exit =>
      simp only [UserCall.handle] at hs
      exact hsched hs
  | kill pid => exact hsched hs
  | fault => exact hsched hs
  | tick => exact hsched hs
  | signalRegister signal handler =>
      obtain rfl := Option.some.inj hs
      unfold registerSignal
      split
      · rfl
      · rw [modifyCurr_other ht]
  | signalKill pid signal =>
      simp only [UserCall.handle, killSignal] at hs
      split at hs
      · rw [← Option.some.inj hs]
      · split at hs
        · contradiction
        · obtain rfl := Option.some.inj hs
          by_cases hp : pid.toNat = t
          · rw [hp, thread_modify_self]
          · rw [thread_modify_other (Ne.symm hp)]
  | sigreturn =>
      obtain ⟨i, -, rfl⟩ := Option.map_eq_some_iff.1 hs
      rw [modifyCurr_other ht]

/-- A thread that does not run stays where it is. -/
theorem signalStep_stays (halive : s.sched.status t ≠ .free) (ht : s.sched.currThread ≠ t)
    (hs : signalStep s a = some s') : (s'.thread t).control = (s.thread t).control := by
  obtain ⟨n, a⟩ := a
  have hsched : ∀ {g : Sched → Option Sched}, s.onSched g = some s' →
      (s'.thread t).control = (s.thread t).control := fun h => by rw [onSched_thread h]
  cases a with
  | call c =>
      simp only [signalStep] at hs
      by_cases hc : s.sched.currThread ≠ 0 ∧ s.curr.control = .user
      · rw [if_pos hc] at hs
        have hth : (s.modifyCurr SignalThread.leave).thread t = s.thread t := modifyCurr_other ht
        rw [handle_stays (s := s.modifyCurr SignalThread.leave) halive ht hs, hth]
      · simp [hc] at hs
  | check =>
      simp only [signalStep] at hs
      by_cases h0 : s.sched.currThread ≠ 0
      · rw [if_pos h0] at hs
        rw [checkSignal_other ht hs]
      · simp [h0] at hs
  | preempt =>
      simp only [signalStep] at hs
      by_cases hc : s.curr.control ≠ .user
      · rw [if_pos hc] at hs
        exact hsched hs
      · simp [hc] at hs
  | killZombies =>
      simp only [signalStep] at hs
      by_cases h0 : s.sched.currThread = 0
      · rw [if_pos h0] at hs
        exact hsched hs
      · simp [h0] at hs

/-- A step that is good leaves no other thread in `run_signal`. -/
theorem InHands.step (h : InHands t s) (hg : Handles t s a) (hu : Uninterrupted t s a)
    (hs : signalStep s a = some s') : InHands t s' := by
  intro hn
  obtain ⟨i, hi⟩ : ∃ i, (s'.thread t).control = .taken i := by
    simpa [SignalThread.Settled] using hn
  have htaken : (s.thread t).control = .taken i → s.sched.currThread = t ∧ t ≠ 0 := fun hc =>
    h fun hsettled => hsettled i hc
  by_cases ht : s.sched.currThread = t
  case neg => exact absurd (htaken ((signalStep_stays hg.alive ht hs).symm.trans hi)).1 ht
  obtain ⟨n, a⟩ := a
  cases a with
  | call c =>
      obtain ⟨th, hk, -, hm⟩ := signalStep_move hg hs
      simp only [signalStep] at hs
      by_cases hc : s.sched.currThread ≠ 0 ∧ s.curr.control = .user
      · have hout : th.Outside := hk.outside.2 (Or.inl (ht ▸ hc.2))
        cases hm.taken hi with
        | inl hc' => exact absurd hout (not_outside (by simp [hc']) (by simp [hc']))
        | inr hc' => exact absurd hout (not_outside (by simp [hc']) (by simp [hc']))
      · simp [hc] at hs
  | check =>
      subst ht
      simp only [signalStep] at hs
      by_cases h0 : s.sched.currThread ≠ 0
      · rw [if_pos h0] at hs
        rw [checkSignal_sched (fun j => hg.registered rfl rfl j) hs]
        exact ⟨rfl, h0⟩
      · simp [h0] at hs
  | preempt =>
      have hsettled := hu rfl ht
      simp only [signalStep] at hs
      by_cases hc : s.curr.control ≠ .user
      · rw [if_pos hc] at hs
        rw [onSched_thread hs] at hi
        exact absurd hi (hsettled i)
      · simp [hc] at hs
  | killZombies =>
      simp only [signalStep] at hs
      by_cases h0 : s.sched.currThread = 0
      · rw [if_pos h0] at hs
        rw [onSched_thread hs] at hi
        exact absurd (ht.symm.trans h0) (htaken hi).2
      · simp [h0] at hs

theorem Balanced.conserved (h : Balanced (s.thread t) l) (hh : InHands t s) : SignalsConserved t s l := by
  intro hrun
  refine h.settled ?_
  by_contra hn
  exact hn (hrun (hh hn).1)

/-- A timer interrupt between the count and the handler that leads to another thread. -/
theorem Balanced.disturbed (h : Balanced (s.thread t) l) (hu : ¬ Uninterrupted t s a)
    (hs : signalStep s a = some s') :
    SignalsConserved t s' (l.record (signalEvent t s a)) ↔ s'.sched.currThread = t := by
  obtain ⟨n, a⟩ := a
  simp only [Uninterrupted, Classical.not_imp] at hu
  obtain ⟨rfl, ht, hn⟩ := hu
  have hth : s'.thread t = s.thread t := by
    simp only [signalStep] at hs
    split at hs
    · rw [onSched_thread hs]
    · contradiction
  have hev : signalEvent t s (n, .preempt) = none := rfl
  rw [SignalsConserved, hth, hev]
  refine ⟨fun hcons => ?_, fun ht' hsettled => absurd (hsettled ht') hn⟩
  by_contra ht'
  obtain ⟨i, hi⟩ : ∃ i, (s.thread t).control = .taken i := by
    simpa [SignalThread.Settled] using hn
  have hbalance := h.balance i
  have hi' : (l.kills i : Int) = l.entries i + (s.thread t).sigcount i := hcons (fun h' => absurd h' ht') i
  rw [SignalThread.inHand, if_pos hi] at hbalance
  omega

/-- In every run in which a thread starts without signals, has a handler for those
that it gets, ends every handler in one `sigreturn` and none in `exec`, and is not
interrupted between the count and the handler: each signal was sent as often as its
handler was entered and it is still counted, which is never less than zero; no handler
is entered while one is active; and `check_signal` begins with the first signal and
goes on to the next only when none is counted.  An interrupt there ends that when it
leads to another thread. -/
theorem signalRun_conserves {t : Nat} {s₀ s : Signals} {l : SignalCounts} (hstart : (s₀.thread t).Starts)
    (hr : Reach (countedStep t) (fun p a => Handles t p.1 a ∧ Uninterrupted t p.1 a) (s₀, .zero) (s, l)) :
    SignalsConserved t s l ∧
      (∀ i, 0 ≤ (s.thread t).sigcount i) ∧
      ∀ a s', Handles t s a → signalStep s a = some s' →
        (SignalsConserved t s' (l.record (signalEvent t s a)) ↔
          Uninterrupted t s a ∨ s'.sched.currThread = t) ∧
        (∀ i, signalEvent t s a = some (.enter i) → (s.thread t).active = false) ∧
        (∀ i, (s.thread t).pass = none → (s'.thread t).pass = some i → i = 0) ∧
        ∀ i ≤ signalMax, (s.thread t).pass = some i →
          (s'.thread t).pass = some i ∨ (s'.thread t).pass = some (i + 1) ∧ (s.thread t).sigcount i = 0 := by
  have hboth : Balanced (s.thread t) l ∧ InHands t s := by
    refine hr.inv (I := fun p => Balanced (p.1.thread t) p.2 ∧ InHands t p.1)
      ⟨hstart.balanced, fun hn => absurd hstart.outside ?_⟩ ?_
    · obtain ⟨i, hi⟩ : ∃ i, (s₀.thread t).control = .taken i := by
        simpa [SignalThread.Settled] using hn
      exact not_outside (by simp [hi]) (by simp [hi])
    · intro p a p' hb hg hstep
      obtain ⟨s', hs', rfl⟩ := Option.map_eq_some_iff.1 hstep
      exact ⟨hb.1.step hg.1 hs', hb.2.step hg.1 hg.2 hs'⟩
  obtain ⟨hinv, hhands⟩ := hboth
  refine ⟨hinv.conserved hhands, hinv.nonneg, fun a s' hg hs => ?_⟩
  obtain ⟨th, hk, hq, hm⟩ := signalStep_move hg hs
  have hkept : Balanced th l := hinv.move (.other hk hq)
  refine ⟨?_, fun i he => ?_, fun i hp hp' => ?_, fun i hi hp => ?_⟩
  · by_cases hu : Uninterrupted t s a
    · exact iff_of_true ((hinv.step hg hs).conserved (hhands.step hg hu hs)) (Or.inl hu)
    · rw [hinv.disturbed hu hs]
      exact (or_iff_right hu).symm
  · rw [he] at hm
    rw [← hk.active]
    exact hkept.enter_inactive hm
  · exact pass_begins hm (hk.pass.trans hp) hp'
  · rw [← hq]
    exact hkept.pass_move hm (hk.pass.trans hp) hi

end

/-! ## a signal on its way -/

theorem signalBoot_starts : ((signalBoot 1).thread 1).Starts :=
  ⟨Or.inl rfl, rfl, rfl, fun i => ite_self (c := i < signalMax) (0 : Int)⟩

/-- The first thread registers a handler for signal 0, sends itself the signal and gets
it, and its handler comes back. -/
theorem signalRun_conserves_delivery : ∃ s l,
    run (countedStep 1) (signalBoot 1, .zero) (delivery ++ handled) = some (s, l) ∧
    l.kills 0 = 1 ∧ l.entries 0 = 1 ∧ (s.thread 1).resumed = 1 ∧
    SignalsConserved 1 s l ∧
      (∀ i, 0 ≤ (s.thread 1).sigcount i) ∧
      ∀ a s', Handles 1 s a → signalStep s a = some s' →
        (SignalsConserved 1 s' (l.record (signalEvent 1 s a)) ↔
          Uninterrupted 1 s a ∨ s'.sched.currThread = 1) ∧
        (∀ i, signalEvent 1 s a = some (.enter i) → (s.thread 1).active = false) ∧
        (∀ i, (s.thread 1).pass = none → (s'.thread 1).pass = some i → i = 0) ∧
        ∀ i ≤ signalMax, (s.thread 1).pass = some i →
          (s'.thread 1).pass = some i ∨ (s'.thread 1).pass = some (i + 1) ∧ (s.thread 1).sigcount i = 0 := by
  have hrun : ((run (countedStep 1) (signalBoot 1, .zero) (delivery ++ handled)).map fun p =>
      decide (p.2.kills 0 = 1 ∧ p.2.entries 0 = 1 ∧ (p.1.thread 1).resumed = 1)) = some true := by
    decide +kernel
  obtain ⟨⟨s, l⟩, hs, hdec⟩ := Option.map_eq_some_iff.1 hrun
  obtain ⟨hkills, hentries, hresumed⟩ := of_decide_eq_true hdec
  have hr : Reach (countedStep 1) (fun p a => Handles 1 p.1 a ∧ Uninterrupted 1 p.1 a)
      (signalBoot 1, .zero) (s, l) := .of_always .init (by decide +kernel) hs
  exact ⟨s, l, hs, hkills, hentries, hresumed, signalRun_conserves signalBoot_starts hr⟩

/-- The same, with a timer interrupt in front of the handler. -/
def disturbed : List (Nat × SignalAct) :=
  called (.signalRegister 0 2) :: checkAll ++ called (.signalKill 1 0) :: checks 4 ++ [(10, .preempt)]

/-- The signal is neither counted nor delivered while another thread runs. -/
theorem signalRun_disturbed : ∃ s l,
    Reach (countedStep 1) (fun p a => Handles 1 p.1 a) (signalBoot 1, .zero) (s, l) ∧
    s.sched.currThread = 0 ∧ l.kills 0 = 1 ∧ l.entries 0 = 0 ∧ (s.thread 1).sigcount 0 = 0 ∧
    ¬ SignalsConserved 1 s l := by
  have hrun : ((run (countedStep 1) (signalBoot 1, .zero) disturbed).map fun p =>
      decide (p.1.sched.currThread = 0 ∧ p.2.kills 0 = 1 ∧ p.2.entries 0 = 0 ∧
        (p.1.thread 1).sigcount 0 = 0)) = some true := by
    decide +kernel
  obtain ⟨⟨s, l⟩, hs, hdec⟩ := Option.map_eq_some_iff.1 hrun
  obtain ⟨hidle, hkills, hentries, hcount⟩ := of_decide_eq_true hdec
  have hr : Reach (countedStep 1) (fun p a => Handles 1 p.1 a) (signalBoot 1, .zero) (s, l) :=
    .of_always .init (by decide +kernel) hs
  refine ⟨s, l, hr, hidle, hkills, hentries, hcount, fun hcons => ?_⟩
  have hzero := hcons (fun ht => absurd (hidle.symm.trans ht) (by decide)) 0
  rw [hkills, hentries, hcount] at hzero
  exact absurd hzero (by decide)

end RpiKernel
