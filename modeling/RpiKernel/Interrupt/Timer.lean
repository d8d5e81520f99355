import RpiKernel.Interrupt.IrqTask
import RpiKernel.Lib.Runs

/-!
# RpiKernel.Interrupt.Timer

The timer events of `timer.c`: a list between two sentinels, in order of the
time they are due.  `core_timer_handler` calls the callback of the first event
while the event is still linked, and the callback may call `add_timer`; the two
halves of the handler are two steps here, and `add_timer` may come between them
(`timerRun_linked`).
-/

namespace RpiKernel

open Sentinel Runs

/-! ## the model -/

/-- What was last written to the compare register: a tick to `cntp_cval_el0`, or
a number of ticks from now to `cntp_tval_el0`. -/
inductive Armed where
  | byTick (tick : Nat)
  | relative (ticks : Nat)
deriving DecidableEq, Repr

inductive TimerLog where
  | add (number : Nat)
  | call (number : Nat)
deriving DecidableEq, Repr

/-- The events, field by field and by address, and the variables of `timer.c`.
`live` are the blocks that `kmalloc` has given out, `calls` counts them, `number`
tells the events apart, and `running` is the event whose callback runs. -/
structure Timers where
  next : Nat → Option Nat
  prev : Nat → Option Nat
  interruptTime : Nat → Nat
  callback : Nat → Nat
  args : Nat → Nat
  number : Nat → Nat
  timerHead : Nat
  timerTail : Nat
  armed : Armed
  running : Option Nat
  live : List Nat
  calls : Nat
  log : List TimerLog

/-- A call of `add_timer`, and what the counter reads at that time. -/
structure AddTimer where
  callback : Nat
  timeout : Nat
  bytick : Bool
  cntpct : Nat
deriving DecidableEq, Repr

/-- A step: `add_timer`, `core_timer_handler` up to the callback, and the rest of
it after the callback has returned. -/
inductive TimerStep where
  | addTimer (c : AddTimer)
  | coreTimerHandler
  | callbackReturns
deriving DecidableEq, Repr

/-- `get_tick_plus_s`. -/
def getTickPlusS (cntfrq cntpct second : Nat) : Nat := (cntpct + cntfrq * second) % 2 ^ 64

/-- `schedule_timer`, registered at `callback`, calls `add_timer` for itself. -/
def scheduleTimer (cntfrq callback cntpct : Nat) : AddTimer := ⟨callback, cntfrq >>> 5, true, cntpct⟩

/-- The time the event is due. -/
def AddTimer.interruptTime (cntfrq : Nat) (c : AddTimer) : Nat :=
  if c.bytick then (getTickPlusS cntfrq c.cntpct 0 + c.timeout) % 2 ^ 64
  else getTickPlusS cntfrq c.cntpct c.timeout

namespace Timers

/-- `is_timer_list_empty`. -/
def isTimerListEmpty (s : Timers) : Prop := s.next s.timerHead = some s.timerTail

instance (s : Timers) : Decidable s.isTimerListEmpty := inferInstanceAs (Decidable (_ = _))

/-- `kfree`. -/
def kfree (s : Timers) (a : Nat) : Timers := { s with live := s.live.filter fun b => b ≠ a }

section

-- the address that the `n`-th call of `kmalloc` returns while `live` is given out, and `cntfrq_el0`
variable (kmalloc : Nat → List Nat → Nat) (cntfrq : Nat)

/-- A block from `kmalloc`. -/
def alloc (s : Timers) : Nat × Timers :=
  let a := kmalloc s.calls s.live
  (a, { s with live := a :: s.live, calls := s.calls + 1 })

/-- `timer_list_init`. -/
def timerListInit (s : Timers) : Timers :=
  let (head, s) := s.alloc kmalloc
  let (tail, s) := s.alloc kmalloc
  { s with
    timerHead := head
    timerTail := tail
    next := Function.update (Function.update s.next head (some tail)) tail (some tail)
    prev := Function.update (Function.update s.prev head (some head)) tail (some head)
    interruptTime := Function.update (Function.update s.interruptTime head 0) tail (2 ^ 64 - 1) }

/-- `add_timer` links the event in behind `current`. -/
def linkAfter (s : Timers) (current new next : Nat) : Timers :=
  let s := { s with next := Function.update s.next new (some next) }
  let s := { s with prev := Function.update s.prev new (some current) }
  let s := { s with prev := Function.update s.prev next (some new) }
  { s with next := Function.update s.next current (some new) }

/-- `add_timer`. -/
def addTimer (c : AddTimer) (s : Timers) : Option Timers := do
  let number := s.calls
  let (new, s) := s.alloc kmalloc
  let (args, s) := s.alloc kmalloc
  let time := c.interruptTime cntfrq
  let s := { s with
    args := Function.update s.args new args
    interruptTime := Function.update s.interruptTime new time
    callback := Function.update s.callback new c.callback
    number := Function.update s.number new number }
  let current ← seek s.next (fun next => next = s.timerTail ∨ s.interruptTime next > time) s.live.length
    s.timerHead
  let next ← s.next current
  let s := s.linkAfter current new next
  return { s with
    armed := if s.next s.timerHead = some new then .byTick time else s.armed
    log := s.log ++ [.add number] }

/-- `core_timer_handler`, up to the callback of the first event. -/
def coreTimerHandler (s : Timers) : Option Timers :=
  if s.isTimerListEmpty then some { s with armed := .relative (cntfrq * 10000) }
  else do
    let event ← s.next s.timerHead
    return { s with running := some event, log := s.log ++ [.call (s.number event)] }

/-- `timer_event_callback` after the callback has returned. -/
def timerEventCallback (event : Nat) (s : Timers) : Option Timers := do
  let prev ← s.prev event
  let next ← s.next event
  let s := { s with next := Function.update s.next prev (some next) }
  let s := { s with prev := Function.update s.prev next (some prev) }
  let s := (s.kfree (s.args event)).kfree event
  let s := { s with running := none }
  if s.isTimerListEmpty then return { s with armed := .relative (cntfrq * 10000) }
  else return { s with armed := .byTick (s.interruptTime (← s.next s.timerHead)) }

/-- Interrupts are masked while a callback runs, so that the handler does not
run again before it has returned. -/
def step (s : Timers) : TimerStep → Option Timers
  | .addTimer c => s.addTimer kmalloc cntfrq c
  | .coreTimerHandler => if s.running = none then s.coreTimerHandler cntfrq else none
  | .callbackReturns => s.running.bind fun event => s.timerEventCallback cntfrq event

end

/-! ## what is asked of a run -/

/-- The events that were added. -/
def added (log : List TimerLog) : List Nat :=
  log.filterMap fun e => match e with
    | .add number => some number
    | .call _ => none

/-- The events whose callback was called. -/
def called (log : List TimerLog) : List Nat :=
  log.filterMap fun e => match e with
    | .call number => some number
    | .add _ => none

/-- `b` is due after `a`, or was added after it for the same time. -/
def Sooner (s : Timers) (a b : Nat) : Prop :=
  s.interruptTime a < s.interruptTime b ∨ s.interruptTime a = s.interruptTime b ∧ s.number a < s.number b

/-- The events `xs` are pending, in this order.  Every event that was added is
pending, or its callback was called once; the one whose callback runs is both. -/
structure Pending (s : Timers) (xs : List Nat) : Prop where
  linked : Between s.next s.prev s.timerHead s.timerTail xs
  sorted : xs.Pairwise s.Sooner
  distinct : (added s.log).Nodup
  accounted : (added s.log ++ s.running.toList.map s.number).Perm (called s.log ++ xs.map s.number)
  running : ∀ event ∈ s.running, event ∈ xs
  armed : s.running = none → ∀ x ∈ xs.head?, s.armed = .byTick (s.interruptTime x)

/-- What keeps it so: the records and their arguments are blocks of their own. -/
structure Good (s : Timers) (xs : List Nat) : Prop extends Pending s xs where
  live : ∀ a ∈ s.timerHead :: (xs ++ [s.timerTail]) ++ xs.map s.args, a ∈ s.live
  nodup : (s.timerHead :: (xs ++ [s.timerTail]) ++ xs.map s.args).Nodup
  numbers : ∀ a ∈ xs, s.number a < s.calls
  logged : ∀ i ∈ added s.log, i < s.calls

variable {s s' : Timers} {x y event : Nat} {xs ys zs : List Nat} {kmalloc : Nat → List Nat → Nat}
  {cntfrq : Nat} {c : AddTimer}

theorem added_append (l l' : List TimerLog) : added (l ++ l') = added l ++ added l' := List.filterMap_append

theorem called_append (l l' : List TimerLog) : called (l ++ l') = called l ++ called l' :=
  List.filterMap_append

/-! ## `add_timer` -/

/-- The new event at `x`, with its arguments at `y`. -/
structure Added (x y t : Nat) (xs : List Nat) (s s' : Timers) : Prop where
  linked : Between s'.next s'.prev s.timerHead s.timerTail (place s.interruptTime t x xs)
  interruptTime : s'.interruptTime = Function.update s.interruptTime x t
  args : s'.args = Function.update s.args x y
  number : s'.number = Function.update s.number x s.calls
  timerHead : s'.timerHead = s.timerHead
  timerTail : s'.timerTail = s.timerTail
  armed : s'.armed = if s'.next s.timerHead = some x then .byTick t else s.armed
  running : s'.running = s.running
  live : s'.live = y :: x :: s.live
  calls : s'.calls = s.calls + 2
  log : s'.log = s.log ++ [.add s.calls]

/-- Where the walk of `add_timer` stops. -/
theorem seek_place {n t : Nat} (hb : Between s.next s.prev s.timerHead s.timerTail xs) (hx : x ∉ xs)
    (hn : xs.length < n) :
    seek s.next (fun next => next = s.timerTail ∨ Function.update s.interruptTime x t next > t) n
      s.timerHead = some (lastOf s.timerHead (xs.takeWhile fun y => s.interruptTime y ≤ t)) := by
  have hseek := Between.seek (fun next => next = s.timerTail ∨ Function.update s.interruptTime x t next > t)
    (show Between s.next s.prev s.timerHead s.timerTail ([] ++ xs) from hb) (Or.inl rfl) hn
  rw [lastOf_nil, List.nil_append] at hseek
  rw [hseek]
  congr 2
  refine takeWhile_congr fun y hy => ?_
  have hyx : y ≠ x := fun he => hx (he ▸ hy)
  have hyt : y ≠ s.timerTail := fun he => hb.notMem_tail (he ▸ hy)
  simp [hyx, hyt]

theorem addTimer_added (cntfrq : Nat) (c : AddTimer) (hk : ∀ n live, kmalloc n live ∉ live)
    (h : Good s xs) :
    ∃ x y s', s.addTimer kmalloc cntfrq c = some s' ∧ x ∉ s.live ∧ y ∉ x :: s.live ∧
      Added x y (c.interruptTime cntfrq) xs s s' := by
  have hx : kmalloc s.calls s.live ∉ s.live := hk _ _
  have hy : kmalloc (s.calls + 1) (kmalloc s.calls s.live :: s.live) ∉ kmalloc s.calls s.live :: s.live :=
    hk _ _
  unfold addTimer alloc
  dsimp only
  generalize kmalloc s.calls s.live = x at hx hy
  generalize kmalloc (s.calls + 1) (x :: s.live) = y at hy
  generalize c.interruptTime cntfrq = t
  have hxs : x ∉ s.timerHead :: (xs ++ [s.timerTail]) := fun hm => hx (h.live x (List.mem_append_left _ hm))
  have hlen : xs.length < (y :: x :: s.live).length := by
    have hle := List.Nodup.length_le_of_subset (List.nodup_append.1 h.nodup).1
      fun a ha => h.live a (List.mem_append_left _ ha)
    simp only [List.length_cons, List.length_append, List.length_nil] at hle ⊢
    omega
  have hseek := seek_place (t := t) h.linked (show x ∉ xs from fun hm => hxs (by simp [hm])) hlen
  have hparts : (xs.takeWhile fun y => s.interruptTime y ≤ t) ++
      (xs.dropWhile fun y => s.interruptTime y ≤ t) = xs := List.takeWhile_append_dropWhile
  have hnext := Between.next_last (hparts.symm ▸ h.linked)
  have hlinked := Between.link (hparts.symm ▸ h.linked) (hparts.symm ▸ hxs)
  rw [hseek]
  simp only [Option.bind_eq_bind, Option.bind_some, hnext]
  exact ⟨x, y, _, rfl, hx, hy, ⟨hlinked, rfl, rfl, rfl, rfl, rfl, rfl, rfl, rfl, rfl, rfl⟩⟩

/-- The records that were there are not changed. -/
theorem Added.of_ne {t a : Nat} (ha : Added x y t xs s s') (hax : a ≠ x) :
    s'.interruptTime a = s.interruptTime a ∧ s'.args a = s.args a ∧ s'.number a = s.number a := by
  rw [ha.interruptTime, ha.args, ha.number, Function.update_of_ne hax, Function.update_of_ne hax,
    Function.update_of_ne hax]
  exact ⟨rfl, rfl, rfl⟩

/-- The new record. -/
theorem Added.self {t : Nat} (ha : Added x y t xs s s') :
    s'.interruptTime x = t ∧ s'.args x = y ∧ s'.number x = s.calls := by
  rw [ha.interruptTime, ha.args, ha.number, Function.update_self, Function.update_self, Function.update_self]
  exact ⟨rfl, rfl, rfl⟩

/-- A field of the events that are pending now. -/
theorem place_map_perm {t : Nat} {time f g : Nat → Nat} (hold : ∀ a ∈ xs, g a = f a) :
    ((place time t x xs).map g).Perm (g x :: xs.map f) := by
  rw [← List.map_congr_left hold]
  exact place_perm.map g

/-- The blocks of the timers, with those of the new event in front. -/
theorem Added.blocks {t : Nat} (ha : Added x y t xs s s') (hxs : ∀ a ∈ xs, a ≠ x) :
    (s.timerHead :: (place s.interruptTime t x xs ++ [s.timerTail]) ++
      (place s.interruptTime t x xs).map s'.args).Perm
        (x :: y :: (s.timerHead :: (xs ++ [s.timerTail]) ++ xs.map s.args)) := by
  have hargs : ((place s.interruptTime t x xs).map s'.args).Perm (y :: xs.map s.args) := by
    have hmap : ((place s.interruptTime t x xs).map s'.args).Perm (s'.args x :: xs.map s.args) :=
      place_map_perm fun a hm => (ha.of_ne (hxs a hm)).2.1
    rwa [ha.self.2.1] at hmap
  have hnodes : (s.timerHead :: (place s.interruptTime t x xs ++ [s.timerTail])).Perm
      (x :: s.timerHead :: (xs ++ [s.timerTail])) :=
    ((place_perm.append_right [s.timerTail]).cons s.timerHead).trans (.swap x s.timerHead _)
  exact (hnodes.append hargs).trans (List.perm_middle.trans (.swap x y _))

/-- The new event is due behind those that are not later, and in front of the others. -/
theorem Good.sorted_add {t : Nat} (h : Good s xs) (ha : Added x y t xs s s') (hxs : ∀ a ∈ xs, a ≠ x) :
    (place s.interruptTime t x xs).Pairwise s'.Sooner := by
  have hordered : Ordered s.interruptTime xs := h.sorted.imp fun hab => by
    unfold Sooner at hab
    omega
  have hsooner : ∀ a ∈ xs, ∀ b ∈ xs, s.Sooner a b → s'.Sooner a b := fun a hma b hmb hab => by
    unfold Sooner
    obtain ⟨htimea, -, hnuma⟩ := ha.of_ne (hxs a hma)
    obtain ⟨htimeb, -, hnumb⟩ := ha.of_ne (hxs b hmb)
    rwa [htimea, htimeb, hnuma, hnumb]
  obtain ⟨htx, -, hnx⟩ := ha.self
  refine pairwise_place (List.Pairwise.imp_of_mem (fun hma hmb => hsooner _ hma _ hmb) h.sorted)
    (fun a hm => ?_) fun a hm => Or.inl ?_
  · have hle : s.interruptTime a ≤ t := by simpa using List.mem_takeWhile_imp hm
    have hmem : a ∈ xs := List.takeWhile_subset _ hm
    have hlt := h.numbers a hmem
    obtain ⟨htime, -, hnum⟩ := ha.of_ne (hxs a hmem)
    unfold Sooner
    rw [htx, hnx, htime, hnum]
    omega
  · rw [htx, (ha.of_ne (hxs a (List.dropWhile_subset _ hm))).1]
    exact hordered.behind hm

/-- After `add_timer`, what is pending. -/
theorem Good.pending_add {t : Nat} (h : Good s xs) (ha : Added x y t xs s s') (hxs : ∀ a ∈ xs, a ≠ x) :
    Pending s' (place s.interruptTime t x xs) := by
  have hnumbers : ((place s.interruptTime t x xs).map s'.number).Perm (s.calls :: xs.map s.number) := by
    have hmap : ((place s.interruptTime t x xs).map s'.number).Perm (s'.number x :: xs.map s.number) :=
      place_map_perm fun a hm => (ha.of_ne (hxs a hm)).2.2
    rwa [ha.self.2.2] at hmap
  constructor
  case linked =>
    rw [ha.timerHead, ha.timerTail]
    exact ha.linked
  case sorted => exact h.sorted_add ha hxs
  case distinct =>
    rw [ha.log, added_append]
    refine List.nodup_append.2 ⟨h.distinct, by simp [added], fun i hi j hj => ?_⟩
    have hlt := h.logged i hi
    have hj' : j = s.calls := List.mem_singleton.1 hj
    omega
  case accounted =>
    have hrun : s.running.toList.map s'.number = s.running.toList.map s.number :=
      List.map_congr_left fun a hm => (ha.of_ne (hxs a (h.running a (by simpa using hm)))).2.2
    rw [ha.log, added_append, called_append, ha.running, hrun]
    have hold := h.accounted
    simp only [List.perm_iff_count, List.count_append] at hold hnumbers ⊢
    intro i
    have h₁ := hold i
    have h₂ := hnumbers i
    simp only [added, called, List.filterMap_cons, List.filterMap_nil, List.count_cons, List.count_nil]
      at h₁ h₂ ⊢
    omega
  case running =>
    rw [ha.running]
    exact fun event hm => mem_place.2 (Or.inr (h.running event hm))
  case armed =>
    intro hnone z hz
    have hnext := ha.linked.next_head
    rw [firstOf, hz, Option.getD_some] at hnext
    rw [ha.armed, hnext]
    cases head_place hz with
    | inl he => rw [if_pos (by rw [he]), he, ha.self.1]
    | inr hz' =>
        have hmem : z ∈ xs := List.mem_of_head? hz'
        rw [if_neg (by simpa using hxs z hmem), (ha.of_ne (hxs z hmem)).1]
        exact h.armed (ha.running ▸ hnone) z hz'

theorem Good.add {t : Nat} (h : Good s xs) (ha : Added x y t xs s s') (hx : x ∉ s.live)
    (hy : y ∉ x :: s.live) : Good s' (place s.interruptTime t x xs) := by
  have hxs : ∀ a ∈ xs, a ≠ x := fun a hm he => hx (he ▸ h.live a (by simp [hm]))
  have hperm := ha.blocks hxs
  constructor
  case toPending => exact h.pending_add ha hxs
  case live =>
    rw [ha.timerHead, ha.timerTail, ha.live]
    intro a hm
    have hm' := hperm.mem_iff.1 hm
    simp only [List.mem_cons] at hm' ⊢
    rcases hm' with hx' | hy' | hold
    · exact Or.inr (Or.inl hx')
    · exact Or.inl hy'
    · exact Or.inr (Or.inr (h.live a (by simpa using hold)))
  case nodup =>
    rw [ha.timerHead, ha.timerTail, hperm.nodup_iff]
    refine List.nodup_cons.2 ⟨fun hm => ?_, List.nodup_cons.2 ⟨fun hm => ?_, h.nodup⟩⟩
    · cases List.mem_cons.1 hm with
      | inl he => exact hy (he ▸ List.mem_cons_self)
      | inr hm => exact hx (h.live x hm)
    · exact hy (List.mem_cons_of_mem x (h.live y hm))
  case numbers =>
    intro a hm
    rw [ha.calls]
    cases mem_place.1 hm with
    | inl he =>
        rw [he, ha.self.2.2]
        omega
    | inr hm =>
        have hlt := h.numbers a hm
        rw [(ha.of_ne (hxs a hm)).2.2]
        omega
  case logged =>
    intro i hi
    rw [ha.log, added_append, List.mem_append] at hi
    rw [ha.calls]
    cases hi with
    | inl hi =>
        have hlt := h.logged i hi
        omega
    | inr hi =>
        have he : i = s.calls := List.mem_singleton.1 hi
        omega

/-! ## `core_timer_handler` -/

/-- The handler calls the callback of the first event, if there is one. -/
theorem coreTimerHandler_good (cntfrq : Nat) (h : Good s xs) (hr : s.running = none) :
    ∃ s', s.coreTimerHandler cntfrq = some s' ∧ Good s' xs ∧ s'.interruptTime = s.interruptTime ∧
      s'.running = xs.head? ∧ s'.log = s.log ++ (xs.head?.map fun x => .call (s.number x)).toList := by
  unfold coreTimerHandler
  cases xs with
  | nil =>
      rw [if_pos (show s.isTimerListEmpty from h.linked.nil_iff.2 rfl)]
      refine ⟨_, rfl, ⟨⟨h.linked, h.sorted, h.distinct, h.accounted, h.running, fun _ _ hx => by cases hx⟩,
        h.live, h.nodup, h.numbers, h.logged⟩, rfl, hr, (List.append_nil _).symm⟩
  | cons x xs =>
      have hne : ¬ s.isTimerListEmpty := fun he => List.cons_ne_nil _ _ (h.linked.nil_iff.1 he)
      rw [if_neg hne, h.linked.next_head, firstOf_cons]
      refine ⟨_, rfl, ⟨⟨h.linked, h.sorted, ?_, ?_, ?_, fun hnone => by cases hnone⟩, h.live, h.nodup,
        h.numbers, ?_⟩, rfl, rfl, rfl⟩
      · dsimp only
        rw [added_append]
        simpa [added] using h.distinct
      · have hold := h.accounted
        dsimp only
        rw [hr] at hold
        rw [added_append, called_append]
        simp only [List.perm_iff_count, List.count_append] at hold ⊢
        intro i
        have h₁ := hold i
        simp only [added, called, List.filterMap_cons, List.filterMap_nil, Option.toList, List.map_cons,
          List.map_nil, List.count_cons, List.count_nil] at h₁ ⊢
        omega
      · intro event he
        cases he
        exact List.mem_cons_self
      · intro i hi
        dsimp only at hi
        rw [added_append, List.mem_append] at hi
        exact h.logged i (hi.resolve_right (by simp [added]))

/-- The event is gone, and the timer is armed for the first one that is left. -/
structure Removed (event : Nat) (xs : List Nat) (s s' : Timers) : Prop where
  linked : Between s'.next s'.prev s.timerHead s.timerTail xs
  interruptTime : s'.interruptTime = s.interruptTime
  args : s'.args = s.args
  number : s'.number = s.number
  timerHead : s'.timerHead = s.timerHead
  timerTail : s'.timerTail = s.timerTail
  armed : ∀ x ∈ xs.head?, s'.armed = .byTick (s.interruptTime x)
  running : s'.running = none
  live : s'.live = ((s.live.filter fun b => b ≠ s.args event).filter fun b => b ≠ event)
  calls : s'.calls = s.calls
  log : s'.log = s.log

theorem timerEventCallback_removed (cntfrq : Nat)
    (hb : Between s.next s.prev s.timerHead s.timerTail (ys ++ event :: zs)) :
    ∃ s', s.timerEventCallback cntfrq event = some s' ∧ Removed event (ys ++ zs) s s' := by
  obtain ⟨hprev, hnext⟩ := hb.around
  have hcut := hb.cut
  have hhead := hcut.next_head
  unfold timerEventCallback
  rw [hprev, hnext]
  simp only [Option.bind_eq_bind, Option.bind_some]
  split
  case isTrue hempty =>
    have hnil : ys ++ zs = [] := hcut.nil_iff.1 hempty
    refine ⟨_, rfl, hcut, rfl, rfl, rfl, rfl, rfl, fun x hx => ?_, rfl, rfl, rfl, rfl⟩
    rw [hnil] at hx
    cases hx
  case isFalse hne =>
    simp only [kfree, hhead, Option.bind_some]
    refine ⟨_, rfl, hcut, rfl, rfl, rfl, rfl, rfl, fun x hx => ?_, rfl, rfl, rfl, rfl⟩
    dsimp only
    rw [firstOf, hx, Option.getD_some]

theorem Good.remove (h : Good s (ys ++ event :: zs)) (ha : Removed event (ys ++ zs) s s')
    (hr : s.running = some event) : Good s' (ys ++ zs) := by
  have hsub : (ys ++ zs).Sublist (ys ++ event :: zs) := (List.sublist_cons_self event zs).append_left ys
  have hperm : (s.timerHead :: (ys ++ event :: zs ++ [s.timerTail]) ++ (ys ++ event :: zs).map s.args).Perm
      (event :: s.args event :: (s.timerHead :: (ys ++ zs ++ [s.timerTail]) ++ (ys ++ zs).map s.args)) := by
    rw [List.perm_iff_count]
    intro a
    simp only [List.map_append, List.map_cons, List.count_append, List.count_cons, List.count_nil]
    omega
  have hnd := hperm.nodup_iff.1 h.nodup
  obtain ⟨hev, hnd⟩ := List.nodup_cons.1 hnd
  obtain ⟨harg, hnd⟩ := List.nodup_cons.1 hnd
  constructor
  case toPending =>
    constructor
    case linked =>
      rw [ha.timerHead, ha.timerTail]
      exact ha.linked
    case sorted =>
      refine (h.sorted.sublist hsub).imp fun hab => ?_
      unfold Sooner at hab ⊢
      rwa [ha.interruptTime, ha.number]
    case distinct =>
      rw [ha.log]
      exact h.distinct
    case accounted =>
      have hold := h.accounted
      rw [hr] at hold
      rw [ha.log, ha.running, ha.number]
      simp only [List.perm_iff_count, List.count_append, List.map_append, List.map_cons, Option.toList,
        List.count_cons, List.count_nil, List.map_nil] at hold ⊢
      intro i
      have := hold i
      omega
    case running =>
      intro e he
      rw [ha.running] at he
      cases he
    case armed =>
      intro _ x hx
      rw [ha.interruptTime]
      exact ha.armed x hx
  case live =>
    rw [ha.timerHead, ha.timerTail, ha.args, ha.live]
    intro a hm
    have hlive := h.live a (hperm.mem_iff.2 (List.mem_cons_of_mem _ (List.mem_cons_of_mem _ hm)))
    have hne : a ≠ event := fun he => hev (List.mem_cons_of_mem _ (he ▸ hm))
    have hne' : a ≠ s.args event := fun he => harg (he ▸ hm)
    simp [hlive, hne, hne']
  case nodup =>
    rw [ha.timerHead, ha.timerTail, ha.args]
    exact hnd
  case numbers =>
    rw [ha.number, ha.calls]
    exact fun a hm => h.numbers a (hsub.subset hm)
  case logged =>
    rw [ha.log, ha.calls]
    exact h.logged

/-! ## runs -/

/-- Nothing was called yet. -/
structure Unused (s : Timers) : Prop where
  running : s.running = none
  log : s.log = []

theorem timerListInit_good (hk : ∀ n live, kmalloc n live ∉ live) (hs : s.Unused) :
    Good (s.timerListInit kmalloc) [] := by
  have htail : kmalloc (s.calls + 1) (kmalloc s.calls s.live :: s.live) ∉ kmalloc s.calls s.live :: s.live :=
    hk _ _
  unfold timerListInit alloc
  dsimp only
  generalize kmalloc s.calls s.live = hd at htail
  generalize kmalloc (s.calls + 1) (hd :: s.live) = tl at htail
  have hne : hd ≠ tl := fun he => htail (he ▸ List.mem_cons_self)
  refine ⟨⟨⟨?_, by simpa using hne⟩, .nil, ?_, ?_, ?_, ?_⟩, by simp, by simpa using hne, by simp, ?_⟩
  · simp [Linked, hne]
  · simp [hs.log, added]
  · simp [hs.log, hs.running, added, called]
  · simp [hs.running]
  · simp
  · simp [hs.log, added]

/-- When the step can come: the handler does not run twice, and a callback
returns when it was called. -/
def Enabled (s : Timers) : TimerStep → Prop
  | .addTimer _ => True
  | .coreTimerHandler => s.running = none
  | .callbackReturns => s.running.isSome

/-- What a step does to the pending events `xs`. -/
def Effect (cntfrq : Nat) (xs : List Nat) (s s' : Timers) : TimerStep → Prop
  | .addTimer c => ∃ x, x ∉ xs ∧ s'.interruptTime x = c.interruptTime cntfrq ∧
      Pending s' (place s.interruptTime (c.interruptTime cntfrq) x xs) ∧ s'.running = s.running ∧
      s'.log = s.log ++ [.add s.calls]
  | .coreTimerHandler => Pending s' xs ∧ s'.running = xs.head? ∧
      s'.log = s.log ++ (xs.head?.map fun x => .call (s.number x)).toList ∧
      ∀ x ∈ xs.head?, ∀ y ∈ xs, s.interruptTime x ≤ s.interruptTime y
  | .callbackReturns => ∃ event, s.running = some event ∧ Pending s' (xs.erase event) ∧
      s'.running = none ∧ s'.log = s.log

/-- The first event is the earliest. -/
theorem Pending.earliest (h : Pending s xs) (hx : x ∈ xs.head?) (hy : y ∈ xs) :
    s.interruptTime x ≤ s.interruptTime y := by
  cases xs with
  | nil => cases hx
  | cons z xs =>
      cases hx
      cases List.mem_cons.1 hy with
      | inl he => rw [he]
      | inr hm =>
          have hs := (List.pairwise_cons.1 h.sorted).1 y hm
          unfold Sooner at hs
          omega

theorem Good.step (hk : ∀ n live, kmalloc n live ∉ live) (h : Good s xs) {a : TimerStep}
    (he : s.Enabled a) : ∃ s' xs', s.step kmalloc cntfrq a = some s' ∧ Good s' xs' ∧
      Effect cntfrq xs s s' a := by
  cases a with
  | addTimer c =>
      obtain ⟨x, y, s', hstep, hx, hy, ha⟩ := addTimer_added cntfrq c hk h
      have hg := h.add ha hx hy
      have hxs : x ∉ xs := fun hm => hx (h.live x (by simp [hm]))
      have htx : s'.interruptTime x = c.interruptTime cntfrq := by
        rw [ha.interruptTime, Function.update_self]
      exact ⟨s', _, hstep, hg, x, hxs, htx, hg.toPending, ha.running, ha.log⟩
  | coreTimerHandler =>
      obtain ⟨s', hstep, hg, -, hrun, hlog⟩ := coreTimerHandler_good cntfrq h he
      refine ⟨s', xs, ?_, hg, hg.toPending, hrun, hlog, fun x hx y hy => h.earliest hx hy⟩
      exact (if_pos he).trans hstep
  | callbackReturns =>
      obtain ⟨event, hr⟩ := Option.isSome_iff_exists.1 he
      obtain ⟨ys, zs, rfl⟩ := List.append_of_mem (h.running event hr)
      obtain ⟨s', hstep, ha⟩ := timerEventCallback_removed cntfrq h.linked
      have hg := h.remove ha hr
      have hmem : event ∉ ys := fun hm => by
        have hnd := (List.nodup_append.1 (List.nodup_cons.1 h.linked.nodup).2).1
        exact (List.nodup_append.1 hnd).2.2 event hm event List.mem_cons_self rfl
      have herase : (ys ++ event :: zs).erase event = ys ++ zs := by
        rw [List.erase_append_right _ hmem, List.erase_cons_head]
      refine ⟨s', ys ++ zs, ?_, hg, event, hr, herase ▸ hg.toPending, ha.running, ha.log⟩
      rw [Timers.step, hr]
      exact hstep

/-- **Timers.**  After any steps from `timer_list_init` on, the pending events are
linked both ways in the order they are due, those of one time in the order they
were added; every event that was added is pending or its callback was called
once, and the timer is armed for the first one while no callback runs.  Every
step goes through: the handler takes the earliest event, and it leaves the list
only after its callback. -/
theorem timerRun_linked (kmalloc : Nat → List Nat → Nat) (hk : ∀ n live, kmalloc n live ∉ live)
    (cntfrq : Nat) {s₀ s : Timers} (hs : s₀.Unused)
    (hr : Reach (step kmalloc cntfrq) (fun _ _ => True) (s₀.timerListInit kmalloc) s) :
    ∃ xs, Pending s xs ∧
      ∀ a, s.Enabled a → ∃ s', s.step kmalloc cntfrq a = some s' ∧ Effect cntfrq xs s s' a := by
  have hgood : ∃ xs, Good s xs := by
    have hinit : ∃ xs, Good (s₀.timerListInit kmalloc) xs := ⟨[], timerListInit_good hk hs⟩
    refine hr.inv (I := fun s => ∃ xs, Good s xs) hinit fun s a s' hI _ hstep => ?_
    obtain ⟨xs, h⟩ := hI
    have he : s.Enabled a := by
      cases a with
      | addTimer c => trivial
      | coreTimerHandler =>
          by_contra hne
          cases (if_neg hne).symm.trans hstep
      | callbackReturns =>
          by_contra hne
          rw [Timers.step, Option.not_isSome_iff_eq_none.1 hne] at hstep
          cases hstep
    obtain ⟨s₁, xs', hstep', hg, -⟩ := Good.step hk h he
    exact ⟨xs', Option.some.inj (hstep.symm.trans hstep') ▸ hg⟩
  obtain ⟨xs, h⟩ := hgood
  refine ⟨xs, h.toPending, fun a he => ?_⟩
  obtain ⟨s', xs', hstep, -, heff⟩ := Good.step hk h he
  exact ⟨s', hstep, heff⟩

/-- Nothing was called yet. -/
def noTimers : Timers :=
  ⟨fun _ => none, fun _ => none, fun _ => 0, fun _ => 0, fun _ => 0, fun _ => 0, 0, 0, .relative 0, none, [],
    0, []⟩

/-- `schedule_timer` is called and calls `add_timer` for itself. -/
theorem timerRun_linked_schedule :
    ∃ s : Timers, run (step IrqTasks.bumpKmalloc 320) (noTimers.timerListInit IrqTasks.bumpKmalloc)
        [.addTimer (scheduleTimer 320 7 100), .coreTimerHandler, .addTimer (scheduleTimer 320 7 200),
          .callbackReturns] = some s ∧
      ∃ xs, Pending s xs ∧ ∀ a, s.Enabled a →
        ∃ s', s.step IrqTasks.bumpKmalloc 320 a = some s' ∧ Effect 320 xs s s' a := by
  obtain ⟨s, hs⟩ : ∃ s, run (step IrqTasks.bumpKmalloc 320) (noTimers.timerListInit IrqTasks.bumpKmalloc)
      [.addTimer (scheduleTimer 320 7 100), .coreTimerHandler, .addTimer (scheduleTimer 320 7 200),
        .callbackReturns] = some s := ⟨_, rfl⟩
  have hunused : noTimers.Unused := ⟨rfl, rfl⟩
  exact ⟨s, hs, timerRun_linked IrqTasks.bumpKmalloc IrqTasks.bumpKmalloc_fresh 320 hunused
    (Reach.run .init (fun _ _ _ => trivial) hs)⟩

end Timers

end RpiKernel
