import RpiKernel.Process.Calls

/-!
# RpiKernel.Process.Lifetimes

A step of the kernel is a step of the scheduler of `RpiKernel.Sched`, or leaves
the scheduler alone: the scheduler's invariant holds in every state of the
kernel (`Scheduled`), and which slots are free changes in `fork` and in
`kill_zombies` only.
-/

namespace RpiKernel

open Custody Sched

/-! ## statuses -/

section

variable {s s' : Sched} {n : Nat}

theorem scheduleLoop_status {t : Option Nat} (h : scheduleLoop n s = some (t, s')) (j : Nat) :
    s'.status j = s.status j := by
  induction n generalizing s with
  | zero => cases h
  | succ n ih =>
      unfold scheduleLoop at h
      cases hh : s.rqHead with
      | none =>
          have hpop : popRq s = (none, s) := by
            unfold popRq
            rw [hh]
          rw [hpop] at h
          rw [← (Prod.mk.inj (Option.some.inj h)).2]
      | some x =>
          obtain ⟨s₁, hpop, -, -, -, hst, -, -⟩ := popRq_some hh
          rw [hpop] at h
          dsimp only at h
          split at h
          · rw [ih h, status_pushRq, hst]
          · rw [← (Prod.mk.inj (Option.some.inj h)).2, hst]

/-- A switch changes no status. -/
theorem schedule_status (h : schedule n s = some s') (j : Nat) : s'.status j = s.status j := by
  unfold schedule at h
  split at h
  · rw [← Option.some.inj h]
  · cases hl : scheduleLoop n s with
    | none => rw [hl] at h; cases h
    | some r =>
        obtain ⟨t, s₁⟩ := r
        have hst := scheduleLoop_status hl j
        rw [hl] at h
        cases t with
        | none => rw [← Option.some.inj h, hst]
        | some t =>
            rw [← Option.some.inj h]
            split <;> simp [hst]

/-- The steps that take no slot and give none back. -/
def SchedAct.Local : SchedAct → Prop
  | .fork | .killZombies => False
  | _ => True

theorem schedStep_free {a : SchedAct} (ha : a.Local) (h : schedStep s (n, a) = some s')
    (hc : s.status s.currThread ≠ .free) (j : Nat) : s'.status j = .free ↔ s.status j = .free := by
  unfold schedStep at h
  split at h
  swap
  · cases h
  cases a with
  | fork | killZombies => exact absurd ha id
  | schedule => rw [schedule_status h]
  | exit =>
      obtain rfl := Option.some.inj h
      simp only [exit, status_setStatus]
      split <;> simp_all
  | kill pid =>
      simp only [SchedAct.perform, RpiKernel.kill] at h
      split at h
      next hk =>
        have hfree : s.status pid.toNat ≠ .free := fun hf => hk (Or.inr (Or.inr hf))
        rw [schedule_status h, status_setStatus]
        split <;> simp_all
      next => rw [Option.some.inj h]
  | threadExit =>
      rw [schedule_status h, status_setStatus]
      split <;> simp_all
  | signalDefault =>
      rw [schedule_status h, status_defaultDeath]
      split <;> simp_all

end

/-- Some queue is in order. -/
def Scheduled (s : Sched) : Prop := ∃ xs, Inv s xs

theorem Scheduled.curr {s : Sched} (h : Scheduled s) : s.status s.currThread ≠ .free := by
  obtain ⟨xs, h⟩ := h
  exact h.curr_alive

theorem Scheduled.step {s s' : Sched} {b : Nat × SchedAct} (h : Scheduled s)
    (hs : schedStep s b = some s') : Scheduled s' := by
  obtain ⟨xs, h⟩ := h
  obtain ⟨xs', hk⟩ := h.step hs
  exact ⟨xs', hk.inv⟩

namespace Kernel

variable {k k' : Kernel} {t n : Nat}

/-! ## reaping -/

/-- Closing files only calls `kfree`. -/
theorem closeFiles_some {is : List Nat} (h : closeFiles t is k = some ((), k')) :
    ∃ a, k' = { k with alloc := a } := by
  induction is generalizing k with
  | nil =>
      unfold closeFiles at h
      exact ⟨k.alloc, (Prod.mk.inj (pure_some.1 h)).2⟩
  | cons i is ih =>
      unfold closeFiles at h
      rw [proc_bind] at h
      by_cases hf : (k.procs t).fileDescriptorsTable i = 0
      · simp only [hf, ne_eq, not_true_eq_false, if_false] at h
        exact ih h
      · simp only [hf, ne_eq, not_false_eq_true, if_true, vfsClose, bind_some, kfree_some] at h
        obtain ⟨_, _, ⟨a, -, hr⟩, h⟩ := h
        obtain ⟨-, rfl⟩ := Prod.mk.inj hr
        obtain ⟨a', rfl⟩ := ih h
        exact ⟨a', rfl⟩

/-- What `reap` leaves of a thread. -/
theorem reap_some (h : reap t k = some ((), k')) : ∃ a w,
    k' = ({ k with alloc := a, words := w, sched := reapThread t k.sched } : Kernel).setProc t
      Process.noAreas := by
  unfold reap at h
  simp only [proc_bind, bind_some, onTables_some, kfree_some, onSched_some] at h
  obtain ⟨_, _, ⟨m, -, hr₁⟩, _, k₁, h₁, _, k₂, h₂, _, _, ⟨a₁, -, hr₃⟩, _, _, ⟨a₂, -, hr₄⟩, s, hs,
    hr⟩ := h
  obtain ⟨-, rfl⟩ := Prod.mk.inj hr₁
  obtain ⟨-, rfl⟩ := Prod.mk.inj hr₃
  obtain ⟨-, rfl⟩ := Prod.mk.inj hr₄
  obtain ⟨-, rfl⟩ := Prod.mk.inj hr
  obtain ⟨k₃, hdel, rfl⟩ := mmuDelAllVma_some h₁
  obtain ⟨a₃, rfl⟩ := delVmas_some hdel
  obtain ⟨a₄, rfl⟩ := closeFiles_some h₂
  obtain rfl := Option.some.inj hs
  exact ⟨a₂, m.words, rfl⟩

/-- A thread is as it was, or it was reaped. -/
def Outlives (k k' : Kernel) (t : Nat) : Prop :=
  k'.procs t = k.procs t ∧ k'.sched.status t = k.sched.status t ∨
    k'.procs t = (k.procs t).noAreas ∧ k'.sched.status t = .free

/-- A pass of `kill_zombies` is one of the scheduler; it only takes areas away. -/
theorem killZombiesLoop_some {p : Option Nat} (h : killZombiesLoop n p k = some ((), k')) :
    RpiKernel.killZombiesLoop n p k.sched = some k'.sched ∧
      k'.misc = k.misc ∧ k'.oom = k.oom ∧ k'.files = k.files ∧ ∀ t, Outlives k k' t := by
  induction n generalizing p k with
  | zero =>
      cases p with
      | none =>
          unfold killZombiesLoop at h
          obtain ⟨-, rfl⟩ := Prod.mk.inj (pure_some.1 h)
          exact ⟨rfl, rfl, rfl, rfl, fun t => Or.inl ⟨rfl, rfl⟩⟩
      | some th =>
          unfold killZombiesLoop at h
          exact absurd h (by simp [failure_some])
  | succ n ih =>
      cases p with
      | none =>
          unfold killZombiesLoop at h
          obtain ⟨-, rfl⟩ := Prod.mk.inj (pure_some.1 h)
          exact ⟨rfl, rfl, rfl, rfl, fun t => Or.inl ⟨rfl, rfl⟩⟩
      | some th =>
          unfold killZombiesLoop at h
          unfold RpiKernel.killZombiesLoop
          simp only [get_bind] at h
          by_cases hz : k.sched.status th = .zombie
          · simp only [if_pos hz, bind_some] at h ⊢
            obtain ⟨_, k₁, hr, h⟩ := h
            obtain ⟨a, w, rfl⟩ := reap_some hr
            obtain ⟨hs, hm, ho, hf, hp⟩ := ih h
            refine ⟨hs, hm, ho, hf, fun t => ?_⟩
            by_cases ht : t = th
            · subst ht
              rcases hp t with ⟨hp, hst⟩ | ⟨hp, hst⟩
              · exact Or.inr ⟨by rw [hp, setProc_procs], by rw [hst]; simp⟩
              · exact Or.inr ⟨by rw [hp, setProc_procs]; rfl, hst⟩
            · have hpt := hp t
              unfold Outlives at hpt ⊢
              rwa [setProc_procs_other _ ht, setProc_sched, status_reapThread, if_neg ht] at hpt
          · simp only [if_neg hz] at h ⊢
            exact ih h

/-! ## page faults -/

/-- What a page fault does: it maps a page, or it makes the thread a zombie. -/
theorem memfailAbort_some {far iss : Nat} {b : Bool} (h : memfailAbort far iss k = some (b, k')) :
    let t := k.sched.currThread
    let p := k.procs t
    (b = true ∧ k' = { k with sched := k.sched.setStatus t .zombie }) ∨
    (b = false ∧ ∃ v ∈ p.vmaList, faultHits far v ∧ ∃ va pa m,
      mapOnePage (physToVirt p.context.pgd) va pa (faultFlag v.rwx) k.toTableMem = some m ∧
      k' = { k with toTableMem := m }) := by
  unfold memfailAbort at h
  rw [currThread_bind, proc_bind] at h
  cases hf : (k.procs k.sched.currThread).vmaList.find? fun v => faultHits far v with
  | none =>
      simp only [hf, bind_some, onSched_some, pure_some] at h
      obtain ⟨_, _, ⟨s, hs, hr₁⟩, hr⟩ := h
      obtain rfl := Option.some.inj hs
      obtain ⟨-, rfl⟩ := Prod.mk.inj hr₁
      obtain ⟨rfl, rfl⟩ := Prod.mk.inj hr
      exact Or.inl ⟨rfl, rfl⟩
  | some v =>
      simp only [hf] at h
      split at h
      next =>
        simp only [bind_some, onTables_some, pure_some] at h
        obtain ⟨_, _, ⟨m, hm, hr₁⟩, hr⟩ := h
        obtain ⟨-, rfl⟩ := Prod.mk.inj hr₁
        obtain ⟨rfl, rfl⟩ := Prod.mk.inj hr
        exact Or.inr ⟨rfl, v, List.mem_of_find?_eq_some hf, by simpa using List.find?_some hf, _, _,
          m, hm, rfl⟩
      next =>
        simp only [bind_some, onSched_some, pure_some] at h
        obtain ⟨_, _, ⟨s, hs, hr₁⟩, hr⟩ := h
        obtain rfl := Option.some.inj hs
        obtain ⟨-, rfl⟩ := Prod.mk.inj hr₁
        obtain ⟨rfl, rfl⟩ := Prod.mk.inj hr
        exact Or.inl ⟨rfl, rfl⟩

end Kernel

end RpiKernel
