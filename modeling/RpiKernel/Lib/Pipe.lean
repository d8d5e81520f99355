import Mathlib.Data.List.Flatten
import RpiKernel.Lib.Runs

/-!
# Lib.Pipe

A writer, a line and a reader.  The writer puts blocks of symbols on the line, one block at a time;
the line is first in, first out; the reader takes one symbol at a time and may refuse it.  Writing and
reading come in any order.  At every moment the reader has read what was written up to what is still
`pending` (`Reach.read`); every step lowers `work` by one, so no run is longer than that.
-/

namespace Pipe

open Runs

variable {ρ β : Type _} {read : ρ → β → Option ρ}

/-- The blocks to be written, the line, and the reader. -/
structure State (ρ β : Type _) where
  toWrite : List (List β)
  line : List β
  reader : ρ

inductive Move where
  | write
  | read
  deriving DecidableEq

def step (read : ρ → β → Option ρ) (s : State ρ β) : Move → Option (State ρ β)
  | .write =>
      match s.toWrite with
      | [] => none
      | block :: rest => some { s with toWrite := rest, line := s.line ++ block }
  | .read =>
      match s.line with
      | [] => none
      | c :: rest => (read s.reader c).map fun r => { s with line := rest, reader := r }

/-- What the reader has not read. -/
def State.pending (s : State ρ β) : List β := s.line ++ s.toWrite.flatten

/-- The steps there are left. -/
def State.work (s : State ρ β) : Nat := s.toWrite.length + s.pending.length

variable {s s₀ s' : State ρ β}

/-- What a step does: a block moves to the line, or the reader takes one symbol from it. -/
theorem step_cases {m : Move} (h : step read s m = some s') :
    (s'.reader = s.reader ∧ s'.pending = s.pending ∧ s.toWrite.length = s'.toWrite.length + 1) ∨
    (∃ c, s.pending = c :: s'.pending ∧ read s.reader c = some s'.reader ∧
      s'.toWrite.length = s.toWrite.length) := by
  cases m with
  | write =>
      simp only [step] at h
      split at h
      · contradiction
      next block rest hw =>
        obtain rfl := Option.some.inj h
        exact .inl ⟨rfl, by simp [State.pending, hw], by simp [hw]⟩
  | read =>
      simp only [step] at h
      split at h
      · contradiction
      next c rest hl =>
        obtain ⟨r, hr, rfl⟩ := Option.map_eq_some_iff.1 h
        exact .inr ⟨c, by simp [State.pending, hl], hr, rfl⟩

theorem step_work {m : Move} (h : step read s m = some s') : s.work = s'.work + 1 := by
  obtain ⟨-, hp, hw⟩ | ⟨c, hp, -, hw⟩ := step_cases h
  · rw [State.work, State.work, hp, hw]
    omega
  · rw [State.work, State.work, hp, hw, List.length_cons]
    omega

/-- The reader has read what is no longer pending, in order. -/
theorem read_of_reach (hr : Reach (step read) (fun _ _ => True) s₀ s) :
    ∃ l, s₀.pending = l ++ s.pending ∧ run read s₀.reader l = some s.reader := by
  induction hr with
  | init => exact ⟨[], rfl, rfl⟩
  | step m _ _ hs ih =>
      obtain ⟨l, hl, hread⟩ := ih
      obtain ⟨hsame, hp, -⟩ | ⟨c, hp, hc, -⟩ := step_cases hs
      · exact ⟨l, by rw [hl, hp], by rw [hread, hsame]⟩
      · exact ⟨l ++ [c], by rw [hl, hp, List.append_assoc, List.singleton_append],
          by rw [run_append l [c] hread, run_cons [] hc, run]⟩

/-- A run is not longer than the work there was. -/
theorem length_of_run {ms : List Move} (h : run (step read) s ms = some s') :
    ms.length + s'.work = s.work := by
  induction ms generalizing s with
  | nil =>
      obtain rfl := Option.some.inj h
      exact Nat.zero_add _
  | cons m ms ih =>
      rw [run] at h
      obtain ⟨s₁, hs, hrest⟩ := Option.bind_eq_some_iff.1 h
      rw [step_work hs, ← ih hrest, List.length_cons]
      omega

/-- Where no step is possible everything was written, and the reader refuses what comes next, if
anything does. -/
theorem pending_of_stuck (h : ∀ m, step read s m = none) :
    s.toWrite = [] ∧ ∀ c l, s.pending = c :: l → read s.reader c = none := by
  have hw : s.toWrite = [] := by
    have hwrite := h .write
    simp only [step] at hwrite
    split at hwrite
    next hnil => exact hnil
    · contradiction
  refine ⟨hw, fun c l hp => ?_⟩
  have hline : s.line = c :: l := by simpa [State.pending, hw] using hp
  simpa [step, hline] using h .read

end Pipe
