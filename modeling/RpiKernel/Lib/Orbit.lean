import Mathlib.Data.Finset.Card
import Mathlib.Data.Set.Finite.Basic
import Mathlib.Logic.Relation
import Mathlib.Tactic.Common

/-!
# Lib.Orbit

Following a partial function from an element on.  `orbit next n a` are the
elements that are left in at most `n` steps; the way from `a` has ended when
there are fewer of them than steps (`Ends`).

A way on which every step goes up ends when only finitely many elements can be
left (`Ends.of_finite`), and never ends when an element leads to itself
(`Reaches.not_ends`).
-/

namespace Orbits

variable {α : Type _} {next : α → Option α} {a b c : α} {n : Nat}

/-- The elements that are left on the way from `a`, in at most `n` steps. -/
def orbit (next : α → Option α) : Nat → α → List α
  | 0, _ => []
  | n + 1, a =>
      match next a with
      | none => []
      | some b => a :: orbit next n b

/-- `b` is on the way from `a`. -/
def Reaches (next : α → Option α) (a b : α) : Prop :=
  Relation.ReflTransGen (fun a b => next a = some b) a b

/-- The way from `a` ends. -/
def Ends (next : α → Option α) (a : α) : Prop := ∃ n, (orbit next n a).length < n

theorem orbit_none (h : next a = none) : orbit next (n + 1) a = [] := by
  simp only [orbit, h]

theorem orbit_some (h : next a = some b) : orbit next (n + 1) a = a :: orbit next n b := by
  simp only [orbit, h]

/-- What is left was reached, and leads on. -/
theorem reaches_of_mem (hb : b ∈ orbit next n a) : Reaches next a b ∧ ∃ c, next b = some c := by
  induction n generalizing a with
  | zero => contradiction
  | succ n ih =>
      cases h : next a with
      | none => simp [orbit_none h] at hb
      | some d =>
          rw [orbit_some h] at hb
          cases List.mem_cons.1 hb with
          | inl he => exact ⟨he ▸ .refl, d, he ▸ h⟩
          | inr hb =>
              obtain ⟨hr, hc⟩ := ih hb
              exact ⟨.head h hr, hc⟩

/-- Where the way has ended, everything that was reached and leads on was left. -/
theorem mem_orbit (hn : (orbit next n a).length < n) (hr : Reaches next a b)
    (hb : next b = some c) : b ∈ orbit next n a := by
  induction n generalizing a with
  | zero => contradiction
  | succ n ih =>
      cases hr.cases_head with
      | inl he =>
          subst he
          simp [orbit_some hb]
      | inr hstep =>
          obtain ⟨d, had, hr⟩ := hstep
          rw [orbit_some had] at hn ⊢
          exact List.mem_cons_of_mem _ (ih (Nat.lt_of_succ_lt_succ hn) hr)

/-- A way that ends, ends from each of its elements. -/
theorem Ends.of_reaches (h : Ends next a) (hr : Reaches next a b) : Ends next b := by
  induction hr with
  | refl => exact h
  | tail _ hbc ih =>
      obtain ⟨n, hn⟩ := ih
      cases n with
      | zero => contradiction
      | succ n =>
          rw [orbit_some hbc] at hn
          exact ⟨n, Nat.lt_of_succ_lt_succ hn⟩

/-- An element that leads to itself is left in every step. -/
theorem length_orbit_self (h : next a = some a) : (orbit next n a).length = n := by
  induction n with
  | zero => rfl
  | succ n ih => rw [orbit_some h, List.length_cons, ih]

/-- From a way that reaches an element that leads to itself there is no end. -/
theorem Reaches.not_ends (hr : Reaches next a b) (h : next b = some b) : ¬ Ends next a := by
  intro hend
  obtain ⟨n, hn⟩ := hend.of_reaches hr
  rw [length_orbit_self h] at hn
  exact Nat.lt_irrefl n hn

/-- Where the way has ended, no more can be left than were left. -/
theorem length_le_orbit {l : List α} (hn : (orbit next n a).length < n) (hl : l.Nodup)
    (h : ∀ b ∈ l, Reaches next a b ∧ ∃ c, next b = some c) : l.length ≤ (orbit next n a).length := by
  refine (hl.subperm fun b hb => ?_).length_le
  obtain ⟨hr, c, hc⟩ := h b hb
  exact mem_orbit hn hr hc

/-- Where the way has ended, further steps leave nothing more. -/
theorem length_orbit_of_ended (hn : (orbit next n a).length < n) (m : Nat) :
    (orbit next m a).length ≤ (orbit next n a).length := by
  induction n generalizing a m with
  | zero => contradiction
  | succ n ih =>
      cases m with
      | zero => exact Nat.zero_le _
      | succ m =>
          cases h : next a with
          | none => simp [orbit_none h]
          | some b =>
              simp only [orbit_some h, List.length_cons] at hn ⊢
              exact Nat.succ_le_succ (ih (Nat.lt_of_succ_lt_succ hn) m)

section Up

variable [Preorder α]

/-- Where every step goes up, nothing is left twice. -/
theorem pairwise_orbit (hup : ∀ b c, Reaches next a b → next b = some c → b < c) :
    (orbit next n a).Pairwise (· < ·) ∧ ∀ b ∈ orbit next n a, a ≤ b := by
  induction n generalizing a with
  | zero => simp [orbit]
  | succ n ih =>
      cases h : next a with
      | none => simp [orbit_none h]
      | some d =>
          obtain ⟨hpair, hle⟩ := ih fun b c hr => hup b c (.head h hr)
          have had : a < d := hup a d .refl h
          rw [orbit_some h, List.pairwise_cons, List.forall_mem_cons]
          exact ⟨⟨fun b hb => lt_of_lt_of_le had (hle b hb), hpair⟩, le_refl a,
            fun b hb => le_trans (le_of_lt had) (hle b hb)⟩

theorem nodup_orbit (hup : ∀ b c, Reaches next a b → next b = some c → b < c) :
    (orbit next n a).Nodup :=
  (pairwise_orbit hup).1.imp ne_of_lt

/-- A way that goes up and leaves at most `k` elements ends. -/
theorem Ends.of_bound {k : Nat} (hup : ∀ b c, Reaches next a b → next b = some c → b < c)
    (hk : ∀ l : List α, l.Nodup → (∀ b ∈ l, Reaches next a b ∧ ∃ c, next b = some c) → l.length ≤ k) :
    Ends next a :=
  ⟨k + 1, Nat.lt_succ_of_le (hk _ (nodup_orbit hup) fun _ hb => reaches_of_mem hb)⟩

/-- A way that goes up through a finite set ends. -/
theorem Ends.of_finite {s : Set α} (hs : s.Finite)
    (hup : ∀ b c, Reaches next a b → next b = some c → b < c)
    (hmem : ∀ b c, next b = some c → b ∈ s) : Ends next a := by
  refine Ends.of_bound (k := hs.toFinset.card) hup fun l hl hreach => ?_
  classical
  rw [← List.toFinset_card_of_nodup hl]
  refine Finset.card_le_card fun b hb => ?_
  obtain ⟨-, c, hc⟩ := hreach b (List.mem_toFinset.1 hb)
  exact hs.mem_toFinset.2 (hmem b c hc)

end Up

end Orbits
