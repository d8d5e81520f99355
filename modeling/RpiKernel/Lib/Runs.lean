/-!
# Lib.Runs

Runs of a deterministic machine whose steps may fail.  `Reach step good s₀ s`
says that `s` is reached from `s₀` by steps that succeed and meet `good`;
an invariant kept by every such step holds in every reached state
(`Reach.inv`).  `Always step P s as` says that every step of the run `as` meets `P`.

Where a step is a relation and gives an answer, `Trace step good s l s'` is a run
with the calls and their answers; a machine that is simulated step by step is simulated over every
trace (`Trace.simulate`).
-/

namespace Runs

variable {σ α : Type _} {step : σ → α → Option σ} {good good' : σ → α → Prop} {s₀ s s' : σ}

/-- The states reached from `s₀` by good steps. -/
inductive Reach (step : σ → α → Option σ) (good : σ → α → Prop) (s₀ : σ) : σ → Prop
  | init : Reach step good s₀ s₀
  | step {s s' : σ} (a : α) : Reach step good s₀ s → good s a → step s a = some s' →
      Reach step good s₀ s'

/-- An invariant of the good steps holds in every reached state. -/
theorem Reach.inv {I : σ → Prop} (hr : Reach step good s₀ s) (h₀ : I s₀)
    (hstep : ∀ s a s', I s → good s a → step s a = some s' → I s') : I s := by
  induction hr with
  | init => exact h₀
  | step a _ hg hs ih => exact hstep _ a _ ih hg hs

/-- A run goes on where another ends. -/
theorem Reach.trans (hr : Reach step good s₀ s) (h : Reach step good s s') : Reach step good s₀ s' := by
  induction h with
  | init => exact hr
  | step a _ hg hs ih => exact .step a ih hg hs

/-- A weaker condition reaches more. -/
theorem Reach.mono (hr : Reach step good s₀ s) (h : ∀ s a, good s a → good' s a) :
    Reach step good' s₀ s := by
  induction hr with
  | init => exact .init
  | step a _ hg hs ih => exact .step a ih (h _ a hg) hs

/-- When a good step that keeps `I` lowers a measure wherever `P` does not hold, `P` is reached. -/
theorem Reach.of_decreasing {I P : σ → Prop} (μ : σ → Nat)
    (hstep : ∀ s, I s → P s ∨ ∃ a s', good s a ∧ step s a = some s' ∧ I s' ∧ μ s' < μ s) (hs : I s) :
    ∃ s', Reach step good s s' ∧ I s' ∧ P s' := by
  induction hn : μ s using Nat.strongRecOn generalizing s with
  | ind n ih =>
      cases hstep s hs with
      | inl hp => exact ⟨s, .init, hs, hp⟩
      | inr hnext =>
          obtain ⟨a, s₁, hg, h, hs₁, hlt⟩ := hnext
          obtain ⟨s', hr, hs', hp⟩ := ih (μ s₁) (hn ▸ hlt) hs₁ rfl
          exact ⟨s', Reach.trans (.step a .init hg h) hr, hs', hp⟩

/-- The steps `as`, one after the other. -/
def run (step : σ → α → Option σ) : σ → List α → Option σ
  | s, [] => some s
  | s, a :: as => (step s a).bind fun s' => run step s' as

theorem run_cons {a : α} (as : List α) (h : step s a = some s') : run step s (a :: as) = run step s' as := by
  simp only [run, h, Option.bind_some]

theorem run_append (as bs : List α) (h : run step s as = some s') :
    run step s (as ++ bs) = run step s' bs := by
  induction as generalizing s with
  | nil => rw [Option.some.inj h, List.nil_append]
  | cons a as ih =>
      simp only [run, List.cons_append] at h ⊢
      cases hs : step s a with
      | none => simp [hs] at h
      | some s₁ =>
          rw [hs] at h
          exact ih h

/-- Every step of a run meets `P` where it is made. -/
def Always (step : σ → α → Option σ) (P : σ → α → Prop) : σ → List α → Prop
  | _, [] => True
  | s, a :: as => P s a ∧ ∀ s', step s a = some s' → Always step P s' as

instance [∀ s a, Decidable (good s a)] : ∀ s as, Decidable (Always step good s as)
  | _, [] => .isTrue trivial
  | s, a :: as =>
      have : Decidable (∀ s', step s a = some s' → Always step good s' as) :=
        match step s a with
        | none => .isTrue fun _ hs => nomatch hs
        | some s₁ =>
            have := instDecidableAlways s₁ as
            decidable_of_iff (Always step good s₁ as)
              ⟨fun ha _ hs => Option.some.inj hs ▸ ha, fun ha => ha s₁ rfl⟩
      inferInstanceAs (Decidable (_ ∧ _))

theorem Always.cons {a : α} {as : List α} (ha : good s a) (h : step s a = some s') (has : Always step good s' as) :
    Always step good s (a :: as) :=
  ⟨ha, fun _ hs => Option.some.inj (h.symm.trans hs) ▸ has⟩

theorem Always.append {as bs : List α} (ha : Always step good s as) (h : run step s as = some s')
    (hb : Always step good s' bs) : Always step good s (as ++ bs) := by
  induction as generalizing s with
  | nil => exact Option.some.inj h ▸ hb
  | cons a as ih =>
      refine ⟨ha.1, fun s₁ hs => ih (ha.2 s₁ hs) ?_⟩
      rw [← run_cons as hs]
      exact h

/-- A run whose steps are good where they are made. -/
theorem Reach.of_always {as : List α} (hr : Reach step good s₀ s) (hg : Always step good s as)
    (h : run step s as = some s') : Reach step good s₀ s' := by
  induction as generalizing s with
  | nil => exact Option.some.inj h ▸ hr
  | cons a as ih =>
      obtain ⟨ha, hrest⟩ := hg
      unfold Runs.run at h
      cases hs : step s a with
      | none =>
          rw [hs] at h
          contradiction
      | some s₁ =>
          rw [hs] at h
          exact ih (.step a hr ha hs) (hrest s₁ hs) h

/-- Conditions that are the same under an invariant of the steps that meet them are
met by the same runs. -/
theorem Always.iff {I : σ → Prop} {P Q : σ → α → Prop} (hiff : ∀ s a, I s → (P s a ↔ Q s a))
    (hstep : ∀ s a s', I s → Q s a → step s a = some s' → I s') {as : List α} (hs : I s) :
    Always step P s as ↔ Always step Q s as := by
  induction as generalizing s with
  | nil => simp only [Always]
  | cons a as ih =>
      unfold Always
      rw [hiff s a hs]
      exact and_congr_right fun hq => forall_congr' fun s' => imp_congr_right fun h => ih (hstep s a s' hs hq h)

/-- What an invariant gives for every step that may be made is met by every run. -/
theorem Always.of_inv {I : σ → Prop} {P : σ → α → Prop} {may : α → Prop}
    (hP : ∀ s a, I s → may a → P s a) (hstep : ∀ s a s', I s → may a → step s a = some s' → I s')
    {as : List α} (hs : I s) (has : ∀ a ∈ as, may a) : Always step P s as := by
  induction as generalizing s with
  | nil => trivial
  | cons a as ih =>
      obtain ⟨ha, hrest⟩ := List.forall_mem_cons.1 has
      exact ⟨hP s a hs ha, fun s' h => ih (hstep s a s' hs ha h) hrest⟩

/-- A run all of whose steps are good. -/
theorem Reach.run {as : List α} (hr : Reach step good s₀ s) (hg : ∀ a ∈ as, ∀ s, good s a)
    (h : run step s as = some s') : Reach step good s₀ s' := by
  refine hr.of_always ?_ h
  exact Always.of_inv (I := fun _ => True) (fun s a _ ha => hg a ha s) (fun _ _ _ _ _ _ => trivial) trivial
    fun a ha => ha

/-- How often the steps of a run are counted. -/
def count (step : σ → α → Option σ) (counted : σ → α → Bool) : σ → List α → Nat
  | _, [] => 0
  | s, a :: as => (counted s a).toNat + ((step s a).map fun s' => count step counted s' as).getD 0

/-- What every counted step brings nearer, and no other step moves away, is met by a run with more
counted steps than it was away. -/
theorem exists_of_count {I : Nat → σ → Prop} {P : σ → Prop} {may : α → Prop} {counted : σ → α → Bool}
    (hstep : ∀ k s a s', I k s → may a → step s a = some s' →
      P s' ∨ ∃ k', I k' s' ∧ k' + (counted s a).toNat ≤ k)
    {as : List α} (has : ∀ a ∈ as, may a) (hrun : run step s as = some s') {k : Nat} (hs : I k s)
    (hk : k < count step counted s as) :
    ∃ as₁ as₂ s₁, as = as₁ ++ as₂ ∧ run step s as₁ = some s₁ ∧ P s₁ := by
  induction as generalizing s k with
  | nil => exact absurd hk (Nat.not_lt_zero k)
  | cons a as ih =>
      obtain ⟨ha, hrest⟩ := List.forall_mem_cons.1 has
      cases hnext : step s a with
      | none => simp [run, hnext] at hrun
      | some s₁ =>
          rw [run_cons as hnext] at hrun
          simp only [count, hnext, Option.map_some, Option.getD_some] at hk
          rcases hstep k s a s₁ hs ha hnext with hp | ⟨k', hs₁, hle⟩
          · exact ⟨[a], as, s₁, rfl, by rw [run_cons _ hnext]; rfl, hp⟩
          · obtain ⟨as₁, as₂, s₂, rfl, hr, hp⟩ := ih hrest hrun hs₁ (by omega)
            exact ⟨a :: as₁, as₂, s₂, rfl, by rw [run_cons _ hnext, hr], hp⟩

/-! ## traces -/

variable {β τ : Type _}

/-- From `s` to `s'` by good calls, with their answers. -/
inductive Trace (step : σ → α → β → σ → Prop) (good : σ → α → Prop) : σ → List (α × β) → σ → Prop
  | nil (s : σ) : Trace step good s [] s
  | cons {s s' s'' : σ} {l : List (α × β)} (a : α) (b : β) : good s a → step s a b s' →
      Trace step good s' l s'' → Trace step good s ((a, b) :: l) s''

/-- A machine that can give the same answers to every good call can give the
same trace. -/
theorem Trace.simulate {step : σ → α → β → σ → Prop} {spec : τ → α → β → τ → Prop}
    {good : σ → α → Prop} {R : σ → τ → Prop}
    (hstep : ∀ s t a b s', R s t → good s a → step s a b s' → ∃ t', spec t a b t' ∧ R s' t')
    {l : List (α × β)} (h : Trace step good s l s') {t : τ} (hr : R s t) :
    ∃ t', Trace spec (fun _ _ => True) t l t' ∧ R s' t' := by
  induction h generalizing t with
  | nil s => exact ⟨t, .nil t, hr⟩
  | cons a b hg hs _ ih =>
      obtain ⟨t₁, ht₁, hr₁⟩ := hstep _ _ _ _ _ hr hg hs
      obtain ⟨t', ht', hr'⟩ := ih hr₁
      exact ⟨t', .cons a b trivial ht₁ ht', hr'⟩

end Runs
