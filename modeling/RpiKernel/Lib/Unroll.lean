import Mathlib.Logic.Function.Iterate

/-!
# Lib.Unroll

Loops that are unrolled, in any monad: `rounds f n x` is `n` rounds of the loop body
`f` after `x`.  A body that is `k` copies of `f`, for `n / k` rounds, and then `f` for the
`n % k` rounds that are left, are `n` rounds of `f` (`rounds_unrolled`).
-/

namespace Unroll

variable {m : Type → Type*} [Monad m] {σ : Type} {f : σ → m σ} {x : m σ} {n k : Nat}

/-- `n` rounds of `f`. -/
def rounds (f : σ → m σ) (n : Nat) (x : m σ) : m σ := (· >>= f)^[n] x

@[simp] theorem rounds_zero : rounds f 0 x = x := rfl

theorem rounds_succ : rounds f (n + 1) x = rounds f n (x >>= f) := rfl

theorem rounds_add : rounds f (n + k) x = rounds f n (rounds f k x) := Function.iterate_add_apply _ n k x

/-- A body that is `k` copies of another. -/
theorem rounds_mul {g : σ → m σ} (hg : ∀ x : m σ, x >>= g = rounds f k x) :
    rounds g n x = rounds f (k * n) x := by
  unfold rounds at hg ⊢
  rw [Function.iterate_mul, funext hg]

theorem rounds_unrolled {g : σ → m σ} (hg : ∀ x : m σ, x >>= g = rounds f k x) :
    rounds f (n % k) (rounds g (n / k) x) = rounds f n x := by
  rw [rounds_mul hg, ← rounds_add, Nat.mod_add_div]

end Unroll
