import RpiKernel.Lib.Bytes

/-!
# Lib.Window

Memory of which only a part may be read: a reader gives `none` outside of it.
Code that takes its bytes from a reader and fails where there is none has read
nothing outside of a `window` when it ends there, and then it does the same
with every reader that knows more (`Sub`).
-/

namespace Bytes

variable {mem : Nat → UInt8} {read read' : Nat → Option UInt8} {p n : Nat} {b b' : List UInt8}

/-- All of memory. -/
def whole (mem : Nat → UInt8) (x : Nat) : Option UInt8 := some (mem x)

/-- The `n` bytes at `p`. -/
def window (mem : Nat → UInt8) (p n x : Nat) : Option UInt8 :=
  if p ≤ x ∧ x < p + n then some (mem x) else none

/-- What the one gives, the other gives, too. -/
def Sub (read read' : Nat → Option UInt8) : Prop := ∀ x c, read x = some c → read' x = some c

theorem window_sub : Sub (window mem p n) (whole mem) := by
  intro x c h
  unfold window at h
  split at h
  · exact h
  · contradiction

/-- The bytes `b` can be read at `p`. -/
def ReadsAt (read : Nat → Option UInt8) : Nat → List UInt8 → Prop
  | _, [] => True
  | p, c :: b => read p = some c ∧ ReadsAt read (p + 1) b

theorem readsAt_append : ReadsAt read p (b ++ b') ↔ ReadsAt read p b ∧ ReadsAt read (p + b.length) b' := by
  induction b generalizing p with
  | nil => simp [ReadsAt]
  | cons c b ih => simp [ReadsAt, ih, and_assoc, Nat.add_assoc, Nat.add_comm 1]

/-- What memory holds can be read through every window on it. -/
theorem HoldsAt.readsAt {a : Nat} (h : HoldsAt mem p b) (ha : a ≤ p) (hn : p + b.length ≤ a + n) :
    ReadsAt (window mem a n) p b := by
  induction b generalizing p with
  | nil => trivial
  | cons c b ih =>
      have hc := holdsAt_cons.1 h
      rw [List.length_cons] at hn
      exact ⟨by simp [window, hc.1, ha, show p < a + n by omega], ih hc.2 (by omega) (by omega)⟩

/-- The bytes of `x` can be read at `p`, those in front of the position `n`. -/
def Readable (read : Nat → Option UInt8) (p : Nat) (x : Nat → UInt8) (n : Nat) : Prop :=
  ∀ i < n, read (p + i) = some (x i)

instance (x : Nat → UInt8) : Decidable (Readable read p x n) := inferInstanceAs (Decidable (∀ i < n, _))

theorem Readable.tail {x : Nat → UInt8} (h : Readable read p x (n + 1)) :
    Readable read (p + 1) (fun i => x (i + 1)) n := fun i hi => by
  rw [Nat.add_right_comm, Nat.add_assoc]
  exact h (i + 1) (Nat.succ_lt_succ hi)

/-- What the reader gives of the `n` bytes at `p`, and nothing else. -/
def clip (read : Nat → Option UInt8) (p n a : Nat) : Option UInt8 :=
  if p ≤ a ∧ a < p + n then read a else none

theorem Readable.clip {x : Nat → UInt8} (h : Readable read p x n) : Readable (clip read p n) p x n :=
  fun i hi => (if_pos ⟨Nat.le_add_right p i, Nat.add_lt_add_left hi p⟩).trans (h i hi)

end Bytes
