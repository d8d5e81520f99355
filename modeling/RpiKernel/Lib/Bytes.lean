import Mathlib.Algebra.Group.Nat.Defs
import Mathlib.Data.List.Basic
import Mathlib.Tactic.Common

/-!
# Lib.Bytes

Runs of bytes in a memory `Nat → UInt8`: loading and storing them, and
`HoldsAt mem p b`, which says that memory holds `b` at `p`.  A run in parts is
held in parts (`holdsAt_append`), and overwriting the middle of a run leaves
the rest (`HoldsAt.store`).
-/

namespace Bytes

/-- Memory after `bytes` were stored at `p`. -/
def storeBytes (p : Nat) (bytes : List UInt8) (mem : Nat → UInt8) : Nat → UInt8 :=
  fun x => if p ≤ x then bytes.getD (x - p) (mem x) else mem x

/-- The `len` bytes at `p`. -/
def loadBytes (p len : Nat) (mem : Nat → UInt8) : List UInt8 :=
  (List.range len).map fun i => mem (p + i)

/-- Memory holds `b` at `p`. -/
def HoldsAt (mem : Nat → UInt8) (p : Nat) (b : List UInt8) : Prop :=
  loadBytes p b.length mem = b

instance (mem : Nat → UInt8) (p : Nat) (b : List UInt8) : Decidable (HoldsAt mem p b) :=
  inferInstanceAs (Decidable (_ = _))

variable {mem : Nat → UInt8} {p : Nat} {b b' : List UInt8}

@[simp] theorem length_loadBytes (p n : Nat) : (loadBytes p n mem).length = n := by
  simp [loadBytes]

theorem loadBytes_add (p m n : Nat) :
    loadBytes p (m + n) mem = loadBytes p m mem ++ loadBytes (p + m) n mem := by
  simp [loadBytes, List.range_add, Nat.add_assoc]

theorem holdsAt_append :
    HoldsAt mem p (b ++ b') ↔ HoldsAt mem p b ∧ HoldsAt mem (p + b.length) b' := by
  simp only [HoldsAt, List.length_append, loadBytes_add]
  constructor
  case mp => exact fun h => List.append_inj h (by simp)
  case mpr => exact fun ⟨h, h'⟩ => by rw [h, h']

theorem holdsAt_cons {c : UInt8} :
    HoldsAt mem p (c :: b) ↔ mem p = c ∧ HoldsAt mem (p + 1) b := by
  rw [← List.singleton_append, holdsAt_append]
  simp [HoldsAt, loadBytes]

theorem holdsAt_nil : HoldsAt mem p [] := rfl

/-- The first bytes of what is held. -/
theorem HoldsAt.take (h : HoldsAt mem p b) {n : Nat} (hn : n ≤ b.length) :
    loadBytes p n mem = b.take n := by
  obtain ⟨k, hk⟩ := Nat.exists_eq_add_of_le hn
  rw [HoldsAt, hk, loadBytes_add] at h
  rw [← h, List.take_append_of_le_length (by simp), List.take_of_length_le (by simp)]

/-- Bytes outside of the run do not matter. -/
theorem HoldsAt.congr {mem' : Nat → UInt8} (h : HoldsAt mem p b)
    (he : ∀ x, p ≤ x → x < p + b.length → mem' x = mem x) : HoldsAt mem' p b := by
  have hload : loadBytes p b.length mem' = loadBytes p b.length mem := by
    refine List.map_congr_left fun i hi => he _ (Nat.le_add_right _ _) ?_
    have hlt := List.mem_range.1 hi
    omega
  rw [HoldsAt, hload, h]

/-- Nothing outside of the stored bytes changes. -/
theorem storeBytes_of_not_mem {x : Nat} (h : x < p ∨ p + b.length ≤ x) :
    storeBytes p b mem x = mem x := by
  unfold storeBytes
  split
  · rw [List.getD_eq_getElem?_getD, List.getElem?_eq_none (by omega), Option.getD_none]
  · rfl

/-- A stored byte. -/
theorem storeBytes_add {i : Nat} (hi : i < b.length) : storeBytes p b mem (p + i) = b[i] := by
  simp [storeBytes, hi]

@[simp] theorem storeBytes_nil : storeBytes p [] mem = mem := by
  funext x
  simp [storeBytes]

/-- Storing a run in two parts. -/
theorem storeBytes_append : storeBytes p (b ++ b') mem = storeBytes (p + b.length) b' (storeBytes p b mem) := by
  funext x
  rcases Nat.lt_or_ge x (p + b.length) with hx | hx
  · rw [storeBytes_of_not_mem (.inl hx)]
    rcases Nat.lt_or_ge x p with hlt | hle
    · rw [storeBytes_of_not_mem (.inl hlt), storeBytes_of_not_mem (.inl hlt)]
    · obtain ⟨i, rfl⟩ := Nat.exists_eq_add_of_le hle
      have hi : i < b.length := by omega
      rw [storeBytes_add (by rw [List.length_append]; omega), storeBytes_add hi, List.getElem_append_left hi]
  · obtain ⟨i, rfl⟩ := Nat.exists_eq_add_of_le hx
    rcases Nat.lt_or_ge i b'.length with hi | hi
    · rw [storeBytes_add hi, Nat.add_assoc, storeBytes_add (by rw [List.length_append]; omega),
        List.getElem_append_right (Nat.le_add_right _ _)]
      simp
    · rw [storeBytes_of_not_mem (.inr (by rw [List.length_append]; omega)),
        storeBytes_of_not_mem (.inr (by omega)), storeBytes_of_not_mem (.inr (by omega))]

/-- What was stored is held. -/
theorem holdsAt_storeBytes : HoldsAt (storeBytes p b mem) p b := by
  refine List.ext_getElem (by simp) fun i hi hi' => ?_
  simp [loadBytes, storeBytes, hi']

/-- Overwriting in the middle of a run, or at its end. -/
theorem HoldsAt.store (h : HoldsAt mem p b) {k : Nat} (hk : k ≤ b.length) (b' : List UInt8) :
    HoldsAt (storeBytes (p + k) b' mem) p (b.take k ++ b' ++ b.drop (k + b'.length)) := by
  have hlen : (b.take k).length = k := List.length_take_of_le hk
  refine holdsAt_append.2 ⟨holdsAt_append.2 ⟨?_, ?_⟩, ?_⟩
  · have hsplit := h
    rw [← List.take_append_drop k b, holdsAt_append] at hsplit
    exact hsplit.1.congr fun x _ hx => storeBytes_of_not_mem (.inl (by omega))
  · rw [hlen]
    exact holdsAt_storeBytes
  · rw [List.length_append, hlen]
    rcases Nat.le_total (k + b'.length) b.length with hle | hle
    · have hsplit := h
      rw [← List.take_append_drop (k + b'.length) b, holdsAt_append,
        List.length_take_of_le hle] at hsplit
      exact hsplit.2.congr fun x hx _ => storeBytes_of_not_mem (.inr (by omega))
    · rw [List.drop_eq_nil_of_le hle]
      exact holdsAt_nil

/-- Part of what is held. -/
theorem HoldsAt.slice (h : HoldsAt mem p b) {k n : Nat} (hk : k + n ≤ b.length) :
    loadBytes (p + k) n mem = (b.drop k).take n := by
  have hsplit := h
  rw [← List.take_append_drop k b, holdsAt_append, List.length_take_of_le (by omega)] at hsplit
  exact hsplit.2.take (by
    rw [List.length_drop]
    omega)

end Bytes
