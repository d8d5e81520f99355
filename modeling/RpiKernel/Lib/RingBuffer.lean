import Mathlib.Data.Nat.ModEq
import Mathlib.Logic.Function.Basic

/-!
# Lib.RingBuffer

Ring buffers of `n` slots with a write and a read index.  One slot stays free,
so the buffer is empty when the indices meet and full when one more step of the
write index would make them meet.  Only the indices modulo `n` matter: an index
that has not been wrapped yet denotes the same buffer.
-/

/-- The slots and the two indices. -/
structure RingBuffer (α : Type _) where
  buf : Nat → α
  widx : Nat
  ridx : Nat

namespace RingBuffer

variable {α : Type _} {n k : Nat} {r r' : RingBuffer α} {c : α}

/-- The number of slots between the indices. -/
def count (n : Nat) (r : RingBuffer α) : Nat := (r.widx + (n - r.ridx % n)) % n

/-- What is in the buffer, the oldest first. -/
def contents (n : Nat) (r : RingBuffer α) : List α :=
  (List.range (count n r)).map fun i => r.buf ((r.ridx + i) % n)

/-- `c` is written to the slot of the write index, which moves on. -/
structure Pushed (n : Nat) (c : α) (r r' : RingBuffer α) : Prop where
  buf : r'.buf = Function.update r.buf (r.widx % n) c
  widx : r'.widx ≡ r.widx + 1 [MOD n]
  ridx : r'.ridx ≡ r.ridx [MOD n]

/-- The read index moves on. -/
structure Popped (n : Nat) (r r' : RingBuffer α) : Prop where
  buf : r'.buf = r.buf
  widx : r'.widx ≡ r.widx [MOD n]
  ridx : r'.ridx ≡ r.ridx + 1 [MOD n]

/-- The same buffer, up to the wrapping of the indices. -/
structure Wrapped (n : Nat) (r r' : RingBuffer α) : Prop where
  buf : r'.buf = r.buf
  widx : r'.widx ≡ r.widx [MOD n]
  ridx : r'.ridx ≡ r.ridx [MOD n]

/-! ## counting -/

theorem count_lt (hn : 0 < n) (r : RingBuffer α) : count n r < n := Nat.mod_lt _ hn

theorem add_count (hn : 0 < n) (r : RingBuffer α) : r.ridx + count n r ≡ r.widx [MOD n] := by
  have hle : r.ridx % n ≤ n := Nat.le_of_lt (Nat.mod_lt _ hn)
  calc r.ridx + count n r
      ≡ r.ridx % n + (r.widx + (n - r.ridx % n)) [MOD n] :=
        (Nat.mod_modEq _ _).symm.add (Nat.mod_modEq _ _)
    _ = r.widx + n := by omega
    _ ≡ r.widx [MOD n] := Nat.add_modEq_right

theorem count_eq (hk : k < n) (h : r.ridx + k ≡ r.widx [MOD n]) : count n r = k := by
  have hn : 0 < n := Nat.lt_of_le_of_lt (Nat.zero_le k) hk
  have hmod : count n r ≡ k [MOD n] := ((add_count hn r).trans h.symm).add_left_cancel' _
  exact hmod.eq_of_lt_of_lt (count_lt hn r) hk

/-- The indices meet in an empty buffer. -/
theorem count_eq_zero (hn : 0 < n) : count n r = 0 ↔ r.ridx % n = r.widx % n := by
  have hadd := add_count hn r
  refine ⟨fun h => ?_, fun h => count_eq hn h⟩
  rwa [h] at hadd

/-- In a full buffer they would meet after one more step. -/
theorem count_eq_full (hn : 0 < n) : count n r + 1 = n ↔ (r.widx + 1) % n = r.ridx % n := by
  have hadd := add_count hn r
  constructor
  case mp =>
    intro h
    calc r.widx + 1
        ≡ r.ridx + count n r + 1 [MOD n] := hadd.symm.add_right 1
      _ = r.ridx + n := by omega
      _ ≡ r.ridx [MOD n] := Nat.add_modEq_right
  case mpr =>
    intro h
    obtain ⟨m, rfl⟩ : ∃ m, n = m + 1 := ⟨n - 1, by omega⟩
    have hm : r.ridx + m ≡ r.widx [MOD m + 1] := by
      refine Nat.ModEq.add_right_cancel' 1 ?_
      calc r.ridx + m + 1
          = r.ridx + (m + 1) := by omega
        _ ≡ r.ridx [MOD m + 1] := Nat.add_modEq_right
        _ ≡ r.widx + 1 [MOD m + 1] := Nat.ModEq.symm h
    rw [count_eq (Nat.lt_succ_self m) hm]

theorem length_contents (r : RingBuffer α) : (contents n r).length = count n r := by simp [contents]

/-! ## writing and reading -/

theorem Wrapped.count (h : Wrapped n r r') (hn : 0 < n) : RingBuffer.count n r' = RingBuffer.count n r :=
  count_eq (count_lt hn r) ((h.ridx.add_right _).trans ((add_count hn r).trans h.widx.symm))

theorem Wrapped.contents (h : Wrapped n r r') (hn : 0 < n) :
    RingBuffer.contents n r' = RingBuffer.contents n r := by
  unfold RingBuffer.contents
  rw [h.count hn, h.buf]
  refine List.map_congr_left fun i _ => ?_
  rw [show (r'.ridx + i) % n = (r.ridx + i) % n from h.ridx.add_right i]

theorem Pushed.count (h : Pushed n c r r') (hc : RingBuffer.count n r + 1 < n) :
    RingBuffer.count n r' = RingBuffer.count n r + 1 := by
  have hn : 0 < n := Nat.lt_of_le_of_lt (Nat.zero_le _) hc
  refine count_eq hc ?_
  calc r'.ridx + (RingBuffer.count n r + 1)
      ≡ r.ridx + (RingBuffer.count n r + 1) [MOD n] := h.ridx.add_right _
    _ = r.ridx + RingBuffer.count n r + 1 := by omega
    _ ≡ r.widx + 1 [MOD n] := (add_count hn r).add_right 1
    _ ≡ r'.widx [MOD n] := h.widx.symm

/-- With a slot free, `c` is behind what was there. -/
theorem Pushed.contents (h : Pushed n c r r') (hc : RingBuffer.count n r + 1 < n) :
    RingBuffer.contents n r' = RingBuffer.contents n r ++ [c] := by
  have hn : 0 < n := Nat.lt_of_le_of_lt (Nat.zero_le _) hc
  have hslot : ∀ i, (r'.ridx + i) % n = (r.ridx + i) % n := fun i => h.ridx.add_right i
  have hlast : (r.ridx + RingBuffer.count n r) % n = r.widx % n := add_count hn r
  unfold RingBuffer.contents
  rw [h.count hc, List.range_succ, List.map_append, h.buf]
  congr 1
  · refine List.map_congr_left fun i hi => ?_
    have hlt : i < RingBuffer.count n r := List.mem_range.1 hi
    have hne : (r.ridx + i) % n ≠ r.widx % n := fun he => by
      have hmod : i ≡ RingBuffer.count n r [MOD n] :=
        Nat.ModEq.add_left_cancel' r.ridx (he.trans hlast.symm)
      exact Nat.ne_of_lt hlt (hmod.eq_of_lt_of_lt (by omega) (by omega))
    rw [hslot, Function.update_of_ne hne]
  · simp [hslot, hlast]

/-- Without one, the buffer is empty afterwards. -/
theorem Pushed.count_full (h : Pushed n c r r') (hn : 0 < n) (hc : RingBuffer.count n r + 1 = n) :
    RingBuffer.count n r' = 0 := by
  have hfull := (count_eq_full hn).1 hc
  exact (count_eq_zero hn).2 (h.ridx.trans ((Nat.ModEq.symm hfull).trans h.widx.symm))

theorem Popped.count (h : Popped n r r') (hn : 0 < n) (hc : RingBuffer.count n r = k + 1) :
    RingBuffer.count n r' = k := by
  have hlt := count_lt hn r
  refine count_eq (by omega) ?_
  calc r'.ridx + k
      ≡ r.ridx + 1 + k [MOD n] := h.ridx.add_right k
    _ = r.ridx + RingBuffer.count n r := by omega
    _ ≡ r.widx [MOD n] := add_count hn r
    _ ≡ r'.widx [MOD n] := h.widx.symm

/-- The oldest one is taken out of a buffer that is not empty. -/
theorem Popped.contents (h : Popped n r r') (hn : 0 < n) (hc : RingBuffer.count n r ≠ 0) :
    RingBuffer.contents n r = r.buf (r.ridx % n) :: RingBuffer.contents n r' := by
  obtain ⟨k, hk⟩ : ∃ k, RingBuffer.count n r = k + 1 := ⟨RingBuffer.count n r - 1, by omega⟩
  unfold RingBuffer.contents
  rw [h.count hn hk, hk, List.range_succ_eq_map, List.map_cons, List.map_map, h.buf]
  congr 1
  refine List.map_congr_left fun i _ => ?_
  have hslot : (r'.ridx + i) % n = (r.ridx + 1 + i) % n := h.ridx.add_right i
  rw [hslot, Nat.add_assoc, Nat.add_comm 1 i]
  rfl

/-- An empty buffer seems full afterwards. -/
theorem Popped.count_empty (h : Popped n r r') (hn : 0 < n) (hc : RingBuffer.count n r = 0) :
    RingBuffer.count n r' + 1 = n := by
  have hempty := (count_eq_zero hn).1 hc
  refine (count_eq_full hn).2 ?_
  exact (h.widx.add_right 1).trans (((Nat.ModEq.symm hempty).add_right 1).trans h.ridx.symm)

end RingBuffer
