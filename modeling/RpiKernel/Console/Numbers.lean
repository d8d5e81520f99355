import RpiKernel.Lib.Numerals
import Mathlib.Data.Int.Init
import Mathlib.Tactic.Ring

/-!
# RpiKernel.Console.Numbers

The numbers of `vsprintf`, which are put together in `tmpstr` from its end.

The loops come to the first digit before they come to the front of `tmpstr`: a decimal number has
ten digits and a sign, and a hexadecimal one has sixteen, of which a negative number has all
(`Tmpstr.digitsLoop_at`).  So do the widths that padding is done for.
-/

namespace RpiKernel.Console

open Numerals

/-! ## the code -/

/-- What ends a string. -/
def nul : Char := Char.ofNat 0

/-- `tmpstr`, which is filled from its end: the index, the string that is there, and the indices that
were stored to. -/
structure Tmpstr where
  i : Int
  string : List Char
  stored : List Int

namespace Tmpstr

/-- `tmpstr[i] = 0`. -/
def ended (i : Int) : Tmpstr := ⟨i, [], [i]⟩

/-- `tmpstr[--i] = c`. -/
def push (c : Char) (t : Tmpstr) : Tmpstr := ⟨t.i - 1, c :: t.string, (t.i - 1) :: t.stored⟩

/-- The loop over the digits, which goes on while there is a number left and room.  Dividing by 16
is the shift by four, also of a negative number. -/
def digitsLoop (base : Int) (digit : Nat → Char) : Nat → Int → Tmpstr → Tmpstr
  | 0, _, t => t
  | n + 1, arg, t =>
      let t := t.push (digit (arg % base).toNat)
      let arg := arg / base
      if arg ≠ 0 ∧ t.i > 0 then digitsLoop base digit n arg t else t

/-- The loop that pads down to index `stop`. -/
def padLoop (c : Char) (stop : Int) : Nat → Tmpstr → Tmpstr
  | 0, t => t
  | n + 1, t => if t.i > stop then padLoop c stop n (t.push c) else t

end Tmpstr

/-- A digit of `%d`. -/
def decimalDigitChar (d : Nat) : Char := Char.ofNat (0x30 + d)

/-- A digit of `%x`. -/
def hexDigitChar (n : Nat) : Char := Char.ofNat (n + if n > 9 then 0x37 else 0x30)

/-- `tmpstr` for `%d`, with the width `len`. -/
def decimalString (len : Int) (v : BitVec 32) : Tmpstr :=
  let arg := if v.toInt < 0 then v.toInt * -1 else v.toInt
  let arg := if arg > 99999999999999999 then 99999999999999999 else arg
  let t := Tmpstr.digitsLoop 10 decimalDigitChar 18 arg (Tmpstr.ended 18)
  let t := if v.toInt < 0 then t.push '-' else t
  if len > 0 ∧ len < 18 then Tmpstr.padLoop ' ' (18 - len) 18 t else t

/-- `tmpstr` for `%x`, with the width `len`. -/
def hexString (len : Int) (v : BitVec 64) : Tmpstr :=
  let t := Tmpstr.digitsLoop 16 hexDigitChar 16 v.toInt (Tmpstr.ended 16)
  if len > 0 ∧ len ≤ 16 then Tmpstr.padLoop '0' (16 - len) 16 t else t

/-! ## what is printed -/

/-- A decimal number, to the right of a field when that is narrow enough. -/
def decimalText (len v : Int) : List Char :=
  List.leftpad (if len > 0 ∧ len < 18 then len.toNat else 0) ' '
    ((if v < 0 then ['-'] else []) ++ (numeral 10 v.natAbs).map decimalDigitChar)

/-- A hexadecimal number. -/
def hexText (len : Int) (n : Nat) : List Char :=
  List.leftpad (if len > 0 ∧ len ≤ 16 then len.toNat else 0) '0' ((numeral 16 n).map hexDigitChar)

namespace Tmpstr

/-- The string stands in front of index `start`, and everything that was stored is there. -/
structure At (t : Tmpstr) (start : Int) (text : List Char) : Prop where
  string : t.string = text
  i : t.i = start - text.length
  stored : ∀ j ∈ t.stored, t.i ≤ j ∧ j ≤ start

variable {t : Tmpstr} {start : Int} {text : List Char} {c : Char}

theorem ended_at (i : Int) : (ended i).At i [] := ⟨rfl, by simp [ended], by simp [ended]⟩

theorem At.push (h : t.At start text) (c : Char) : (t.push c).At start (c :: text) := by
  refine ⟨?_, ?_, fun j hj => ?_⟩
  · simp [Tmpstr.push, h.string]
  · simp [Tmpstr.push, h.i]
    omega
  · have hi := h.i
    simp only [Tmpstr.push, List.mem_cons] at hj ⊢
    cases hj with
    | inl hj => omega
    | inr hj =>
        have hstored := h.stored j hj
        omega

/-- Padding. -/
theorem padLoop_at (h : t.At start text) {len n : Nat} (hn : len ≤ n + text.length) :
    (padLoop c (start - len) n t).At start (List.leftpad len c text) := by
  induction n generalizing t text with
  | zero =>
      have hnone : len - text.length = 0 := by omega
      simpa [padLoop, List.leftpad, hnone] using h
  | succ n ih =>
      have hi := h.i
      unfold padLoop
      split
      · have hpad := ih (h.push c) (by rw [List.length_cons]; omega)
        have hlen : len - text.length = (len - (text.length + 1)) + 1 := by omega
        simpa [List.leftpad, hlen, List.replicate_succ'] using hpad
      · have hnone : len - text.length = 0 := by omega
        simpa [List.leftpad, hnone] using h

/-- Digits and quotients of a number that differs from `u` at a place further up. -/
theorem place_divMod {b u e n : Nat} {s : Int} (hb : 1 < b) (hs : s = u - (e * b ^ (n + 1) : Nat)) :
    (s % b).toNat = u % b ∧ s / b = (u / b : Nat) - (e * b ^ n : Nat) := by
  have hpos : (b : Int) ≠ 0 := by omega
  have hplace : s = u - (e * b ^ n : Nat) * b := by
    rw [hs]
    push_cast
    ring
  constructor
  · rw [hplace, Int.sub_mul_emod_self_right]
    omega
  · rw [hplace, Int.sub_mul_ediv_right _ _ hpos]
    rfl

/-- The digits of a number.  One that is negative (`e` is 1) has a digit at every place, and stays
negative until there is no room left. -/
theorem digitsLoop_at {b : Nat} (hb : 1 < b) (digit : Nat → Char) {n u e : Nat} {s : Int}
    (h : t.At start text) (hi : t.i = n + 1) (hu : u < b ^ (n + 1))
    (hs : s = u - (e * b ^ (n + 1) : Nat)) (he : e = 0 ∨ b ^ n ≤ u) :
    (digitsLoop b digit (n + 1) s t).At start ((numeral b u).map digit ++ text) := by
  obtain ⟨hmod, hdiv⟩ := place_divMod hb hs
  induction n generalizing u s t text with
  | zero =>
      have hlt : u < b := by simpa using hu
      have hroom : ¬ (t.push (digit (u % b))).i > 0 := by simp [push, hi]
      unfold digitsLoop
      simp only [hmod, hroom, and_false, if_false]
      rw [numeral_of_lt hlt, Nat.mod_eq_of_lt hlt]
      exact h.push _
  | succ n ih =>
      have hroom : (t.push (digit (u % b))).i = n + 1 := by
        simp [push, hi]
      have hbpow : b ≤ b ^ (n + 1) := Nat.le_self_pow (by omega) b
      have hquot : u / b < b ^ (n + 1) := by
        rw [Nat.div_lt_iff_lt_mul (by omega)]
        rwa [← Nat.pow_succ]
      unfold digitsLoop
      simp only [hmod, hdiv, hroom]
      rcases Nat.lt_or_ge u b with hlt | hle
      · have he0 : e = 0 := by omega
        have hzero : u / b = 0 := Nat.div_eq_of_lt hlt
        simp only [he0, hzero, Nat.zero_mul, Nat.cast_zero, sub_zero, ne_eq, not_true, false_and, if_false]
        rw [numeral_of_lt hlt, Nat.mod_eq_of_lt hlt]
        exact h.push _
      · have hmore : ((u / b : Nat) : Int) - (e * b ^ (n + 1) : Nat) ≠ 0 := by
          have hdivPos : 0 < u / b := Nat.div_pos hle (by omega)
          cases Nat.eq_zero_or_pos e with
          | inl he0 =>
              rw [he0, Nat.zero_mul]
              omega
          | inr hepos =>
              have hpow : b ^ (n + 1) ≤ e * b ^ (n + 1) := Nat.le_mul_of_pos_left _ hepos
              omega
        have hplaces : e = 0 ∨ b ^ n ≤ u / b := by
          refine he.imp_right fun hpow => ?_
          rwa [Nat.le_div_iff_mul_le (by omega), ← Nat.pow_succ]
        rw [if_pos ⟨hmore, by omega⟩, numeral_of_le hb hle, List.map_append, List.append_assoc]
        exact ih (h.push _) hroom hquot rfl hplaces (place_divMod hb rfl).1 (place_divMod hb rfl).2

/-- Padding to a width, or none. -/
theorem pad_at (h : t.At start text) (c : Char) {len : Int} {n : Nat} {pads : Prop} [Decidable pads]
    (hpads : pads → 0 < len ∧ len ≤ n) :
    (if pads then padLoop c (start - len) n t else t).At start
      (List.leftpad (if pads then len.toNat else 0) c text) := by
  split
  · rename_i hlen
    have hbounds := hpads hlen
    have hcast : len = (len.toNat : Int) := by omega
    rw [hcast]
    exact padLoop_at h (by omega)
  · simpa [List.leftpad] using h

end Tmpstr

/-- What `%d` puts together. -/
theorem decimalString_at (len : Int) (v : BitVec 32) :
    (decimalString len v).At 18 (decimalText len v.toInt) ∧ (decimalText len v.toInt).length ≤ 18 := by
  have hlt := BitVec.toInt_lt (x := v)
  have hge := BitVec.le_toInt v
  have harg : (if v.toInt < 0 then v.toInt * -1 else v.toInt) = (v.toInt.natAbs : Int) := by
    split <;> omega
  have hclamp : ¬ (v.toInt.natAbs : Int) > 99999999999999999 := by omega
  have hnumber : (numeral 10 v.toInt.natAbs).length ≤ 10 := length_numeral_le (by decide) (by decide) (by omega)
  have hdigits := Tmpstr.digitsLoop_at (e := 0) (n := 17) (s := v.toInt.natAbs) (show 1 < 10 by decide)
    decimalDigitChar (Tmpstr.ended_at 18) rfl (show v.toInt.natAbs < _ by omega) (by simp) (.inl rfl)
  have hsign : (if v.toInt < 0 then
      (Tmpstr.digitsLoop 10 decimalDigitChar 18 v.toInt.natAbs (Tmpstr.ended 18)).push '-'
      else Tmpstr.digitsLoop 10 decimalDigitChar 18 v.toInt.natAbs (Tmpstr.ended 18)).At 18
      ((if v.toInt < 0 then ['-'] else []) ++ (numeral 10 v.toInt.natAbs).map decimalDigitChar) := by
    rw [List.append_nil] at hdigits
    split
    · exact hdigits.push '-'
    · exact hdigits
  constructor
  · unfold decimalString
    simp only [harg, hclamp, if_false]
    exact Tmpstr.pad_at hsign ' ' (by omega)
  · unfold decimalText
    rw [List.length_leftpad]
    split <;> split <;> simp <;> omega

/-- What `%x` puts together. -/
theorem hexString_at (len : Int) (v : BitVec 64) :
    (hexString len v).At 16 (hexText len v.toNat) ∧ (hexText len v.toNat).length ≤ 16 := by
  have hlt := v.isLt
  have hnumber : (numeral 16 v.toNat).length ≤ 16 := length_numeral_le (by decide) (by decide) (by omega)
  -- a negative number has a digit at every place
  have hplaces : ∃ e : Nat, v.toInt = v.toNat - (e * 16 ^ 16 : Nat) ∧ (e = 0 ∨ 16 ^ 15 ≤ v.toNat) := by
    rw [BitVec.toInt_eq_toNat_cond]
    split
    · exact ⟨0, by simp, .inl rfl⟩
    · exact ⟨1, by omega, .inr (by omega)⟩
  obtain ⟨e, hs, he⟩ := hplaces
  have hdigits := Tmpstr.digitsLoop_at (n := 15) (show 1 < 16 by decide) hexDigitChar (Tmpstr.ended_at 16) rfl
    (show v.toNat < _ by omega) hs he
  rw [List.append_nil] at hdigits
  constructor
  · unfold hexString
    exact Tmpstr.pad_at hdigits '0' (by omega)
  · unfold hexText
    rw [List.length_leftpad]
    split <;> simp <;> omega

/-- No number has a NUL in it. -/
theorem nul_notMem_decimalText (len v : Int) : nul ∉ decimalText len v := by
  have hdigit : ∀ d < 10, decimalDigitChar d ≠ nul := by decide
  simp only [decimalText, List.leftpad, List.mem_append, List.mem_replicate, List.mem_map, not_or]
  refine ⟨fun hpad => absurd hpad.2 (by decide), by split <;> decide, fun hd => ?_⟩
  obtain ⟨d, hd, hnul⟩ := hd
  exact hdigit d (lt_of_mem_numeral (by decide) hd) hnul

theorem nul_notMem_hexText (len : Int) (n : Nat) : nul ∉ hexText len n := by
  have hdigit : ∀ d < 16, hexDigitChar d ≠ nul := by decide
  simp only [hexText, List.leftpad, List.mem_append, List.mem_replicate, List.mem_map, not_or]
  refine ⟨fun hpad => absurd hpad.2 (by decide), fun hd => ?_⟩
  obtain ⟨d, hd, hnul⟩ := hd
  exact hdigit d (lt_of_mem_numeral (by decide) hd) hnul

end RpiKernel.Console
