import RpiKernel.Lib.Window
import Mathlib.Data.List.Induction
import Mathlib.Tactic.Common

/-!
# RpiKernel.Utils.StringCompare

`utils_string_compare` in `utils.c`.  It skips line ends, and with them the
terminators: its comparison of two strings stays inside of them when they
differ after the same number of bytes, or are the same up to line ends and
neither of them ends with one (`Separates`), and in no other case.
-/

namespace RpiKernel

open Bytes

/-! ## the code -/

/-- `while (*str == '\r' || *str == '\n' || *str == '\0') str++;` in at most
`n` rounds, and where it leaves `str`. -/
def skipLoop (read : Nat → Option UInt8) : Nat → Nat → Option Nat
  | 0, _ => none
  | n + 1, str =>
      (read str).bind fun c =>
        if c = 13 ∨ c = 10 ∨ c = 0 then skipLoop read n (str + 1) else some str

/-- `utils_string_compare` in at most `n` rounds, with what can be read through
each of its arguments; `none` also where it reads anything else. -/
def utilsStringCompare (read₁ read₂ : Nat → Option UInt8) : Nat → Nat → Nat → Option Nat
  | 0, _, _ => none
  | n + 1, str₁, str₂ =>
      -- the second string is looked at only where the first one has ended
      ((read₁ str₁).bind fun c₁ =>
        if c₁ ≠ 0 then some true else (read₂ str₂).map fun c₂ => c₂ != 0).bind fun more =>
        if !more then some 1
        else
          (skipLoop read₁ n str₁).bind fun str₁ =>
          (skipLoop read₂ n str₂).bind fun str₂ =>
          (read₁ str₁).bind fun c₁ =>
          (read₂ str₂).bind fun c₂ =>
            if c₁ = 0 ∧ c₂ = 0 then some 1
            else if c₁ ≠ c₂ then some 0
            else utilsStringCompare read₁ read₂ n (str₁ + 1) (str₂ + 1)

/-! ## strings -/

/-- `CR` or `LF`. -/
def isLineEnd (c : UInt8) : Bool := c == 13 || c == 10

/-- A string without its line ends. -/
def stripLineEnds (s : List UInt8) : List UInt8 := s.filter fun c => !isLineEnd c

theorem strip_of_visible {s : List UInt8} (hs : ∀ c ∈ s, isLineEnd c = false) : stripLineEnds s = s :=
  List.filter_eq_self.2 fun c hc => by simp [hs c hc]

/-- No line end is the last byte. -/
def EndsVisible (s : List UInt8) : Prop := ∀ c ∈ s.getLast?, isLineEnd c = false

instance (s : List UInt8) : Decidable (EndsVisible s) := inferInstanceAs (Decidable (∀ c ∈ s.getLast?, _))

/-- The bytes before the terminators decide: without their line ends none of the
strings is the beginning of the other, or they are the same and none ends
with a line end. -/
def Separates (s t : List UInt8) : Prop :=
  (¬ stripLineEnds s <+: stripLineEnds t ∧ ¬ stripLineEnds t <+: stripLineEnds s) ∨
    (stripLineEnds s = stripLineEnds t ∧ EndsVisible s ∧ EndsVisible t)

instance (s t : List UInt8) : Decidable (Separates s t) := inferInstanceAs (Decidable (_ ∨ _))

variable {c d : UInt8} {e e' r r' s t : List UInt8}

/-- A string is line ends, or line ends and a visible byte in front of the rest. -/
theorem lineEnds_or_split (s : List UInt8) : (∀ x ∈ s, isLineEnd x = true) ∨
    ∃ e c r, s = e ++ c :: r ∧ (∀ x ∈ e, isLineEnd x = true) ∧ isLineEnd c = false := by
  induction s with
  | nil => simp
  | cons x s ih =>
      cases hx : isLineEnd x with
      | false => exact .inr ⟨[], x, s, rfl, by simp, hx⟩
      | true =>
          cases ih with
          | inl hall => exact .inl (List.forall_mem_cons.2 ⟨hx, hall⟩)
          | inr hsplit =>
              obtain ⟨e, c, r, rfl, he, hc⟩ := hsplit
              exact .inr ⟨x :: e, c, r, rfl, List.forall_mem_cons.2 ⟨hx, he⟩, hc⟩

theorem strip_lineEnds (hs : ∀ x ∈ s, isLineEnd x = true) : stripLineEnds s = [] := by
  simpa [stripLineEnds] using hs

theorem strip_split (he : ∀ x ∈ e, isLineEnd x = true) (hc : isLineEnd c = false) :
    stripLineEnds (e ++ c :: r) = c :: stripLineEnds r := by
  have hnil := strip_lineEnds he
  unfold stripLineEnds at hnil ⊢
  rw [List.filter_append, hnil, List.nil_append, List.filter_cons_of_pos (by simp [hc])]

theorem endsVisible_split (hc : isLineEnd c = false) : EndsVisible (e ++ c :: r) ↔ EndsVisible r := by
  cases r using List.reverseRecOn with
  | nil => simp [EndsVisible, hc]
  | append_singleton r x =>
      rw [EndsVisible, EndsVisible, ← List.cons_append, ← List.append_assoc, List.getLast?_concat,
        List.getLast?_concat]

theorem endsVisible_lineEnds (hs : ∀ x ∈ s, isLineEnd x = true) (h : EndsVisible s) : s = [] := by
  cases s using List.reverseRecOn with
  | nil => rfl
  | append_singleton s x =>
      have hx : isLineEnd x = false := h x (by simp)
      simp [hs x (by simp)] at hx

/-- Nothing but line ends is separated from no string but from the empty one, and only
when it is empty, too. -/
theorem separates_lineEnds (hs : ∀ x ∈ s, isLineEnd x = true) (h : Separates s t) : s = [] ∧ t = [] := by
  rw [Separates, strip_lineEnds hs] at h
  cases h with
  | inl h => exact absurd List.nil_prefix h.1
  | inr h =>
      obtain ⟨ht, hvs, hvt⟩ := h
      have hall : ∀ x ∈ t, isLineEnd x = true := by simpa [stripLineEnds] using ht.symm
      exact ⟨endsVisible_lineEnds hs hvs, endsVisible_lineEnds hall hvt⟩

theorem separates_comm (h : Separates s t) : Separates t s := by
  cases h with
  | inl h => exact .inl ⟨h.2, h.1⟩
  | inr h => exact .inr ⟨h.1.symm, h.2.2, h.2.1⟩

/-- Strings that go on with the same visible byte. -/
theorem separates_same (he : ∀ x ∈ e, isLineEnd x = true) (he' : ∀ x ∈ e', isLineEnd x = true)
    (hc : isLineEnd c = false) : Separates (e ++ c :: r) (e' ++ c :: r') ↔ Separates r r' := by
  simp only [Separates, strip_split he hc, strip_split he' hc, endsVisible_split hc,
    List.cons_prefix_cons, List.cons.injEq, true_and]

/-- Strings that go on with different visible bytes. -/
theorem separates_differ (he : ∀ x ∈ e, isLineEnd x = true) (he' : ∀ x ∈ e', isLineEnd x = true)
    (hc : isLineEnd c = false) (hd : isLineEnd d = false) (hne : c ≠ d) :
    Separates (e ++ c :: r) (e' ++ d :: r') := by
  rw [Separates, strip_split he hc, strip_split he' hd]
  simp [List.cons_prefix_cons, hne, Ne.symm hne]

/-! ## skipping -/

variable {read read₁ read₂ read₁' read₂' : Nat → Option UInt8} {n p q : Nat}

theorem skipLoop_lineEnd {b : List UInt8} (hx : isLineEnd c = true) (h : ReadsAt read p (c :: b)) :
    skipLoop read (n + 1) p = skipLoop read n (p + 1) := by
  have hc : c = 13 ∨ c = 10 := by simpa [isLineEnd] using hx
  rw [skipLoop, h.1, Option.bind_some, if_pos (hc.imp_right .inl)]

/-- The loop stops at the first visible byte. -/
theorem skipLoop_split {b : List UInt8} (he : ∀ x ∈ e, isLineEnd x = true) (hc : isLineEnd c = false)
    (h0 : c ≠ 0) (h : ReadsAt read p (e ++ c :: b)) (hn : e.length < n) :
    skipLoop read n p = some (p + e.length) := by
  induction e generalizing p n with
  | nil =>
      obtain ⟨m, rfl⟩ := Nat.exists_eq_succ_of_ne_zero (Nat.ne_of_gt hn)
      have hne : ¬ (c = 13 ∨ c = 10 ∨ c = 0) := by
        simp only [isLineEnd, Bool.or_eq_false_iff, beq_eq_false_iff_ne] at hc
        exact not_or.2 ⟨hc.1, not_or.2 ⟨hc.2, h0⟩⟩
      rw [skipLoop, h.1, Option.bind_some, if_neg hne]
      rfl
  | cons x e ih =>
      obtain ⟨hx, he⟩ := List.forall_mem_cons.1 he
      obtain ⟨m, rfl⟩ := Nat.exists_eq_succ_of_ne_zero (Nat.ne_of_gt (Nat.zero_lt_of_lt hn))
      rw [skipLoop_lineEnd hx h, ih he h.2 (Nat.lt_of_succ_lt_succ hn), List.length_cons, Nat.add_assoc,
        Nat.add_comm 1]

/-- It needs a round for every line end. -/
theorem skipLoop_short {b : List UInt8} (he : ∀ x ∈ e, isLineEnd x = true) (h : ReadsAt read p (e ++ b))
    (hn : n ≤ e.length) : skipLoop read n p = none := by
  induction e generalizing p n with
  | nil => rw [Nat.eq_zero_of_le_zero hn, skipLoop]
  | cons x e ih =>
      obtain ⟨hx, he⟩ := List.forall_mem_cons.1 he
      cases n with
      | zero => rfl
      | succ n =>
          rw [skipLoop_lineEnd hx h]
          exact ih he h.2 (Nat.le_of_succ_le_succ hn)

/-- Without one it leaves the string. -/
theorem skipLoop_past (hs : ∀ x ∈ s, isLineEnd x = true) (h : ReadsAt read p (s ++ [0]))
    (hend : read (p + s.length + 1) = none) : skipLoop read n p = none := by
  induction s generalizing p n with
  | nil =>
      cases n with
      | zero => rfl
      | succ n =>
          rw [skipLoop, h.1, Option.bind_some, if_pos (by simp)]
          cases n with
          | zero => rfl
          | succ n =>
              rw [skipLoop, show read (p + 1) = none from hend]
              rfl
  | cons x s ih =>
      obtain ⟨hx, hs⟩ := List.forall_mem_cons.1 hs
      cases n with
      | zero => rfl
      | succ n =>
          rw [List.length_cons, ← Nat.add_assoc, Nat.add_right_comm p] at hend
          rw [skipLoop_lineEnd hx h]
          exact ih hs h.2 hend

/-! ## comparing -/

/-- The loop goes on unless both strings have ended. -/
theorem more_eq (h₁ : ReadsAt read₁ p (s ++ [0])) (h₂ : ReadsAt read₂ q (t ++ [0])) (hs : 0 ∉ s)
    (ht : 0 ∉ t) : ((read₁ p).bind fun c₁ =>
      if c₁ ≠ 0 then some true else (read₂ q).map fun c₂ => c₂ != 0) =
        some (decide (s ≠ [] ∨ t ≠ [])) := by
  cases s with
  | nil =>
      cases t with
      | nil => simp [h₁.1, h₂.1]
      | cons d t =>
          simp only [List.mem_cons, not_or] at ht
          simp [h₁.1, h₂.1, Ne.symm ht.1]
  | cons c s =>
      simp only [List.mem_cons, not_or] at hs
      simp [h₁.1, Ne.symm hs.1]

theorem utilsStringCompare_nil (h₁ : ReadsAt read₁ p [0]) (h₂ : ReadsAt read₂ q [0]) :
    utilsStringCompare read₁ read₂ (n + 1) p q = some 1 := by
  rw [utilsStringCompare, more_eq (s := []) (t := []) h₁ h₂ (by simp) (by simp)]
  rfl

/-- One round, where both strings go on with a visible byte. -/
theorem utilsStringCompare_split (he : ∀ x ∈ e, isLineEnd x = true) (he' : ∀ x ∈ e', isLineEnd x = true)
    (hc : isLineEnd c = false) (hd : isLineEnd d = false) (hs : 0 ∉ e ++ c :: r) (ht : 0 ∉ e' ++ d :: r')
    (h₁ : ReadsAt read₁ p (e ++ c :: r ++ [0])) (h₂ : ReadsAt read₂ q (e' ++ d :: r' ++ [0]))
    (hn : e.length < n) (hn' : e'.length < n) :
    utilsStringCompare read₁ read₂ (n + 1) p q =
      if c = d then utilsStringCompare read₁ read₂ n (p + e.length + 1) (q + e'.length + 1) else some 0 := by
  have hmore := more_eq h₁ h₂ hs ht
  rw [decide_eq_true (by simp)] at hmore
  simp only [List.append_assoc, List.cons_append] at h₁ h₂
  simp only [List.mem_append, List.mem_cons, not_or] at hs ht
  rw [utilsStringCompare, hmore]
  simp only [Option.bind_some, Bool.not_true, Bool.false_eq_true, if_false,
    skipLoop_split he hc (Ne.symm hs.2.1) h₁ hn, skipLoop_split he' hd (Ne.symm ht.2.1) h₂ hn',
    (readsAt_append.1 h₁).2.1, (readsAt_append.1 h₂).2.1]
  rw [if_neg fun h => hs.2.1 h.1.symm]
  by_cases hcd : c = d
  · rw [if_neg (not_not.2 hcd), if_pos hcd]
  · rw [if_pos hcd, if_neg hcd]

/-- Strings that are separated are compared without their surroundings. -/
theorem utilsStringCompare_of_separates (hsep : Separates s t) (hs : 0 ∉ s) (ht : 0 ∉ t)
    (h₁ : ReadsAt read₁ p (s ++ [0])) (h₂ : ReadsAt read₂ q (t ++ [0])) (hn : s.length + t.length < n) :
    utilsStringCompare read₁ read₂ n p q =
      some (if stripLineEnds s = stripLineEnds t then 1 else 0) := by
  induction n generalizing s t p q with
  | zero => contradiction
  | succ n ih =>
      cases lineEnds_or_split s with
      | inl hall =>
          obtain ⟨rfl, rfl⟩ := separates_lineEnds hall hsep
          rw [utilsStringCompare_nil h₁ h₂, if_pos rfl]
      | inr hsplit =>
          obtain ⟨e, c, r, rfl, he, hc⟩ := hsplit
          cases lineEnds_or_split t with
          | inl hall =>
              have hnil := (separates_lineEnds hall (separates_comm hsep)).2
              simp at hnil
          | inr hsplit =>
              obtain ⟨e', d, r', rfl, he', hd⟩ := hsplit
              simp only [List.length_append, List.length_cons] at hn
              rw [utilsStringCompare_split he he' hc hd hs ht h₁ h₂ (by omega) (by omega),
                strip_split he hc, strip_split he' hd]
              by_cases hcd : c = d
              · subst hcd
                simp only [List.append_assoc, List.cons_append] at h₁ h₂
                simp only [List.mem_append, List.mem_cons, not_or] at hs ht
                rw [if_pos rfl, ih ((separates_same he he' hc).1 hsep) hs.2.2 ht.2.2
                  (readsAt_append.1 h₁).2.2 (readsAt_append.1 h₂).2.2 (by omega)]
                simp
              · simp [hcd]

/-- One round, where one of the strings has nothing but line ends left. -/
theorem utilsStringCompare_past (hne : s ≠ [] ∨ t ≠ []) (hs : 0 ∉ s) (ht : 0 ∉ t)
    (h₁ : ReadsAt read₁ p (s ++ [0])) (h₂ : ReadsAt read₂ q (t ++ [0]))
    (hskip : skipLoop read₁ n p = none ∨ skipLoop read₂ n q = none) :
    utilsStringCompare read₁ read₂ (n + 1) p q = none := by
  rw [utilsStringCompare, more_eq h₁ h₂ hs ht, decide_eq_true hne]
  cases hskip with
  | inl hskip => simp [hskip]
  | inr hskip => simp [hskip]

/-- Strings that are not separated are not compared without their surroundings. -/
theorem utilsStringCompare_of_not_separates (hsep : ¬ Separates s t) (hs : 0 ∉ s) (ht : 0 ∉ t)
    (h₁ : ReadsAt read₁ p (s ++ [0])) (h₂ : ReadsAt read₂ q (t ++ [0]))
    (hend₁ : read₁ (p + s.length + 1) = none) (hend₂ : read₂ (q + t.length + 1) = none) :
    utilsStringCompare read₁ read₂ n p q = none := by
  induction n generalizing s t p q with
  | zero => rfl
  | succ n ih =>
      have hne : s ≠ [] ∨ t ≠ [] := by
        by_contra hnil
        simp only [not_or, not_not] at hnil
        exact hsep (by simp [hnil, Separates, EndsVisible])
      cases lineEnds_or_split s with
      | inl hall =>
          exact utilsStringCompare_past hne hs ht h₁ h₂ (.inl (skipLoop_past hall h₁ hend₁))
      | inr hsplit =>
          obtain ⟨e, c, r, rfl, he, hc⟩ := hsplit
          cases lineEnds_or_split t with
          | inl hall =>
              exact utilsStringCompare_past hne hs ht h₁ h₂ (.inr (skipLoop_past hall h₂ hend₂))
          | inr hsplit =>
              obtain ⟨e', d, r', rfl, he', hd⟩ := hsplit
              by_cases hfuel : n ≤ e.length ∨ n ≤ e'.length
              · refine utilsStringCompare_past hne hs ht h₁ h₂ (hfuel.imp ?_ ?_)
                · exact skipLoop_short he (List.append_assoc e _ _ ▸ h₁)
                · exact skipLoop_short he' (List.append_assoc e' _ _ ▸ h₂)
              · rw [utilsStringCompare_split he he' hc hd hs ht h₁ h₂ (by omega) (by omega)]
                by_cases hcd : c = d
                · subst hcd
                  simp only [List.append_assoc, List.cons_append, List.length_append, List.length_cons]
                    at h₁ h₂ hend₁ hend₂
                  simp only [List.mem_append, List.mem_cons, not_or] at hs ht
                  rw [if_pos rfl]
                  refine ih (fun h => hsep ((separates_same he he' hc).2 h)) hs.2.2 ht.2.2
                    (readsAt_append.1 h₁).2.2 (readsAt_append.1 h₂).2.2 ?_ ?_
                  · rwa [Nat.add_assoc (p + _), Nat.add_comm 1, Nat.add_assoc p]
                  · rwa [Nat.add_assoc (q + _), Nat.add_comm 1, Nat.add_assoc q]
                · exact absurd (separates_differ he he' hc hd hcd) hsep

/-- More to read, and more rounds, change nothing. -/
theorem skipLoop_mono (hsub : Sub read read₁) {m k : Nat} (hm : n ≤ m) (h : skipLoop read n p = some k) :
    skipLoop read₁ m p = some k := by
  induction n generalizing p m with
  | zero => contradiction
  | succ n ih =>
      obtain ⟨m, rfl⟩ := Nat.exists_eq_succ_of_ne_zero (Nat.ne_of_gt (Nat.zero_lt_of_lt hm))
      unfold skipLoop at h ⊢
      obtain ⟨c, hc, h⟩ := Option.bind_eq_some_iff.1 h
      rw [hsub _ _ hc, Option.bind_some]
      split at h
      next hskip => rw [if_pos hskip, ih (Nat.le_of_succ_le_succ hm) h]
      next hskip => rwa [if_neg hskip]

theorem utilsStringCompare_mono (hsub₁ : Sub read₁ read₁') (hsub₂ : Sub read₂ read₂') {m k : Nat}
    (hm : n ≤ m) (h : utilsStringCompare read₁ read₂ n p q = some k) :
    utilsStringCompare read₁' read₂' m p q = some k := by
  induction n generalizing p q m with
  | zero => contradiction
  | succ n ih =>
      obtain ⟨m, rfl⟩ := Nat.exists_eq_succ_of_ne_zero (Nat.ne_of_gt (Nat.zero_lt_of_lt hm))
      have hle := Nat.le_of_succ_le_succ hm
      unfold utilsStringCompare at h ⊢
      obtain ⟨more, hmore, h⟩ := Option.bind_eq_some_iff.1 h
      obtain ⟨c, hc, hmore⟩ := Option.bind_eq_some_iff.1 hmore
      have hmore' : ((read₁' p).bind fun c₁ =>
          if c₁ ≠ 0 then some true else (read₂' q).map fun c₂ => c₂ != 0) = some more := by
        rw [hsub₁ _ _ hc, Option.bind_some]
        split at hmore
        next hc0 => rwa [if_pos hc0]
        next hc0 =>
          obtain ⟨d, hd, hmore⟩ := Option.map_eq_some_iff.1 hmore
          rw [if_neg hc0, hsub₂ _ _ hd, Option.map_some, hmore]
      rw [hmore', Option.bind_some]
      split at h
      next hnot => rwa [if_pos hnot]
      next hnot =>
        obtain ⟨p', hp, h⟩ := Option.bind_eq_some_iff.1 h
        obtain ⟨q', hq, h⟩ := Option.bind_eq_some_iff.1 h
        obtain ⟨c', hc', h⟩ := Option.bind_eq_some_iff.1 h
        obtain ⟨d', hd', h⟩ := Option.bind_eq_some_iff.1 h
        simp only [if_neg hnot, skipLoop_mono hsub₁ hle hp, skipLoop_mono hsub₂ hle hq, Option.bind_some,
          hsub₁ _ _ hc', hsub₂ _ _ hd']
        split at h
        next hboth => rwa [if_pos hboth]
        next hboth =>
          rw [if_neg hboth]
          split at h
          next hne => rwa [if_pos hne]
          next hne => rw [if_neg hne, ih hle h]

theorem utilsStringCompare_rounds {m k : Nat} (hm : n ≤ m)
    (h : utilsStringCompare read₁ read₂ n p q = some k) : utilsStringCompare read₁ read₂ m p q = some k :=
  utilsStringCompare_mono (fun _ _ h => h) (fun _ _ h => h) hm h

/-! ## in memory -/

variable {mem mem' : Nat → UInt8} {p' q' : Nat}

/-- The bytes of a string and its terminator, and nothing behind it. -/
def stringWindow (mem : Nat → UInt8) (p : Nat) (s : List UInt8) : Nat → Option UInt8 :=
  window mem p (s.length + 1)

theorem readsAt_stringWindow (h : HoldsAt mem p (s ++ [0])) :
    ReadsAt (stringWindow mem p s) p (s ++ [0]) :=
  h.readsAt (Nat.le_refl p) (by simp)

theorem stringWindow_end : stringWindow mem p s (p + s.length + 1) = none := by
  simp [stringWindow, window, Nat.add_assoc]

/-- Strings that are separated are compared inside of their windows, and so everywhere. -/
theorem compare_inside (hsep : Separates s t) (hs : 0 ∉ s) (ht : 0 ∉ t)
    (hp : HoldsAt mem p (s ++ [0])) (hq : HoldsAt mem q (t ++ [0])) :
    utilsStringCompare (stringWindow mem p s) (stringWindow mem q t) (s.length + t.length + 1) p q =
      some (if stripLineEnds s = stripLineEnds t then 1 else 0) :=
  utilsStringCompare_of_separates hsep hs ht (readsAt_stringWindow hp) (readsAt_stringWindow hq)
    (Nat.lt_succ_self _)

theorem compare_whole (hsep : Separates s t) (hs : 0 ∉ s) (ht : 0 ∉ t)
    (hp : HoldsAt mem p (s ++ [0])) (hq : HoldsAt mem q (t ++ [0])) :
    utilsStringCompare (whole mem) (whole mem) (s.length + t.length + 1) p q =
      some (if stripLineEnds s = stripLineEnds t then 1 else 0) :=
  utilsStringCompare_mono window_sub window_sub (Nat.le_refl _) (compare_inside hsep hs ht hp hq)

/-- `utils_string_compare` of what is at `p` and at `q` returns `r`. -/
def Compares (mem : Nat → UInt8) (p q r : Nat) : Prop :=
  ∃ n, utilsStringCompare (whole mem) (whole mem) n p q = some r

theorem Compares.unique {r r' : Nat} (h : Compares mem p q r) (h' : Compares mem p q r') : r = r' := by
  obtain ⟨n, hn⟩ := h
  obtain ⟨m, hm⟩ := h'
  have hn' := utilsStringCompare_rounds (Nat.le_max_left n m) hn
  have hm' := utilsStringCompare_rounds (Nat.le_max_right n m) hm
  exact Option.some.inj (hn'.symm.trans hm')

theorem compares_of_separates (hsep : Separates s t) (hs : 0 ∉ s) (ht : 0 ∉ t)
    (hp : HoldsAt mem p (s ++ [0])) (hq : HoldsAt mem q (t ++ [0])) :
    Compares mem p q (if stripLineEnds s = stripLineEnds t then 1 else 0) :=
  ⟨_, compare_whole hsep hs ht hp hq⟩

/-- The answer is 0 or 1. -/
theorem utilsStringCompare_le_one {r : Nat} (h : utilsStringCompare read₁ read₂ n p q = some r) : r ≤ 1 := by
  induction n generalizing p q with
  | zero => contradiction
  | succ n ih =>
      unfold utilsStringCompare at h
      obtain ⟨more, -, h⟩ := Option.bind_eq_some_iff.1 h
      split at h
      next => exact Nat.le_of_eq (Option.some.inj h).symm
      next =>
        obtain ⟨p', -, h⟩ := Option.bind_eq_some_iff.1 h
        obtain ⟨q', -, h⟩ := Option.bind_eq_some_iff.1 h
        obtain ⟨c', -, h⟩ := Option.bind_eq_some_iff.1 h
        obtain ⟨d', -, h⟩ := Option.bind_eq_some_iff.1 h
        split at h
        next => exact Nat.le_of_eq (Option.some.inj h).symm
        next =>
          split at h
          next => exact Option.some.inj h ▸ Nat.zero_le 1
          next => exact ih h

/-- `utils_string_compare` of two strings, wherever they are and whatever is behind
them, returns without a look behind a terminator, and returns 1 exactly when they
are the same without their line ends, if and only if they are separated.  Then its
result is the same wherever the strings are. -/
theorem utilsStringCompare_iff {s t : List UInt8} (hs : 0 ∉ s) (ht : 0 ∉ t) {mem : Nat → UInt8}
    {p q : Nat} (hp : HoldsAt mem p (s ++ [0])) (hq : HoldsAt mem q (t ++ [0])) :
    ((∃ n r, utilsStringCompare (stringWindow mem p s) (stringWindow mem q t) n p q = some r ∧
      (r = 1 ↔ stripLineEnds s = stripLineEnds t)) ↔ Separates s t) ∧
      (Separates s t → ∀ (mem' : Nat → UInt8) (p' q' : Nat), HoldsAt mem' p' (s ++ [0]) →
        HoldsAt mem' q' (t ++ [0]) → ∃ n r,
          utilsStringCompare (whole mem) (whole mem) n p q = some r ∧
          utilsStringCompare (whole mem') (whole mem') n p' q' = some r) := by
  refine ⟨⟨?_, fun hsep => ?_⟩, fun hsep mem' p' q' hp' hq' => ?_⟩
  · intro ⟨n, r, hrun, _⟩
    by_contra hsep
    rw [utilsStringCompare_of_not_separates hsep hs ht (readsAt_stringWindow hp)
      (readsAt_stringWindow hq) stringWindow_end stringWindow_end] at hrun
    contradiction
  · exact ⟨_, _, compare_inside hsep hs ht hp hq, by simp⟩
  · exact ⟨_, _, compare_whole hsep hs ht hp hq, compare_whole hsep hs ht hp' hq'⟩

/-- Memory with `"a"` and, behind it, `"b"`, and with `"ab"`. -/
def behindMemory (x : Nat) : UInt8 := [97, 0, 98, 0, 97, 98, 0].getD x 0

/-- `"b"` and `"ab"` are compared. -/
theorem utilsStringCompare_iff_b : ∃ n r, utilsStringCompare (stringWindow behindMemory 2 [98])
    (stringWindow behindMemory 4 [97, 98]) n 2 4 = some r ∧
      (r = 1 ↔ stripLineEnds [98] = stripLineEnds [97, 98]) :=
  (utilsStringCompare_iff (s := [98]) (t := [97, 98]) (by decide) (by decide) (p := 2) (q := 4)
    (show HoldsAt behindMemory _ _ by decide) (by decide)).1.2 (by decide)

/-- `"a"` is taken for `"ab"` when `"b"` stands behind it, and is not compared with it
without a look there. -/
theorem utilsStringCompare_behind :
    HoldsAt behindMemory 0 ([97] ++ [0]) ∧ HoldsAt behindMemory 4 ([97, 98] ++ [0]) ∧
      utilsStringCompare (whole behindMemory) (whole behindMemory) 4 0 4 = some 1 ∧
      stripLineEnds [97] ≠ stripLineEnds [97, 98] ∧
      ∀ n, utilsStringCompare (stringWindow behindMemory 0 [97]) (stringWindow behindMemory 4 [97, 98])
        n 0 4 = none :=
  ⟨by decide, by decide, by decide, by decide, fun n => utilsStringCompare_of_not_separates
    (by decide) (by decide) (by decide) (readsAt_stringWindow (by decide)) (readsAt_stringWindow (by decide))
    stringWindow_end stringWindow_end⟩

end RpiKernel
