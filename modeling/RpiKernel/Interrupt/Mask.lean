import Mathlib.Algebra.Group.Nat.Defs
import Mathlib.Data.List.Basic
import Mathlib.Tactic.Common

/-!
# RpiKernel.Interrupt.Mask

`disable_interrupt` and `enable_interrupt`: a count of open sections, and the
mask of the processor.  Entering an exception masks interrupts without counting,
so a handler starts with count 0 and the mask set; `restores_iff` says from
which states a sequence of sections gives both back.
-/

namespace RpiKernel

/-- `nested_interrupt_cnt`, a number of 64 bits, and whether `DAIF` masks
interrupts. -/
structure IrqMask where
  nestedInterruptCnt : Nat
  masked : Bool
deriving DecidableEq, Repr

namespace IrqMask

/-- `enable_interrupt`. -/
def enableInterrupt (s : IrqMask) : IrqMask :=
  let s := if s.nestedInterruptCnt > 0 then
    { s with nestedInterruptCnt := s.nestedInterruptCnt - 1 } else s
  if s.nestedInterruptCnt = 0 then { s with masked := false } else s

/-- `disable_interrupt`. -/
def disableInterrupt (s : IrqMask) : IrqMask :=
  let s := if s.nestedInterruptCnt = 0 then { s with masked := true } else s
  { s with nestedInterruptCnt := (s.nestedInterruptCnt + 1) % 2 ^ 64 }

/-- A count of 64 bits; while sections are open interrupts are masked. -/
structure Valid (s : IrqMask) : Prop where
  small : s.nestedInterruptCnt < 2 ^ 64
  counted : 0 < s.nestedInterruptCnt → s.masked = true

end IrqMask

/-! ## sections -/

/-- A call. -/
inductive MaskCall where
  | disable
  | enable
deriving DecidableEq, Repr

/-- What the call does. -/
def MaskCall.run : MaskCall → IrqMask → IrqMask
  | .disable => IrqMask.disableInterrupt
  | .enable => IrqMask.enableInterrupt

/-- Calls one after the other. -/
def runCalls (cs : List MaskCall) (s : IrqMask) : IrqMask := cs.foldl (fun s c => c.run s) s

/-- Well-bracketed calls: nothing, or a section with sections inside and after
it. -/
inductive Sections where
  | done
  | nest (inside after : Sections)
deriving DecidableEq, Repr

namespace Sections

/-- The calls. -/
def calls : Sections → List MaskCall
  | done => []
  | nest inside after => .disable :: (inside.calls ++ .enable :: after.calls)

/-- How many sections are open at most. -/
def depth : Sections → Nat
  | done => 0
  | nest inside after => max (inside.depth + 1) after.depth

end Sections

/-- A section is open after `cs`. -/
def IsOpen (cs : List MaskCall) : Prop := cs.count .enable < cs.count .disable

instance (cs : List MaskCall) : Decidable (IsOpen cs) := inferInstanceAs (Decidable (_ < _))

/-- Interrupts are masked while a section is open, and the count and the mask
are given back. -/
structure Restores (b : Sections) (s : IrqMask) : Prop where
  masked : ∀ pre post, b.calls = pre ++ post → IsOpen pre → (runCalls pre s).masked = true
  restored : runCalls b.calls s = s

section

variable {b inside after : Sections} {s : IrqMask} {cs cs' pre post : List MaskCall}

@[simp] theorem runCalls_nil : runCalls [] s = s := rfl

@[simp] theorem runCalls_cons (c : MaskCall) : runCalls (c :: cs) s = runCalls cs (c.run s) := rfl

@[simp] theorem runCalls_append : runCalls (cs ++ cs') s = runCalls cs' (runCalls cs s) :=
  List.foldl_append

theorem runCalls_nest : runCalls (Sections.nest inside after).calls s =
    runCalls after.calls (runCalls inside.calls s.disableInterrupt).enableInterrupt := by
  simp [Sections.calls, MaskCall.run]

/-- As many sections are closed as are opened. -/
theorem Sections.balanced (b : Sections) : b.calls.count .enable = b.calls.count .disable := by
  induction b with
  | done => rfl
  | nest inside after ihi iha => simp [Sections.calls, ihi, iha]; omega

/-! ## one call -/

theorem IrqMask.Valid.disable (hs : s.Valid) (hc : s.nestedInterruptCnt + 1 < 2 ^ 64) :
    s.disableInterrupt = ⟨s.nestedInterruptCnt + 1, true⟩ := by
  have hmod : (s.nestedInterruptCnt + 1) % 2 ^ 64 = s.nestedInterruptCnt + 1 := Nat.mod_eq_of_lt hc
  have hm := hs.counted
  unfold IrqMask.disableInterrupt
  by_cases h0 : s.nestedInterruptCnt = 0
  · simp [h0]
  · simp only [h0, if_false, hmod, hm (Nat.pos_of_ne_zero h0)]

/-- The count wraps around. -/
theorem IrqMask.disable_wrap (hc : s.nestedInterruptCnt + 1 = 2 ^ 64) :
    s.disableInterrupt = ⟨0, s.masked⟩ := by
  have h0 : s.nestedInterruptCnt ≠ 0 := by omega
  simp [IrqMask.disableInterrupt, h0, hc]

theorem IrqMask.enable_cnt (s : IrqMask) :
    s.enableInterrupt.nestedInterruptCnt = s.nestedInterruptCnt - 1 := by
  unfold IrqMask.enableInterrupt
  grind

theorem IrqMask.enable_zero (h : s.nestedInterruptCnt = 0) : s.enableInterrupt = ⟨0, false⟩ := by
  simp [IrqMask.enableInterrupt, h]

theorem IrqMask.disable_le (s : IrqMask) :
    s.disableInterrupt.nestedInterruptCnt ≤ s.nestedInterruptCnt + 1 := by
  unfold IrqMask.disableInterrupt
  grind [Nat.mod_le]

/-- Sections never leave a larger count. -/
theorem runCalls_cnt_le (b : Sections) (s : IrqMask) :
    (runCalls b.calls s).nestedInterruptCnt ≤ s.nestedInterruptCnt := by
  induction b generalizing s with
  | done => exact Nat.le_refl _
  | nest inside after ihi iha =>
      have hi := ihi s.disableInterrupt
      have ha := iha (runCalls inside.calls s.disableInterrupt).enableInterrupt
      have hd := s.disable_le
      rw [IrqMask.enable_cnt] at ha
      rw [runCalls_nest]
      omega

/-- A first part of a section ends inside it or behind it. -/
theorem Sections.prefix_cases (h : (Sections.nest inside after).calls = pre ++ post) : pre = [] ∨
    (∃ p q, inside.calls = p ++ q ∧ pre = .disable :: p) ∨
      ∃ p, after.calls = p ++ post ∧ pre = .disable :: (inside.calls ++ .enable :: p) := by
  cases pre with
  | nil => exact Or.inl rfl
  | cons c pre =>
      simp only [Sections.calls, List.cons_append, List.cons.injEq] at h
      obtain ⟨rfl, h⟩ := h
      right
      cases List.append_eq_append_iff.1 h with
      | inl hin =>
          obtain ⟨q, rfl, hq⟩ := hin
          cases q with
          | nil => exact Or.inl ⟨inside.calls, [], by simp, by simp⟩
          | cons c q =>
              simp only [List.cons_append, List.cons.injEq] at hq
              obtain ⟨rfl, hq⟩ := hq
              exact Or.inr ⟨q, hq, rfl⟩
      | inr hout =>
          obtain ⟨q, hq, -⟩ := hout
          exact Or.inl ⟨pre, q, hq, rfl⟩

/-! ## sections within a section -/

theorem IrqMask.Valid.enable (hs : s.Valid) (h0 : 0 < s.nestedInterruptCnt) :
    (⟨s.nestedInterruptCnt + 1, true⟩ : IrqMask).enableInterrupt = s := by
  have hm := hs.counted h0
  have hne : s.nestedInterruptCnt ≠ 0 := by omega
  cases s
  simp_all [IrqMask.enableInterrupt]

theorem IrqMask.valid_open (hc : s.nestedInterruptCnt + 1 < 2 ^ 64) :
    (⟨s.nestedInterruptCnt + 1, true⟩ : IrqMask).Valid := ⟨hc, fun _ => rfl⟩

/-- Inside a section the mask stays set, and the state comes back. -/
theorem runCalls_inside (hs : s.Valid) (h0 : 0 < s.nestedInterruptCnt)
    (hd : s.nestedInterruptCnt + b.depth < 2 ^ 64) :
    runCalls b.calls s = s ∧
      ∀ pre post, b.calls = pre ++ post → (runCalls pre s).masked = true := by
  induction b generalizing s with
  | done =>
      refine ⟨rfl, fun pre post h => ?_⟩
      obtain ⟨rfl, -⟩ := List.append_eq_nil_iff.1 h.symm
      exact hs.counted h0
  | nest inside after ihi iha =>
      simp only [Sections.depth] at hd
      have hdis := hs.disable (by omega)
      have hopen : s.nestedInterruptCnt + 1 < 2 ^ 64 := by omega
      obtain ⟨hrun, hpre⟩ := ihi (IrqMask.valid_open hopen) (Nat.succ_pos _) (by dsimp only; omega)
      obtain ⟨hrun', hpre'⟩ := iha hs h0 (by omega)
      constructor
      · rw [runCalls_nest, hdis, hrun, hs.enable h0, hrun']
      · intro pre post h
        rcases Sections.prefix_cases h with rfl | ⟨p, q, hp, rfl⟩ | ⟨p, hp, rfl⟩
        · exact hs.counted h0
        · rw [runCalls_cons, MaskCall.run, hdis]
          exact hpre p q hp
        · rw [runCalls_cons, MaskCall.run, hdis, runCalls_append, hrun, runCalls_cons, MaskCall.run,
            hs.enable h0]
          exact hpre' p post hp

/-- A section that is not the last one in the count. -/
theorem runCalls_section (hs : s.Valid) (hd : s.nestedInterruptCnt + 1 + inside.depth < 2 ^ 64) :
    runCalls inside.calls s.disableInterrupt = ⟨s.nestedInterruptCnt + 1, true⟩ ∧
      ∀ pre post, inside.calls = pre ++ post →
        (runCalls pre s.disableInterrupt).masked = true := by
  rw [hs.disable (by omega)]
  have hopen : s.nestedInterruptCnt + 1 < 2 ^ 64 := by omega
  exact runCalls_inside (IrqMask.valid_open hopen) (Nat.succ_pos _) hd

/-- From count 0 the mask is cleared behind the last section. -/
theorem IrqMask.enable_last (h : s.nestedInterruptCnt = 0) :
    (⟨s.nestedInterruptCnt + 1, true⟩ : IrqMask).enableInterrupt = ⟨0, false⟩ := by
  simp [IrqMask.enableInterrupt, h]

/-- What is behind a section that was closed. -/
theorem isOpen_after {p : List MaskCall} :
    IsOpen (.disable :: (inside.calls ++ .enable :: p)) ↔ IsOpen p := by
  have hb := inside.balanced
  simp only [IsOpen, List.count_cons, List.count_append]
  grind

/-- The count starts positive, or the mask starts clear: everything comes back. -/
theorem restores_of (hs : s.Valid) (h : 0 < s.nestedInterruptCnt ∨ s.masked = false)
    (hd : s.nestedInterruptCnt + b.depth < 2 ^ 64) : Restores b s := by
  induction b with
  | done =>
      refine ⟨fun pre post he ho => ?_, rfl⟩
      obtain ⟨rfl, -⟩ := List.append_eq_nil_iff.1 he.symm
      cases ho
  | nest inside after ihi iha =>
      simp only [Sections.depth] at hd
      have hin : s.nestedInterruptCnt + 1 + inside.depth < 2 ^ 64 := by omega
      obtain ⟨hrun, hpre⟩ := runCalls_section hs hin
      have ha := iha (by omega)
      have hen : (⟨s.nestedInterruptCnt + 1, true⟩ : IrqMask).enableInterrupt = s := by
        cases Nat.eq_zero_or_pos s.nestedInterruptCnt with
        | inl hz =>
            rw [IrqMask.enable_last hz]
            cases s
            simp_all
        | inr hpos => exact hs.enable hpos
      constructor
      · intro pre post he ho
        rcases Sections.prefix_cases he with rfl | ⟨p, q, hp, rfl⟩ | ⟨p, hp, rfl⟩
        · cases ho
        · exact hpre p q hp
        · rw [runCalls_cons, MaskCall.run, runCalls_append, hrun, runCalls_cons, MaskCall.run, hen]
          exact ha.masked p post hp (isOpen_after.1 ho)
      · rw [runCalls_nest, hrun, hen, ha.restored]

/-! ## the counter wraps around -/

/-- When the counter wraps around inside a section, the mask is cleared there. -/
theorem unmasked_of_wrap (hs : s.Valid) (h1 : s.nestedInterruptCnt + 1 < 2 ^ 64)
    (hd : 2 ^ 64 ≤ s.nestedInterruptCnt + b.depth) :
    ∃ pre post, b.calls = pre ++ post ∧ IsOpen pre ∧ (runCalls pre s).masked = false := by
  induction b generalizing s with
  | done =>
      have hsm := hs.small
      simp only [Sections.depth] at hd
      omega
  | nest inside after ihi iha =>
      simp only [Sections.depth] at hd
      have hdis := hs.disable h1
      by_cases hin : s.nestedInterruptCnt + 1 + inside.depth < 2 ^ 64
      · -- behind the section
        obtain ⟨hrun, -⟩ := runCalls_section hs hin
        have hcnt := IrqMask.enable_cnt ⟨s.nestedInterruptCnt + 1, true⟩
        have hvalid : (⟨s.nestedInterruptCnt + 1, true⟩ : IrqMask).enableInterrupt.Valid := by
          cases Nat.eq_zero_or_pos s.nestedInterruptCnt with
          | inl hz => exact IrqMask.enable_last hz ▸ ⟨by decide, nofun⟩
          | inr hpos => exact (hs.enable hpos).symm ▸ hs
        obtain ⟨pre, post, hp, ho, hm⟩ := iha hvalid (by rw [hcnt]; exact h1) (by rw [hcnt]; grind)
        refine ⟨.disable :: (inside.calls ++ .enable :: pre), post, ?_, isOpen_after.2 ho, ?_⟩
        · simp [Sections.calls, hp]
        · simp [MaskCall.run, hrun, hm]
      · by_cases h2 : s.nestedInterruptCnt + 2 < 2 ^ 64
        · -- further inside
          obtain ⟨pre, post, hp, ho, hm⟩ := ihi (IrqMask.valid_open h1) h2 (by dsimp only; omega)
          refine ⟨.disable :: pre, post ++ .enable :: after.calls, ?_, ?_, ?_⟩
          · simp [Sections.calls, hp]
          · grind [IsOpen]
          · rw [runCalls_cons, MaskCall.run, hdis, hm]
        · -- the next section is the one whose count is 0
          cases inside with
          | done =>
              simp only [Sections.depth] at hin
              omega
          | nest i a =>
              have hwrap : s.disableInterrupt.disableInterrupt = ⟨0, true⟩ := by
                rw [hdis, IrqMask.disable_wrap (by dsimp only; omega)]
              have hzero := runCalls_cnt_le i ⟨0, true⟩
              refine ⟨.disable :: .disable :: (i.calls ++ [.enable]), a.calls ++ .enable :: after.calls,
                ?_, ?_, ?_⟩
              · simp [Sections.calls]
              · have hb := i.balanced
                grind [IsOpen]
              · simp [MaskCall.run, hwrap, IrqMask.enable_zero (Nat.le_zero.1 hzero)]

/-- **Sections.**  From a valid state, sections give the count and the mask back,
and keep interrupts masked while they are open, exactly when there are none, or
the count was positive or the mask clear, and the counter does not wrap around. -/
theorem restores_iff (b : Sections) (s : IrqMask) (hs : s.Valid) : Restores b s ↔
    b = .done ∨ (0 < s.nestedInterruptCnt ∨ s.masked = false) ∧
      s.nestedInterruptCnt + b.depth < 2 ^ 64 := by
  constructor
  case mp =>
    intro h
    cases b with
    | done => exact Or.inl rfl
    | nest inside after =>
        right
        have hrest := h.restored
        rw [runCalls_nest] at hrest
        have hle := runCalls_cnt_le after (runCalls inside.calls s.disableInterrupt).enableInterrupt
        rw [hrest, IrqMask.enable_cnt] at hle
        have hsmall := hs.small
        have hd : s.nestedInterruptCnt + (Sections.nest inside after).depth < 2 ^ 64 := by
          by_contra hge
          by_cases h1 : s.nestedInterruptCnt + 1 < 2 ^ 64
          · obtain ⟨pre, post, hp, ho, hm⟩ := unmasked_of_wrap hs h1 (Nat.le_of_not_lt hge)
            exact Bool.noConfusion (hm.symm.trans (h.masked pre post hp ho))
          · have hzero := runCalls_cnt_le inside s.disableInterrupt
            rw [IrqMask.disable_wrap (by omega)] at hzero hle
            dsimp only at hzero
            omega
        refine ⟨?_, hd⟩
        by_contra hno
        simp only [not_or, Nat.not_lt, Nat.le_zero, Bool.not_eq_false] at hno
        simp only [Sections.depth] at hd
        have hin : s.nestedInterruptCnt + 1 + inside.depth < 2 ^ 64 := by omega
        obtain ⟨hrun, -⟩ := runCalls_section hs hin
        have hvalid : (⟨0, false⟩ : IrqMask).Valid := ⟨by decide, nofun⟩
        have hafter := (restores_of (b := after) hvalid (Or.inr rfl) (by dsimp only; omega)).restored
        rw [hrun, IrqMask.enable_last hno.1, hafter] at hrest
        exact Bool.noConfusion ((congrArg IrqMask.masked hrest).trans hno.2)
  case mpr =>
    intro h
    cases h with
    | inl hdone =>
        subst hdone
        refine ⟨fun pre post he ho => ?_, rfl⟩
        obtain ⟨rfl, -⟩ := List.append_eq_nil_iff.1 he.symm
        cases ho
    | inr hgood => exact restores_of hs hgood.1 hgood.2

theorem restores_open : Restores (.nest (.nest .done .done) .done) ⟨1, true⟩ :=
  (restores_iff _ _ ⟨by decide, fun _ => rfl⟩).2 (Or.inr ⟨Or.inl (by decide), by decide⟩)

/-- `kmalloc` in the page fault handler: it is one section, and it clears the
mask that the exception set. -/
theorem kmalloc_unmasks : ¬ ∀ b s, s.Valid → Restores b s := by
  intro h
  have hr := (h (.nest .done .done) ⟨0, true⟩ ⟨by decide, nofun⟩).restored
  revert hr
  decide

end

end RpiKernel
