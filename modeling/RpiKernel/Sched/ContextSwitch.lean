import Mathlib.Data.Fintype.Basic
import Mathlib.Logic.Relation
import Mathlib.Tactic.FinCases
import RpiKernel.Interrupt.ExceptionFrame
import RpiKernel.Sched.Thread

/-!
# RpiKernel.Sched.ContextSwitch

`ctxsw.S`: `store_context`, `load_context` and `switch_to`, which keep the registers that a function must
preserve in the `thread_context` of a thread.
-/

namespace RpiKernel

open Arm Relation

/-! ## the functions -/

/-- `store_context`. -/
def storeContext : List Instr :=
  [.stp (xr 19) (xr 20) (xr 0) (16 * 0),
   .stp (xr 21) (xr 22) (xr 0) (16 * 1),
   .stp (xr 23) (xr 24) (xr 0) (16 * 2),
   .stp (xr 25) (xr 26) (xr 0) (16 * 3),
   .stp (xr 27) (xr 28) (xr 0) (16 * 4),
   .stp .fp .lr (xr 0) (16 * 5),
   .mov (xr 9) .sp,
   .str (xr 9) (xr 0) (16 * 6)]

/-- `load_context`. -/
def loadContext : List Instr :=
  [.ldp (xr 19) (xr 20) (xr 0) (16 * 0),
   .ldp (xr 21) (xr 22) (xr 0) (16 * 1),
   .ldp (xr 23) (xr 24) (xr 0) (16 * 2),
   .ldp (xr 25) (xr 26) (xr 0) (16 * 3),
   .ldp (xr 27) (xr 28) (xr 0) (16 * 4),
   .ldp .fp .lr (xr 0) (16 * 5),
   .ldr (xr 9) (xr 0) (16 * 6),
   .mov .sp (xr 9)]

/-- `switch_to` behind its stores, which are those of `store_context`. -/
def switchLoads : List Instr :=
  [.ldp (xr 19) (xr 20) (xr 1) (16 * 0),
   .ldp (xr 21) (xr 22) (xr 1) (16 * 1),
   .ldp (xr 23) (xr 24) (xr 1) (16 * 2),
   .ldp (xr 25) (xr 26) (xr 1) (16 * 3),
   .ldp (xr 27) (xr 28) (xr 1) (16 * 4),
   .ldp .fp .lr (xr 1) (16 * 5),
   .ldp (xr 9) (xr 0) (xr 1) (16 * 6),
   .mov .sp (xr 9),
   .msr .tpidr_el1 (xr 1),
   .barrier,
   .msr .ttbr0_el1 (xr 0),
   .barrier,
   .barrier,
   .barrier]

/-- `switch_to`. -/
def switchTo : List Instr := storeContext ++ switchLoads

/-- `ret`. -/
def ret (s : State) : State := { s with pc := s.x 30 }

/-! ## contexts -/

/-- What a function preserves: `x19` to `x30`, and the stack pointer. -/
def calleeWords (s : State) : List Word :=
  [s.x 19, s.x 20, s.x 21, s.x 22, s.x 23, s.x 24, s.x 25, s.x 26, s.x 27, s.x 28, s.x 29, s.x 30, s.sp]

/-- A word of the `thread_context` at `c`. -/
def contextSlot (mem : Memory) (c : Word) (i : Nat) : Word := mem.load (c + BitVec.ofNat 64 (8 * i))

/-- The words of a context that `store_context` writes. -/
def contextWords (mem : Memory) (c : Word) : List Word := (List.range 13).map (contextSlot mem c)

/-- The bytes of a `thread_context`; `pgd` is the last word. -/
def contextSpan (c : Word) : Set Word := span c 112

variable {s : State}

theorem storeContext_run : s.run storeContext =
    ⟨Function.update s.x 9 s.sp, s.sp, s.sys, s.pc + 32, s.pstate, s.mem.storeAll (s.x 0) (calleeWords s)⟩ := by
  simp (disch := decide) only [storeContext, calleeWords, State.run, List.foldl_cons, List.foldl_nil, State.exec,
    State.get, State.set, xr, Reg.fp, Reg.lr, Memory.storeAll, BitVec.add_assoc, BitVec.reduceMul,
    BitVec.reduceAdd, BitVec.ofNat_eq_ofNat, BitVec.add_zero, Function.update_self, Function.update_of_ne]

/-- The registers behind `load_context`: those of the context at `c`, with the stack pointer in `x9`. -/
def contextRegs (mem : Memory) (c : Word) (x : Fin 31 → Word) (i : Fin 31) : Word :=
  if 19 ≤ i.val then contextSlot mem c (i - 19) else if i = 9 then contextSlot mem c 12 else x i

theorem loadContext_regs (mem : Memory) (c : Word) (x : Fin 31 → Word) :
    loadRegs mem c ((loadContext.take 7).flatMap Instr.loads) x = contextRegs mem c x := by
  funext i
  simp only [loadContext, xr, Reg.fp, Reg.lr, List.take_succ_cons, List.take_zero, List.flatMap_cons,
    List.flatMap_nil, Instr.loads, List.cons_append, List.nil_append, loadRegs, contextSlot, contextRegs]
  fin_cases i <;> simp [Function.update]

theorem switchLoads_regs (mem : Memory) (c : Word) (x : Fin 31 → Word) :
    loadRegs mem c ((switchLoads.take 7).flatMap Instr.loads) x =
      Function.update (contextRegs mem c x) 0 (contextSlot mem c 13) := by
  funext i
  simp only [switchLoads, xr, Reg.fp, Reg.lr, List.take_succ_cons, List.take_zero, List.flatMap_cons,
    List.flatMap_nil, Instr.loads, List.cons_append, List.nil_append, loadRegs, contextSlot]
  fin_cases i <;> simp [Function.update, contextRegs, contextSlot]

/-- `load_context` takes the registers and the stack pointer from the context at `x0`. -/
theorem loadContext_run : s.run loadContext =
    ⟨contextRegs s.mem (s.x 0) s.x, contextSlot s.mem (s.x 0) 12, s.sys, s.pc + 28 + 4, s.pstate, s.mem⟩ := by
  have hloads : ∀ i ∈ loadContext.take 7, i.loadsFrom 0 := by decide
  have hsplit : loadContext = loadContext.take 7 ++ [.mov .sp (xr 9)] := rfl
  rw [hsplit, State.run_append, run_loads hloads, loadContext_regs]
  rfl

/-- So does the second half of `switch_to` with the context at `x1`, which is now that of the running
thread; its page table is in `ttbr0_el1`. -/
theorem switchLoads_run : s.run switchLoads =
    ⟨Function.update (contextRegs s.mem (s.x 1) s.x) 0 (contextSlot s.mem (s.x 1) 13),
      contextSlot s.mem (s.x 1) 12,
      Function.update (Function.update s.sys .tpidr_el1 (s.x 1)) .ttbr0_el1 (contextSlot s.mem (s.x 1) 13),
      s.pc + 28 + 4 + 4 + 4 + 4 + 4 + 4 + 4, s.pstate, s.mem⟩ := by
  have hloads : ∀ i ∈ switchLoads.take 7, i.loadsFrom 1 := by decide
  have hsplit : switchLoads = switchLoads.take 7 ++ switchLoads.drop 7 := rfl
  rw [hsplit, State.run_append, run_loads hloads, switchLoads_regs]
  rfl

/-! ## what a context holds -/

variable {mem mem' : Memory} {c : Word}

theorem length_calleeWords : (calleeWords s).length = 13 := rfl

/-- A context that was stored. -/
theorem contextWords_storeAll : contextWords (mem.storeAll c (calleeWords s)) c = calleeWords s := by
  refine List.ext_getElem (by simp [contextWords, length_calleeWords]) fun i hi hi' => ?_
  simp only [contextWords, List.getElem_map, List.getElem_range]
  refine Memory.load_storeAll hi' ?_
  rw [length_calleeWords]
  decide

/-- A word of a context that was left alone. -/
theorem contextSlot_keeps {i : Nat} (h : Memory.Keeps (contextSpan c) mem mem') (hi : i < 14) :
    contextSlot mem' c i = contextSlot mem c i := by
  refine h.load (span_subset ?_)
  bv_omega

theorem contextWords_keeps (h : Memory.Keeps (contextSpan c) mem mem') : contextWords mem' c = contextWords mem c :=
  List.map_congr_left fun i hi => contextSlot_keeps h (Nat.lt_of_lt_of_le (List.mem_range.1 hi) (by decide))

/-- `store_context` does not write `pgd`. -/
theorem contextSlot_storeAll : contextSlot (mem.storeAll c (calleeWords s)) c 13 = contextSlot mem c 13 := by
  refine Memory.load_congr fun k hk => Memory.storeAll_of_not_mem ?_
  rw [length_calleeWords]
  bv_omega

/-- What `load_context` and `switch_to` give back. -/
theorem calleeWords_context (x : Fin 31 → Word) (sys : SysReg → Word) (pc pstate : Word) :
    calleeWords ⟨contextRegs mem c x, contextSlot mem c 12, sys, pc, pstate, mem'⟩ = contextWords mem c := by
  simp [calleeWords, contextWords, contextRegs, List.range_succ]

/-- `x0` is not among them. -/
theorem calleeWords_update_zero (v : Word) :
    calleeWords { s with x := Function.update s.x 0 v } = calleeWords s := rfl

/-- Where `ret` goes. -/
theorem calleeWords_lr {s s' : State} (h : calleeWords s = calleeWords s') : s.x 30 = s'.x 30 := by
  simp only [calleeWords, List.cons.injEq] at h
  exact h.2.2.2.2.2.2.2.2.2.2.2.1

/-! ## threads -/

/-- An index into `threads`. -/
abbrev ThreadIndex := Fin (maxThreadCount + 1)

/-- The running thread, and the machine. -/
structure Threads where
  cur : ThreadIndex
  state : State

/-- What the running thread does: code of its own, `thread_create` of another thread, or a call of
`switch_to(get_current(), &next->context)`. -/
inductive SwitchAct where
  | code
  | create (i : ThreadIndex)
  | switchTo (next : ThreadIndex)

/-- A step of the running thread; `ctx` has the address of each thread's `context`.  Only `thread_create`
writes the context of another thread, and only `switch_to` writes `tpidr_el1`. -/
inductive SwitchStep (ctx : ThreadIndex → Word) : Threads → SwitchAct → Threads → Prop
  | code {t : Threads} {s' : State} : s'.sys .tpidr_el1 = t.state.sys .tpidr_el1 →
      (∀ i, i ≠ t.cur → Memory.Keeps (contextSpan (ctx i)) t.state.mem s'.mem) →
      SwitchStep ctx t .code ⟨t.cur, s'⟩
  | create {t : Threads} {s' : State} {i : ThreadIndex} : i ≠ t.cur → s'.sys .tpidr_el1 = t.state.sys .tpidr_el1 →
      (∀ j, j ≠ i → j ≠ t.cur → Memory.Keeps (contextSpan (ctx j)) t.state.mem s'.mem) →
      SwitchStep ctx t (.create i) ⟨t.cur, s'⟩
  | switchTo {t : Threads} {s' : State} {next : ThreadIndex} : t.state.x 0 = t.state.sys .tpidr_el1 →
      t.state.x 1 = ctx next → s' = ret (t.state.run switchTo) → SwitchStep ctx t (.switchTo next) ⟨next, s'⟩

/-- A step that neither comes back to thread `i` nor builds it anew. -/
def Away (ctx : ThreadIndex → Word) (i : ThreadIndex) (t t' : Threads) : Prop :=
  ∃ a, a ≠ .create i ∧ a ≠ .switchTo i ∧ SwitchStep ctx t a t'

/-- The contexts of different threads do not overlap. -/
def ContextsApart (ctx : ThreadIndex → Word) : Prop :=
  ∀ i j, i ≠ j → ∀ x ∈ contextSpan (ctx i), x ∉ contextSpan (ctx j)

variable {ctx : ThreadIndex → Word} {t t' : Threads}

/-- `tpidr_el1` has the context of the running thread. -/
def OnThread (ctx : ThreadIndex → Word) (t : Threads) : Prop := t.state.sys .tpidr_el1 = ctx t.cur

/-- `switch_to` as a whole. -/
theorem switchTo_run (next : ThreadIndex) (hcur : s.x 0 = c) (hnext : s.x 1 = ctx next) :
    calleeWords (s.run switchTo) = contextWords (s.run switchTo).mem (ctx next) ∧
    (s.run switchTo).mem = s.mem.storeAll c (calleeWords s) ∧
    (s.run switchTo).sys .tpidr_el1 = ctx next ∧
    (s.run switchTo).sys .ttbr0_el1 = contextSlot (s.run switchTo).mem (ctx next) 13 := by
  have hx1 : (Function.update s.x 9 s.sp) 1 = ctx next := hnext
  rw [switchTo, State.run_append, storeContext_run, switchLoads_run]
  refine ⟨?_, ?_, ?_, ?_⟩
  · simp only [hx1, hcur]
    exact (calleeWords_update_zero _).trans (calleeWords_context _ _ _ _)
  · simp only [hcur]
  · simp [hnext]
  · simp only [hx1, Function.update_self]

theorem ret_eq {s s' : State} (h : s' = ret s) :
    s'.mem = s.mem ∧ s'.sys = s.sys ∧ calleeWords s' = calleeWords s ∧ s'.pc = s'.x 30 := by
  subst h
  exact ⟨rfl, rfl, rfl, rfl⟩

/-- What a call of `switch_to` by the running thread does. -/
theorem switchStep_switchTo {next : ThreadIndex} (h : SwitchStep ctx t (.switchTo next) t') (ht : OnThread ctx t) :
    t'.cur = next ∧ OnThread ctx t' ∧ t'.state.mem = t.state.mem.storeAll (ctx t.cur) (calleeWords t.state) ∧
    calleeWords t'.state = contextWords t'.state.mem (ctx next) ∧ t'.state.pc = t'.state.x 30 ∧
    t'.state.sys .ttbr0_el1 = contextSlot t'.state.mem (ctx next) 13 := by
  cases h with
  | switchTo hcur hnext hs' =>
      obtain ⟨hwords, hmem, htpidr, httbr⟩ := switchTo_run next (hcur.trans ht) hnext
      obtain ⟨hmem', hsys', hwords', hpc'⟩ := ret_eq hs'
      refine ⟨rfl, ?_, ?_, ?_, hpc', ?_⟩
      · rw [OnThread, hsys', htpidr]
      · rw [hmem', hmem]
      · rw [hwords', hmem', hwords]
      · rw [hsys', hmem', httbr]

theorem SwitchStep.onThread {a : SwitchAct} (h : SwitchStep ctx t a t') (ht : OnThread ctx t) : OnThread ctx t' := by
  cases a with
  | switchTo next => exact (switchStep_switchTo h ht).2.1
  | code => cases h with | code hsys _ => exact hsys.trans ht
  | create i => cases h with | create _ hsys _ => exact hsys.trans ht

/-- What thread `i` finds when it runs again, on the way back to it. -/
structure Waiting (ctx : ThreadIndex → Word) (i : ThreadIndex) (words : List Word) (pgd : Word) (t : Threads) : Prop where
  away : t.cur ≠ i
  onThread : OnThread ctx t
  words : contextWords t.state.mem (ctx i) = words
  pgd : contextSlot t.state.mem (ctx i) 13 = pgd

/-- A context is stored beside those of the other threads. -/
theorem storeAll_keeps (hd : ContextsApart ctx) {i j : ThreadIndex} (hi : i ≠ j) :
    Memory.Keeps (contextSpan (ctx i)) mem (mem.storeAll (ctx j) (calleeWords s)) := by
  refine Memory.keeps_storeAll fun x hx => hd j i (Ne.symm hi) x ?_
  rw [length_calleeWords] at hx
  exact span_subset (by simp) hx

theorem Waiting.step {i : ThreadIndex} {words : List Word} {pgd : Word} (hd : ContextsApart ctx)
    (hw : Waiting ctx i words pgd t) (h : Away ctx i t t') : Waiting ctx i words pgd t' := by
  obtain ⟨a, hcreate, hswitch, hstep⟩ := h
  have hon := hstep.onThread hw.onThread
  have hstay (hkeep : Memory.Keeps (contextSpan (ctx i)) t.state.mem t'.state.mem) (hcur : t'.cur ≠ i) :
      Waiting ctx i words pgd t' :=
    ⟨hcur, hon, (contextWords_keeps hkeep).trans hw.words, (contextSlot_keeps hkeep (by decide)).trans hw.pgd⟩
  cases a with
  | code => cases hstep with | code _ hkeep => exact hstay (hkeep i hw.away.symm) hw.away
  | create j =>
      cases hstep with
      | create _ _ hkeep => exact hstay (hkeep i (fun hi => hcreate (hi ▸ rfl)) hw.away.symm) hw.away
  | switchTo next =>
      obtain ⟨hcur, -, hmem, -⟩ := switchStep_switchTo hstep hw.onThread
      refine hstay ?_ fun hi => hswitch (by rw [← hcur, hi])
      rw [hmem]
      exact storeAll_keeps hd hw.away.symm

/-- In every run, whatever the other threads do and in whatever order they run: a thread that called
`switch_to` and is switched back to returns from its call with the registers `x19` to `x30` and the stack
pointer it had, on its own page table, and with `tpidr_el1` at its own context. -/
theorem switchTo_back {t₀ t₁ t₂ t₃ : Threads} {j : ThreadIndex} (hd : ContextsApart ctx) (h₀ : OnThread ctx t₀)
    (hrun : ReflTransGen (fun t t' => ∃ a, SwitchStep ctx t a t') t₀ t) (hj : j ≠ t.cur)
    (hout : SwitchStep ctx t (.switchTo j) t₁) (haway : ReflTransGen (Away ctx t.cur) t₁ t₂)
    (hback : SwitchStep ctx t₂ (.switchTo t.cur) t₃) :
    calleeWords t₃.state = calleeWords t.state ∧ t₃.state.pc = t.state.x 30 ∧
      t₃.state.sys .ttbr0_el1 = contextSlot t.state.mem (ctx t.cur) 13 ∧ OnThread ctx t₃ := by
  have hon : OnThread ctx t := by
    clear hj hout haway hback
    induction hrun with
    | refl => exact h₀
    | tail _ hstep ih => exact hstep.choose_spec.onThread ih
  have hw : Waiting ctx t.cur (calleeWords t.state) (contextSlot t.state.mem (ctx t.cur) 13) t₂ := by
    clear hback
    induction haway with
    | refl =>
        obtain ⟨hcur, hon₁, hmem, -⟩ := switchStep_switchTo hout hon
        refine ⟨hcur ▸ hj, hon₁, ?_, ?_⟩
        · rw [hmem, contextWords_storeAll]
        · rw [hmem, contextSlot_storeAll]
    | tail _ hstep ih => exact ih.step hd hstep
  obtain ⟨-, hon₃, hmem, hwords, hpc, httbr⟩ := switchStep_switchTo hback hw.onThread
  have hkeep : Memory.Keeps (contextSpan (ctx t.cur)) t₂.state.mem t₃.state.mem := by
    rw [hmem]
    exact storeAll_keeps hd hw.away.symm
  have hcallee : calleeWords t₃.state = calleeWords t.state := by
    rw [hwords, contextWords_keeps hkeep, hw.words]
  refine ⟨hcallee, ?_, ?_, hon₃⟩
  · rw [hpc, calleeWords_lr hcallee]
  · rw [httbr, contextSlot_keeps hkeep (by decide), hw.pgd]

/-- Contexts a page apart. -/
def contextPage (i : ThreadIndex) : Word := 0x100000 + BitVec.ofNat 64 (0x1000 * i)

theorem contextPage_apart : ContextsApart contextPage := by
  intro i j hij x hx hx'
  rw [contextSpan, mem_span, contextPage] at hx hx'
  have hi : i.val < 32769 := i.isLt
  have hj : j.val < 32769 := j.isLt
  have hne : i.val ≠ j.val := fun h => hij (Fin.ext h)
  bv_omega

/-- Thread 0 before it switches to thread 1. -/
def switching : Threads :=
  ⟨0, ⟨fun i => if i = 0 then contextPage 0 else if i = 1 then contextPage 1 else 7, 0x2000,
    fun _ => contextPage 0, 0x80000, 0, fun _ => 0⟩⟩

theorem switchTo_back_page : ∃ t₃ : Threads, calleeWords t₃.state = calleeWords switching.state ∧
    t₃.state.pc = 7 ∧ t₃.state.sys .ttbr0_el1 = contextSlot (fun _ => 0) (contextPage 0) 13 ∧
    OnThread contextPage t₃ := by
  have hon : OnThread contextPage switching := rfl
  obtain ⟨s₁, hs₁⟩ : ∃ s₁, s₁ = ret (switching.state.run switchTo) := ⟨_, rfl⟩
  have hout : SwitchStep contextPage switching (.switchTo 1) ⟨1, s₁⟩ := .switchTo rfl rfl hs₁
  obtain ⟨s₂, hs₂⟩ : ∃ s₂ : State, s₂ = { s₁ with x := fun i => if i = 0 then contextPage 1 else contextPage 0 } :=
    ⟨_, rfl⟩
  have hcode : SwitchStep contextPage ⟨1, s₁⟩ .code ⟨1, s₂⟩ :=
    .code (hs₂ ▸ rfl) fun _ _ => hs₂ ▸ Memory.Keeps.refl
  have hback : SwitchStep contextPage ⟨1, s₂⟩ (.switchTo 0) ⟨0, ret (s₂.run switchTo)⟩ :=
    .switchTo (Eq.trans (hs₂ ▸ rfl) (hcode.onThread (hout.onThread hon)).symm) (hs₂ ▸ rfl) rfl
  exact ⟨_, switchTo_back contextPage_apart hon .refl (by decide) hout
    (.single ⟨.code, SwitchAct.noConfusion, SwitchAct.noConfusion, hcode⟩) hback⟩

/-! ## signals -/

/-- The bytes of a context that `store_context` writes. -/
def savedSpan (c : Word) : Set Word := span c 104

theorem contextWords_saved (h : Memory.Keeps (savedSpan c) mem mem') : contextWords mem' c = contextWords mem c := by
  refine List.map_congr_left fun i hi => h.load (span_subset ?_)
  have hlt := List.mem_range.1 hi
  bv_omega

theorem loadContext_words : calleeWords (s.run loadContext) = contextWords s.mem (s.x 0) := by
  rw [loadContext_run]
  exact calleeWords_context _ _ _ _

theorem calleeWords_sp {s s' : State} (h : calleeWords s = calleeWords s') : s.sp = s'.sp := by
  simp only [calleeWords, List.cons.injEq] at h
  exact h.2.2.2.2.2.2.2.2.2.2.2.2.1

variable {K : Set Word} {vector : Word}

/-- `check_signal` stores a context, leaves through `eret` to the handler, and `sigreturn` loads the context
on another way into the kernel.  Whatever runs in between leaves the stack, the frame and the context
alone.  Then `store_context` returns once more, with the registers and the stack of its first return; and
when the kernel pops what it pushed, the code that the exception had interrupted goes on as if there
had been none. -/
theorem sigreturn_transparent {s₁ s₂ s₃ : State} (hframe : ∀ x ∈ frameSpan s.sp, x ∉ K)
    (h₁ : KernelCode (K ∪ frameSpan s.sp) (enter vector s) s₁) (hc₁ : s₁.x 0 = c)
    (hapart : ∀ x ∈ savedSpan c, x ∉ K ∪ frameSpan s.sp)
    (h₂ : KernelCode (K ∪ frameSpan s.sp ∪ savedSpan c) (ret (s₁.run storeContext)) s₂) (hc₂ : s₂.x 0 = c)
    (h₃ : KernelCode (K ∪ frameSpan s.sp) (ret (s₂.run loadContext)) s₃)
    (hsp : s₃.sp - (ret (s₂.run loadContext)).sp = s.sp - 288 - s₁.sp) :
    (calleeWords (ret (s₂.run loadContext)) = calleeWords s₁ ∧ (ret (s₂.run loadContext)).pc = s₁.x 30) ∧
    Restored s (leave s₃) ∧ Memory.Keeps K s.mem (leave s₃).mem := by
  have hstore : (ret (s₁.run storeContext)).mem = s₁.mem.storeAll c (calleeWords s₁) := by
    rw [storeContext_run, hc₁]
    rfl
  have hload : (ret (s₂.run loadContext)).mem = s₂.mem := by
    rw [loadContext_run]
    rfl
  have hwords : calleeWords (ret (s₂.run loadContext)) = calleeWords s₁ := by
    obtain ⟨-, -, hret, -⟩ := ret_eq (s := s₂.run loadContext) rfl
    rw [hret, loadContext_words, hc₂, contextWords_saved (h₂.keeps.mono Set.subset_union_right), hstore,
      contextWords_storeAll]
  have hkeep : Memory.Keeps (K ∪ frameSpan s.sp) s₁.mem s₃.mem := by
    have hstored : Memory.Keeps (K ∪ frameSpan s.sp) s₁.mem (ret (s₁.run storeContext)).mem := by
      rw [hstore]
      exact Memory.keeps_storeAll fun x hx => hapart x hx
    refine hstored.trans ((h₂.keeps.mono Set.subset_union_left).trans ?_)
    rw [← hload]
    exact h₃.keeps
  have hsp₃ : s₃.sp = s.sp - 288 := by
    rw [calleeWords_sp hwords] at hsp
    bv_omega
  have hcode : KernelCode (K ∪ frameSpan s.sp) (enter vector s) s₃ := .own h₁ hkeep
  refine ⟨⟨hwords, ?_⟩, leave_restored (hcode.keeps.mono Set.subset_union_right) hsp₃, hcode.keeps_leave hframe⟩
  rw [(ret_eq rfl).2.2.2, calleeWords_lr hwords]

/-- The handler's registers are others, on another stack, when `sigreturn` loads the context. -/
theorem sigreturn_transparent_busy : ∃ s₁ s₂ s₃ : State, s₃ = ret (s₂.run loadContext) ∧
    (s₁.x 19 = 0x9013 ∧ s₂.x 19 = 0 ∧ s₂.sp = 0x400) ∧
    (calleeWords s₃ = calleeWords s₁ ∧ s₃.pc = s₁.x 30) ∧
    Restored busy (leave s₃) ∧ Memory.Keeps (span 0x1000 0x1000) busy.mem (leave s₃).mem := by
  obtain ⟨s₁, hs₁⟩ : ∃ s₁, s₁ = overwrite (fun i => 0x9000 + BitVec.ofNat 64 i) (enter 0x400 busy) := ⟨_, rfl⟩
  obtain ⟨s₂, hs₂⟩ : ∃ s₂ : State, s₂ =
      { overwrite (fun i => if i = 0 then 0x9000 else 0) (ret (s₁.run storeContext)) with sp := 0x400 } := ⟨_, rfl⟩
  have hsp : s₁.sp = busy.sp - 288 := by
    rw [hs₁, overwrite_sp]
    exact enter_sp
  have hx₁ (i : Fin 31) : s₁.x i = 0x9000 + BitVec.ofNat 64 i := by rw [hs₁, overwrite]
  have hx₂ (i : Fin 31) : s₂.x i = if i = 0 then 0x9000 else 0 := by rw [hs₂, overwrite]
  have hbusy : busy.sp = 0x1000 := rfl
  have hapart : ∀ x ∈ savedSpan 0x9000, x ∉ span 0x1000 0x1000 ∪ frameSpan busy.sp := by
    intro x hx
    rw [savedSpan, mem_span] at hx
    rw [Set.mem_union, frameSpan, mem_span, mem_span, hbusy]
    bv_omega
  have hout : ∀ x ∈ span 0x100 8, x ∉ span 0x1000 0x1000 ∪ frameSpan busy.sp ∪ savedSpan 0x9000 := by
    intro x hx
    rw [mem_span] at hx
    rw [Set.mem_union, Set.mem_union, savedSpan, frameSpan, mem_span, mem_span, mem_span, hbusy]
    bv_omega
  have hcode₁ : KernelCode (span 0x1000 0x1000 ∪ frameSpan busy.sp) (enter 0x400 busy) s₁ :=
    hs₁ ▸ .own (.refl _ _) (overwrite_keeps fun x hx hmem => hout x hx (Or.inl hmem))
  have hcode₂ : KernelCode (span 0x1000 0x1000 ∪ frameSpan busy.sp ∪ savedSpan 0x9000)
      (ret (s₁.run storeContext)) s₂ := by
    have hkeep := overwrite_keeps (s := ret (s₁.run storeContext)) (x := fun i => if i = 0 then 0x9000 else 0) hout
    rw [hs₂]
    exact .own (.refl _ _) hkeep
  have hcode₃ := KernelCode.refl (span 0x1000 0x1000 ∪ frameSpan busy.sp) (ret (s₂.run loadContext))
  have hpop : (ret (s₂.run loadContext)).sp - (ret (s₂.run loadContext)).sp = busy.sp - 288 - s₁.sp := by
    rw [BitVec.sub_self, hsp, BitVec.sub_self]
  exact ⟨s₁, s₂, _, rfl, ⟨hx₁ 19, hx₂ 19, by rw [hs₂]⟩, sigreturn_transparent busy_frame hcode₁ (hx₁ 0) hapart hcode₂
    (hx₂ 0) hcode₃ hpop⟩

end RpiKernel
