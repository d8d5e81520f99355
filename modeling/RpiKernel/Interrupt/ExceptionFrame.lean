import Mathlib.Data.Fintype.Basic
import Mathlib.Tactic.FinCases
import RpiKernel.Lib.Arm

/-!
# RpiKernel.Interrupt.ExceptionFrame

`save_all` and `load_all` of `entry.S`, and the `trapframe` between them.
-/

namespace RpiKernel

open Arm

/-! ## the macros -/

/-- Register `xi`. -/
def xr (i : Fin 31) : Reg := .x i

/-- `save_all`. -/
def saveAll : List Instr :=
  [.sub .sp .sp (32 * 9),
   .stp (xr 0) (xr 1) .sp (16 * 0),
   .stp (xr 2) (xr 3) .sp (16 * 1),
   .stp (xr 4) (xr 5) .sp (16 * 2),
   .stp (xr 6) (xr 7) .sp (16 * 3),
   .stp (xr 8) (xr 9) .sp (16 * 4),
   .stp (xr 10) (xr 11) .sp (16 * 5),
   .stp (xr 12) (xr 13) .sp (16 * 6),
   .stp (xr 14) (xr 15) .sp (16 * 7),
   .stp (xr 16) (xr 17) .sp (16 * 8),
   .stp (xr 18) (xr 19) .sp (16 * 9),
   .stp (xr 20) (xr 21) .sp (16 * 10),
   .stp (xr 22) (xr 23) .sp (16 * 11),
   .stp (xr 24) (xr 25) .sp (16 * 12),
   .stp (xr 26) (xr 27) .sp (16 * 13),
   .stp (xr 28) (xr 29) .sp (16 * 14),
   .str (xr 30) .sp (16 * 15),
   .mrs (xr 0) .spsr_el1,
   .str (xr 0) .sp (16 * 15 + 8),
   .mrs (xr 0) .elr_el1,
   .str (xr 0) .sp (16 * 16),
   .mrs (xr 0) .sp_el0,
   .str (xr 0) .sp (16 * 16 + 8),
   .ldp (xr 0) (xr 1) .sp (16 * 0)]

/-- `load_all`. -/
def loadAll : List Instr :=
  [.ldp (xr 0) (xr 1) .sp (16 * 0),
   .ldp (xr 2) (xr 3) .sp (16 * 1),
   .ldp (xr 4) (xr 5) .sp (16 * 2),
   .ldp (xr 6) (xr 7) .sp (16 * 3),
   .ldp (xr 8) (xr 9) .sp (16 * 4),
   .ldp (xr 10) (xr 11) .sp (16 * 5),
   .ldp (xr 12) (xr 13) .sp (16 * 6),
   .ldp (xr 14) (xr 15) .sp (16 * 7),
   .ldp (xr 16) (xr 17) .sp (16 * 8),
   .ldp (xr 18) (xr 19) .sp (16 * 9),
   .ldp (xr 20) (xr 21) .sp (16 * 10),
   .ldp (xr 22) (xr 23) .sp (16 * 11),
   .ldp (xr 24) (xr 25) .sp (16 * 12),
   .ldp (xr 26) (xr 27) .sp (16 * 13),
   .ldp (xr 28) (xr 29) .sp (16 * 14),
   .ldr (xr 30) .sp (16 * 15),
   .ldr (xr 0) .sp (16 * 15 + 8),
   .msr .spsr_el1 (xr 0),
   .ldr (xr 0) .sp (16 * 16),
   .msr .elr_el1 (xr 0),
   .ldr (xr 0) .sp (16 * 16 + 8),
   .msr .sp_el0 (xr 0),
   .ldp (xr 0) (xr 1) .sp (16 * 0),
   .add .sp .sp (32 * 9)]

/-! ## the frame -/

/-- The word of the `trapframe` at `tpf` with the index `i`: `x0` to `x30`, `spsr_el1`, `elr_el1`, `sp_el0`. -/
def frameSlot (mem : Memory) (tpf : Word) (i : Nat) : Word := mem.load (tpf + BitVec.ofNat 64 (8 * i))

/-- What `save_all` puts into the frame. -/
def frameWords (s : State) : List Word :=
  List.ofFn s.x ++ [s.sys .spsr_el1, s.sys .elr_el1, s.sys .sp_el0]

variable {s : State}

theorem length_frameWords : (frameWords s).length = 34 := by simp [frameWords]

/-- The words of a frame that was saved. -/
theorem frameSlot_storeAll {mem : Memory} {tpf : Word} {i : Nat} {v : Word} (hv : (frameWords s)[i]? = some v) :
    frameSlot (mem.storeAll tpf (frameWords s)) tpf i = v := by
  obtain ⟨hi, rfl⟩ := List.getElem?_eq_some_iff.1 hv
  refine Memory.load_storeAll hi ?_
  rw [length_frameWords]
  decide

theorem frameWords_x (i : Fin 31) : (frameWords s)[i.val]? = some (s.x i) := by
  rw [frameWords, List.getElem?_append_left (by rw [List.length_ofFn]; exact i.isLt), List.getElem?_ofFn,
    dif_pos i.isLt]

theorem frameWords_spsr : (frameWords s)[31]? = some (s.sys .spsr_el1) := by simp [frameWords]

theorem frameWords_elr : (frameWords s)[32]? = some (s.sys .elr_el1) := by simp [frameWords]

theorem frameWords_sp_el0 : (frameWords s)[33]? = some (s.sys .sp_el0) := by simp [frameWords]

theorem ofFn_eq (x : Fin 31 → Word) : List.ofFn x = [x 0, x 1, x 2, x 3, x 4, x 5, x 6, x 7, x 8, x 9, x 10, x 11,
    x 12, x 13, x 14, x 15, x 16, x 17, x 18, x 19, x 20, x 21, x 22, x 23, x 24, x 25, x 26, x 27, x 28, x 29,
    x 30] := rfl

/-- `save_all` up to the last instruction, which gives `x0` back. -/
theorem saveAll_stores : s.run (saveAll.take 23) =
    ⟨Function.update s.x 0 (s.sys .sp_el0), s.sp - 288, s.sys, s.pc + 92, s.pstate,
      s.mem.storeAll (s.sp - 288) (frameWords s)⟩ := by
  rw [frameWords, ofFn_eq]
  simp only [saveAll, List.take_succ_cons, List.take_zero, State.run, List.foldl_cons, List.foldl_nil, State.exec,
    State.get, State.set, xr, Memory.storeAll, List.cons_append, List.nil_append, BitVec.add_assoc,
    BitVec.reduceMul, BitVec.reduceAdd, BitVec.ofNat_eq_ofNat, Function.update_self, Function.update_idem,
    BitVec.add_zero]

/-- `save_all` pushes a frame, and leaves the registers as they were. -/
theorem saveAll_run : s.run saveAll =
    ⟨s.x, s.sp - 288, s.sys, s.pc + 96, s.pstate, s.mem.storeAll (s.sp - 288) (frameWords s)⟩ := by
  have hlast : saveAll = saveAll.take 23 ++ [.ldp (xr 0) (xr 1) .sp 0] := rfl
  have h₀ : frameSlot (s.mem.storeAll (s.sp - 288) (frameWords s)) (s.sp - 288) 0 = s.x 0 :=
    frameSlot_storeAll (frameWords_x 0)
  have h₁ : frameSlot (s.mem.storeAll (s.sp - 288) (frameWords s)) (s.sp - 288) 1 = s.x 1 :=
    frameSlot_storeAll (frameWords_x 1)
  simp only [frameSlot, Nat.reduceMul, BitVec.ofNat_eq_ofNat, BitVec.add_zero] at h₀ h₁
  rw [hlast, State.run_append, saveAll_stores]
  simp only [State.run, List.foldl_cons, List.foldl_nil, State.exec, State.get, State.set, xr, BitVec.add_zero,
    BitVec.ofNat_eq_ofNat, h₀, h₁, Function.update_idem, Function.update_eq_self, BitVec.add_assoc,
    BitVec.reduceAdd]

/-- `load_all` takes every register from the frame, and pops it. -/
theorem loadAll_run : s.run loadAll =
    ⟨fun i => frameSlot s.mem s.sp i, s.sp + 288,
      Function.update (Function.update (Function.update s.sys .spsr_el1 (frameSlot s.mem s.sp 31)) .elr_el1
        (frameSlot s.mem s.sp 32)) .sp_el0 (frameSlot s.mem s.sp 33), s.pc + 96, s.pstate, s.mem⟩ := by
  simp only [loadAll, State.run, List.foldl_cons, List.foldl_nil, State.exec, State.get, State.set, xr,
    BitVec.ofNat_eq_ofNat, BitVec.add_zero, Function.update_self, BitVec.add_assoc, BitVec.reduceMul,
    BitVec.reduceAdd, frameSlot, Nat.reduceMul]
  congr 1
  funext i
  fin_cases i <;> simp [Function.update]

/-! ## exceptions -/

/-- `PSTATE` in a handler: EL1 with `SP_EL1`, and D, A, I and F masked. -/
def handlerState : Word := 0x3c5

/-- An exception is taken, and its entry of the vector table runs `save_all`. -/
def enter (vector : Word) (s : State) : State := (s.take vector handlerState).run saveAll

/-- `load_all` and `eret`. -/
def leave (s : State) : State := (s.run loadAll).eret

/-- The stack that an exception takes below `sp`. -/
def frameSpan (sp : Word) : Set Word := span (sp - 288) 288

/-- Kernel code, of this thread or of others it switches to, that leaves the bytes in `K` alone.  It may
be interrupted anywhere: the handler is kernel code again, leaves the frame alone as well, and
comes back to where its frame is. -/
inductive KernelCode : Set Word → State → State → Prop
  | refl (K : Set Word) (s : State) : KernelCode K s s
  | own {K : Set Word} {s s₁ s₂ : State} : KernelCode K s s₁ → Memory.Keeps K s₁.mem s₂.mem →
      KernelCode K s s₂
  | irq {K : Set Word} {s s₁ s₂ : State} (vector : Word) : KernelCode K s s₁ →
      (∀ x ∈ frameSpan s₁.sp, x ∉ K) → KernelCode (K ∪ frameSpan s₁.sp) (enter vector s₁) s₂ →
      s₂.sp = s₁.sp - 288 → KernelCode K s (leave s₂)

variable {K : Set Word} {s₂ : State} {vector : Word}

theorem enter_mem : (enter vector s).mem =
    s.mem.storeAll (s.sp - 288) (frameWords (s.take vector handlerState)) := by
  rw [enter, saveAll_run]
  rfl

theorem leave_mem : (leave s).mem = s.mem := by rw [leave, State.eret_mem, loadAll_run]

/-- Pushing a frame leaves everything outside of it. -/
theorem enter_keeps (hK : ∀ x ∈ frameSpan s.sp, x ∉ K) : Memory.Keeps K s.mem (enter vector s).mem := by
  rw [enter_mem]
  refine Memory.keeps_storeAll fun x hx => hK x ?_
  rw [length_frameWords] at hx
  exact span_subset (by simp) hx

theorem KernelCode.keeps {s' : State} (h : KernelCode K s s') : Memory.Keeps K s.mem s'.mem := by
  induction h with
  | refl => exact Memory.Keeps.refl
  | own _ hkeep ih => exact ih.trans hkeep
  | irq vector _ hframe _ _ ih ihnested =>
      rw [leave_mem]
      exact ih.trans ((enter_keeps hframe).trans (ihnested.mono Set.subset_union_left))

/-- A word of the frame, when the handler left the frame alone. -/
theorem frameSlot_keeps {i : Nat} {v : Word} (h : Memory.Keeps (frameSpan s.sp) (enter vector s).mem s₂.mem)
    (hsp : s₂.sp = s.sp - 288) (hv : (frameWords (s.take vector handlerState))[i]? = some v) :
    frameSlot s₂.mem s₂.sp i = v := by
  have hi : i < 34 := by
    rw [← length_frameWords (s := s.take vector handlerState)]
    exact (List.getElem?_eq_some_iff.1 hv).1
  rw [hsp, frameSlot, h.load (span_subset ?_), enter_mem]
  · exact frameSlot_storeAll hv
  · bv_omega

/-- `s'` goes on where `s` was: at its address, in its state, with its registers and its stack. -/
structure Restored (s s' : State) : Prop where
  pc : s'.pc = s.pc
  pstate : s'.pstate = s.pstate
  x : s'.x = s.x
  sp : s'.sp = s.sp
  sp_el0 : s'.sys .sp_el0 = s.sys .sp_el0

/-- A handler that left its frame alone restores what was interrupted. -/
theorem leave_restored (hkeep : Memory.Keeps (frameSpan s.sp) (enter vector s).mem s₂.mem)
    (hsp : s₂.sp = s.sp - 288) : Restored s (leave s₂) := by
  have hx (i : Fin 31) : frameSlot s₂.mem s₂.sp i = s.x i := frameSlot_keeps hkeep hsp (frameWords_x i)
  have hspsr : frameSlot s₂.mem s₂.sp 31 = s.pstate := frameSlot_keeps hkeep hsp frameWords_spsr
  have helr : frameSlot s₂.mem s₂.sp 32 = s.pc := frameSlot_keeps hkeep hsp frameWords_elr
  have hel0 : frameSlot s₂.mem s₂.sp 33 = s.sys .sp_el0 := frameSlot_keeps hkeep hsp frameWords_sp_el0
  constructor
  case pc => simp [leave, loadAll_run, helr]
  case pstate => simp [leave, loadAll_run, hspsr]
  case x =>
    funext i
    simp [leave, loadAll_run, hx]
  case sp => simp [leave, loadAll_run, hsp]
  case sp_el0 => simp [leave, loadAll_run, hel0]

/-- An interrupt as a whole leaves what its handler leaves. -/
theorem KernelCode.keeps_leave (hframe : ∀ x ∈ frameSpan s.sp, x ∉ K)
    (h : KernelCode (K ∪ frameSpan s.sp) (enter vector s) s₂) : Memory.Keeps K s.mem (leave s₂).mem := by
  rw [leave_mem]
  exact (enter_keeps hframe).trans (h.keeps.mono Set.subset_union_left)

/-- Whatever the handler does, interrupted itself to any depth: after `eret` the interrupted code goes on
where it was, with every register it had and its memory as it was. -/
theorem irq_transparent (hframe : ∀ x ∈ frameSpan s.sp, x ∉ K)
    (h : KernelCode (K ∪ frameSpan s.sp) (enter vector s) s₂) (hsp : s₂.sp = s.sp - 288) :
    Restored s (leave s₂) ∧ Memory.Keeps K s.mem (leave s₂).mem :=
  ⟨leave_restored (h.keeps.mono Set.subset_union_right) hsp, h.keeps_leave hframe⟩

/-- A state with an empty stack that ends at `0x2000`, and something in every register. -/
def busy : State := ⟨fun i => BitVec.ofNat 64 (i + 1), 0x1000, fun _ => 0x7000, 0x80000, 0x3c5, fun _ => 0⟩

/-- Code that sets the registers, and stores one of them at `0x100`. -/
def overwrite (x : Fin 31 → Word) (s : State) : State := { s with x := x, mem := s.mem.store 0x100 (x 1) }

theorem overwrite_sp (x : Fin 31 → Word) (s : State) : (overwrite x s).sp = s.sp := rfl

theorem overwrite_keeps {x : Fin 31 → Word} (hK : ∀ a ∈ span 0x100 8, a ∉ K) :
    Memory.Keeps K s.mem (overwrite x s).mem := by
  have h : Memory.Keeps K s.mem (s.mem.storeAll 0x100 [x 1]) := Memory.keeps_storeAll hK
  exact h

theorem enter_sp : (enter vector s).sp = s.sp - 288 := by
  rw [enter, saveAll_run]
  rfl

/-- The frame of an interrupt does not reach the stack above it. -/
theorem busy_frame : ∀ x ∈ frameSpan 0x1000, x ∉ span 0x1000 0x1000 := by
  intro x hx hmem
  rw [frameSpan, mem_span] at hx
  rw [mem_span] at hmem
  bv_omega

/-- A handler that overwrites the registers is interrupted by another one that does so. -/
theorem irq_transparent_busy : ∃ s₁ s₂ : State, s₁ = overwrite (fun _ => 7) (enter 0x280 busy) ∧
    s₂ = leave (overwrite (fun _ => 9) (enter 0x280 s₁)) ∧ Restored busy (leave s₂) ∧
    Memory.Keeps (span 0x1000 0x1000) busy.mem (leave s₂).mem := by
  refine ⟨_, _, rfl, rfl, ?_⟩
  have hsp₁ : (overwrite (fun _ => 7) (enter 0x280 busy)).sp = busy.sp - 288 := (overwrite_sp _ _).trans enter_sp
  have hbusy : busy.sp = 0x1000 := rfl
  rw [hbusy] at hsp₁
  generalize hs₁ : overwrite (fun _ => 7) (enter 0x280 busy) = s₁ at hsp₁ ⊢
  -- the first handler
  have hcode₁ : KernelCode (span 0x1000 0x1000 ∪ frameSpan 0x1000) (enter 0x280 busy) s₁ := by
    refine hs₁ ▸ .own (.refl _ _) (overwrite_keeps fun a ha => ?_)
    rw [mem_span] at ha
    rw [Set.mem_union, frameSpan, mem_span, mem_span]
    bv_omega
  -- the second one, in the frame of the first
  have hcode₂ : KernelCode (span 0x1000 0x1000 ∪ frameSpan 0x1000 ∪ frameSpan s₁.sp) (enter 0x280 s₁)
      (overwrite (fun _ => 9) (enter 0x280 s₁)) := by
    refine .own (.refl _ _) (overwrite_keeps fun a ha => ?_)
    rw [mem_span] at ha
    rw [Set.mem_union, Set.mem_union, hsp₁, frameSpan, frameSpan, mem_span, mem_span, mem_span]
    bv_omega
  have hframe : ∀ x ∈ frameSpan s₁.sp, x ∉ span 0x1000 0x1000 ∪ frameSpan 0x1000 := by
    intro x hx
    rw [hsp₁, frameSpan, mem_span] at hx
    rw [Set.mem_union, frameSpan, mem_span, mem_span]
    bv_omega
  have hsp₂ : (overwrite (fun _ => 9) (enter 0x280 s₁)).sp = s₁.sp - 288 := (overwrite_sp _ _).trans enter_sp
  have hback := leave_restored (hcode₂.keeps.mono Set.subset_union_right) hsp₂
  exact irq_transparent (s := busy) busy_frame (.irq 0x280 hcode₁ hframe hcode₂ hsp₂) (hback.sp.trans hsp₁)

/-! ## an interrupt inside `load_all` -/

/-- What an interrupt changes: the two registers that an exception sets. -/
theorem irq_sys (h : KernelCode (K ∪ frameSpan s.sp) (enter vector s) s₂) (hsp : s₂.sp = s.sp - 288) :
    (leave s₂).sys .elr_el1 = s.pc ∧ (leave s₂).sys .spsr_el1 = s.pstate := by
  have hkeep := h.keeps.mono Set.subset_union_right
  have hspsr : frameSlot s₂.mem s₂.sp 31 = s.pstate := frameSlot_keeps hkeep hsp frameWords_spsr
  have helr : frameSlot s₂.mem s₂.sp 32 = s.pc := frameSlot_keeps hkeep hsp frameWords_elr
  constructor
  · simp [leave, loadAll_run, helr]
  · simp [leave, loadAll_run, hspsr]

/-- `load_all` looks at its frame only, and at no system register. -/
theorem loadAll_sees (R : Set SysReg) (hK : span s.sp 288 ⊆ K) : Sees R K s loadAll := by
  have hloads : ∀ i ∈ loadAll.take 23, i.inFrame 288 := by decide
  have hlast : loadAll = loadAll.take 23 ++ [.add .sp .sp (32 * 9)] := rfl
  rw [hlast, sees_append]
  exact ⟨sees_of_inFrame (by decide) hloads hK, trivial, trivial⟩

theorem defines_spsr : ∀ k ≤ 24, Defines (loadAll.drop k) .spsr_el1 ↔ k ≤ 17 := by decide

theorem defines_elr : ∀ k ≤ 24, Defines (loadAll.drop k) .elr_el1 ↔ k ≤ 19 := by decide

/-- An interrupt that comes after `k` instructions of `load_all` changes no general register.  It changes
where the exception returns to when `elr_el1` was set already: the `eret` then comes back into
`load_all`; and when `spsr_el1` was set already the state it returns to is that of `load_all`. -/
theorem loadAll_interrupted {k : Nat} (hk : k ≤ 24) (hin : k < 24 → span s.sp 288 ⊆ K)
    (hframe : ∀ x ∈ frameSpan (s.run (loadAll.take k)).sp, x ∉ K)
    (h : KernelCode (K ∪ frameSpan (s.run (loadAll.take k)).sp) (enter vector (s.run (loadAll.take k))) s₂)
    (hsp : s₂.sp = (s.run (loadAll.take k)).sp - 288) :
    ((leave s₂).run (loadAll.drop k)).x = (leave s).x ∧
    ((leave s₂).run (loadAll.drop k)).sp = (leave s).sp ∧
    ((leave s₂).run (loadAll.drop k)).sys .sp_el0 = (leave s).sys .sp_el0 ∧
    ((leave s₂).run (loadAll.drop k)).eret.pstate = (if k ≤ 17 then (leave s).pstate else s.pstate) ∧
    ((leave s₂).run (loadAll.drop k)).eret.pc =
      (if k ≤ 19 then (leave s).pc else s.pc + BitVec.ofNat 64 (4 * k)) := by
  have hback := leave_restored (h.keeps.mono Set.subset_union_right) hsp
  obtain ⟨helr, hspsr⟩ := irq_sys h hsp
  rw [State.run_pstate] at hspsr
  rw [State.run_pc, List.length_take, show loadAll.length = 24 from rfl, Nat.min_eq_left hk] at helr
  have hagree : Agree {r | r ≠ .sp_el0} K (s.run (loadAll.take k)) (leave s₂) :=
    ⟨hback.x, hback.sp, hback.pc, hback.pstate, fun r hr => by rw [not_not.1 hr, hback.sp_el0],
      h.keeps_leave hframe⟩
  have hsees : Sees {r | r ≠ .sp_el0} K (s.run (loadAll.take k)) (loadAll.drop k) := by
    rcases Nat.lt_or_eq_of_le hk with hlt | rfl
    · refine (sees_append.1 ?_).2
      rw [List.take_append_drop]
      exact loadAll_sees _ (hin hlt)
    · trivial
  have hrun := hagree.run hsees
  rw [← State.run_append, List.take_append_drop] at hrun
  have hleave : leave s = (s.run loadAll).eret := rfl
  rw [hleave, State.eret_x, State.eret_sp, State.eret_sys, State.eret_pstate, State.eret_pstate, State.eret_pc,
    State.eret_pc]
  refine ⟨hrun.x, hrun.sp, hrun.sys _ (by simp), ?_, ?_⟩
  · by_cases hle : k ≤ 17
    · rw [if_pos hle]
      exact hrun.sys _ fun hmem => hmem.2 ((defines_spsr k hk).2 hle)
    · rw [if_neg hle]
      exact (run_sys fun hd => hle ((defines_spsr k hk).1 hd)).trans hspsr
  · by_cases hle : k ≤ 19
    · rw [if_pos hle]
      exact hrun.sys _ fun hmem => hmem.2 ((defines_elr k hk).2 hle)
    · rw [if_neg hle]
      exact (run_sys fun hd => hle ((defines_elr k hk).1 hd)).trans helr

/-- With `elr_el1` set the `eret` of `load_all` comes back into `load_all`. -/
theorem loadAll_interrupted_late :
    ((leave (enter 0x280 (busy.run (loadAll.take 20)))).run (loadAll.drop 20)).eret.pc = 0x80050 := by
  have hsp : (busy.run (loadAll.take 20)).sp = 0x1000 := run_sp_of_inFrame (n := 288) (by decide)
  have hframe : ∀ x ∈ frameSpan (busy.run (loadAll.take 20)).sp, x ∉ span 0x1000 0x1000 := by
    rw [hsp]
    exact busy_frame
  have hcode : KernelCode (span 0x1000 0x1000 ∪ frameSpan (busy.run (loadAll.take 20)).sp)
      (enter 0x280 (busy.run (loadAll.take 20))) (enter 0x280 (busy.run (loadAll.take 20))) := .refl _ _
  exact (loadAll_interrupted (s := busy) (by decide) (fun _ => span_subset (by decide)) hframe hcode
    enter_sp).2.2.2.2

end RpiKernel
