import Mathlib

/-!
# Lib.Arm

The part of AArch64 at EL1 that saves and restores registers: the general registers, the stack
pointer `SP_EL1`, some system registers, a little-endian memory of bytes, and straight-line code over
them.  A run of words in memory is `Memory.storeAll`; the `n` bytes from `p` on, modulo `2 ^ 64`, are
`span p n`, and `Memory.Keeps K` says that the bytes in `K` are the same.
-/

namespace Arm

abbrev Word := BitVec 64

abbrev Memory := Word → BitVec 8

/-- The addresses of `n` bytes from `p` on. -/
def span (p : Word) (n : Nat) : Set Word := {x | (x - p).toNat < n}

theorem mem_span {p x : Word} {n : Nat} : x ∈ span p n ↔ (x - p).toNat < n := Iff.rfl

instance (p x : Word) (n : Nat) : Decidable (x ∈ span p n) := inferInstanceAs (Decidable ((x - p).toNat < n))

/-- A part of a span. -/
theorem span_subset {p q : Word} {k n : Nat} (h : (q - p).toNat + k ≤ n) : span q k ⊆ span p n := by
  intro x hx
  rw [mem_span] at hx ⊢
  bv_omega

namespace Memory

/-- A doubleword store. -/
def store (m : Memory) (a v : Word) : Memory := fun x =>
  if (x - a).toNat < 8 then v.extractLsb' (8 * (x - a).toNat) 8 else m x

/-- A doubleword load. -/
def load (m : Memory) (a : Word) : Word :=
  BitVec.ofFnLE fun i : Fin 64 => (m (a + BitVec.ofNat 64 (i / 8))).getLsbD (i % 8)

/-- The bytes in `K` are the same. -/
def Keeps (K : Set Word) (m m' : Memory) : Prop := ∀ x ∈ K, m' x = m x

/-- Doublewords one behind the other. -/
def storeAll (m : Memory) (base : Word) : List Word → Memory
  | [] => m
  | v :: vs => (m.store base v).storeAll (base + 8) vs

variable {m m' m'' : Memory} {a v base : Word} {vs : List Word} {K K' : Set Word}

theorem store_add {k : Nat} (hk : k < 8) :
    m.store a v (a + BitVec.ofNat 64 k) = v.extractLsb' (8 * k) 8 := by
  have hsub : (a + BitVec.ofNat 64 k - a).toNat = k := by bv_omega
  rw [store, if_pos (by omega), hsub]

@[simp] theorem load_store : (m.store a v).load a = v := by
  refine BitVec.eq_of_getLsbD_eq fun i hi => ?_
  have hbyte : i / 8 < 8 := by omega
  have hbit : i % 8 < 8 := Nat.mod_lt _ (by decide)
  have hi' : 8 * (i / 8) + i % 8 = i := Nat.div_add_mod i 8
  simp [load, hi, store_add hbyte, hbit, hi']

theorem load_congr (h : ∀ k < 8, m' (a + BitVec.ofNat 64 k) = m (a + BitVec.ofNat 64 k)) :
    m'.load a = m.load a := by
  unfold load
  congr 1
  funext i
  rw [h _ (by omega)]

/-! ## what stays -/

theorem Keeps.refl : Keeps K m m := fun _ _ => rfl

theorem Keeps.trans (h : Keeps K m m') (h' : Keeps K m' m'') : Keeps K m m'' := fun x hx =>
  (h' x hx).trans (h x hx)

theorem Keeps.mono (h : Keeps K m m') (hK : K' ⊆ K) : Keeps K' m m' := fun x hx => h x (hK hx)

/-- A doubleword of what stays. -/
theorem Keeps.load (h : Keeps K m m') (ha : span a 8 ⊆ K) : m'.load a = m.load a := by
  refine load_congr fun k hk => h _ (ha ?_)
  rw [mem_span]
  bv_omega

/-- Bytes outside of a run of words. -/
theorem storeAll_of_not_mem {x : Word} (h : 8 * vs.length ≤ (x - base).toNat) : m.storeAll base vs x = m x := by
  induction vs generalizing m base with
  | nil => rfl
  | cons v vs ih =>
      rw [List.length_cons] at h
      rw [storeAll, ih (by bv_omega), store, if_neg (by omega)]

/-- A run of words leaves everything else. -/
theorem keeps_storeAll (h : ∀ x ∈ span base (8 * vs.length), x ∉ K) : Keeps K m (m.storeAll base vs) := by
  intro x hx
  refine storeAll_of_not_mem ?_
  by_contra hlt
  exact h x (Nat.lt_of_not_le hlt) hx

/-- Each word of the run. -/
theorem load_storeAll {i : Nat} (hi : i < vs.length) (h : 8 * vs.length ≤ 2 ^ 64) :
    (m.storeAll base vs).load (base + BitVec.ofNat 64 (8 * i)) = vs[i] := by
  induction vs generalizing m base i with
  | nil => contradiction
  | cons v vs ih =>
      rw [List.length_cons] at h hi
      cases i with
      | zero =>
          have hbase : base + BitVec.ofNat 64 (8 * 0) = base := BitVec.add_zero base
          rw [hbase, storeAll, load_congr fun k hk => storeAll_of_not_mem ?_, load_store, List.getElem_cons_zero]
          bv_omega
      | succ i =>
          have haddr : base + BitVec.ofNat 64 (8 * (i + 1)) = base + 8 + BitVec.ofNat 64 (8 * i) := by
            bv_omega
          rw [haddr, storeAll, ih (by omega) (by omega), List.getElem_cons_succ]

end Memory

/-! ## code -/

/-- The system registers that matter here. -/
inductive SysReg where
  | spsr_el1
  | elr_el1
  | sp_el0
  | tpidr_el1
  | ttbr0_el1
  deriving DecidableEq

/-- The number of the general registers, for their numerals. -/
instance neZero_registers : NeZero 31 := ⟨by decide⟩

/-- A general register, or the stack pointer. -/
inductive Reg where
  | x (i : Fin 31)
  | sp
  deriving DecidableEq

/-- The frame pointer. -/
def Reg.fp : Reg := .x 29

/-- The link register. -/
def Reg.lr : Reg := .x 30

structure State where
  x : Fin 31 → Word
  sp : Word
  sys : SysReg → Word
  pc : Word
  pstate : Word
  mem : Memory

/-- Instructions; `dsb`, `isb` and `tlbi` are barriers. -/
inductive Instr where
  | stp (a b base : Reg) (offset : Word)
  | ldp (a b base : Reg) (offset : Word)
  | str (a base : Reg) (offset : Word)
  | ldr (a base : Reg) (offset : Word)
  | mov (d a : Reg)
  | add (d a : Reg) (imm : Word)
  | sub (d a : Reg) (imm : Word)
  | mrs (d : Reg) (r : SysReg)
  | msr (r : SysReg) (a : Reg)
  | barrier

namespace State

def get (s : State) : Reg → Word
  | .x i => s.x i
  | .sp => s.sp

def set (s : State) (r : Reg) (v : Word) : State :=
  match r with
  | .x i => { s with x := Function.update s.x i v }
  | .sp => { s with sp := v }

/-- One instruction, and the next address. -/
def exec (s : State) (i : Instr) : State :=
  let s' : State := match i with
    | .stp a b base offset =>
        { s with mem := (s.mem.store (s.get base + offset) (s.get a)).store (s.get base + offset + 8) (s.get b) }
    | .ldp a b base offset =>
        (s.set a (s.mem.load (s.get base + offset))).set b (s.mem.load (s.get base + offset + 8))
    | .str a base offset => { s with mem := s.mem.store (s.get base + offset) (s.get a) }
    | .ldr a base offset => s.set a (s.mem.load (s.get base + offset))
    | .mov d a => s.set d (s.get a)
    | .add d a imm => s.set d (s.get a + imm)
    | .sub d a imm => s.set d (s.get a - imm)
    | .mrs d r => s.set d (s.sys r)
    | .msr r a => { s with sys := Function.update s.sys r (s.get a) }
    | .barrier => s
  { s' with pc := s.pc + 4 }

/-- Straight-line code. -/
def run (s : State) (code : List Instr) : State := code.foldl exec s

theorem run_append (s : State) (code code' : List Instr) : s.run (code ++ code') = (s.run code).run code' :=
  List.foldl_append

theorem set_pstate (s : State) (d : Reg) (v : Word) : (s.set d v).pstate = s.pstate := by cases d <;> rfl

/-- Straight-line code goes on behind its last instruction. -/
theorem run_pc (s : State) (code : List Instr) : (s.run code).pc = s.pc + BitVec.ofNat 64 (4 * code.length) := by
  induction code generalizing s with
  | nil => exact (BitVec.add_zero _).symm
  | cons i code ih =>
      have hnext : (s.exec i).pc = s.pc + 4 := rfl
      refine (ih (s.exec i)).trans ?_
      rw [hnext, List.length_cons]
      bv_omega

theorem run_pstate (s : State) (code : List Instr) : (s.run code).pstate = s.pstate := by
  induction code generalizing s with
  | nil => rfl
  | cons i code ih =>
      refine (ih (s.exec i)).trans ?_
      cases i <;> simp [exec, set_pstate]

/-- An exception to EL1: the address and the state are kept, and the vector is entered. -/
def take (s : State) (vector mask : Word) : State :=
  { s with
    sys := Function.update (Function.update s.sys .elr_el1 s.pc) .spsr_el1 s.pstate
    pc := vector
    pstate := mask }

/-- `eret`. -/
def eret (s : State) : State := { s with pc := s.sys .elr_el1, pstate := s.sys .spsr_el1 }

@[simp] theorem eret_x (s : State) : s.eret.x = s.x := rfl

@[simp] theorem eret_sp (s : State) : s.eret.sp = s.sp := rfl

@[simp] theorem eret_sys (s : State) : s.eret.sys = s.sys := rfl

@[simp] theorem eret_mem (s : State) : s.eret.mem = s.mem := rfl

@[simp] theorem eret_pc (s : State) : s.eret.pc = s.sys .elr_el1 := rfl

@[simp] theorem eret_pstate (s : State) : s.eret.pstate = s.sys .spsr_el1 := rfl

end State

/-! ## loads through one register -/

/-- A load through `xc` that leaves `xc`. -/
def Instr.loadsFrom (c : Fin 31) : Instr → Bool
  | .ldp (.x a) (.x b) (.x base) _ => base = c ∧ a ≠ c ∧ b ≠ c
  | .ldr (.x a) (.x base) _ => base = c ∧ a ≠ c
  | _ => false

/-- What it loads, and from which offset. -/
def Instr.loads : Instr → List (Fin 31 × Word)
  | .ldp (.x a) (.x b) _ offset => [(a, offset), (b, offset + 8)]
  | .ldr (.x a) _ offset => [(a, offset)]
  | _ => []

/-- The registers behind such loads. -/
def loadRegs (mem : Memory) (base : Word) : List (Fin 31 × Word) → (Fin 31 → Word) → Fin 31 → Word
  | [], x => x
  | p :: ps, x => loadRegs mem base ps (Function.update x p.1 (mem.load (base + p.2)))

theorem loadRegs_append {mem : Memory} {base : Word} (ps qs : List (Fin 31 × Word)) (x : Fin 31 → Word) :
    loadRegs mem base (ps ++ qs) x = loadRegs mem base qs (loadRegs mem base ps x) := by
  induction ps generalizing x with
  | nil => rfl
  | cons p ps ih => exact ih _

/-- One such load. -/
theorem exec_load {s : State} {c : Fin 31} {i : Instr} (h : i.loadsFrom c) :
    s.exec i = { s with x := loadRegs s.mem (s.x c) i.loads s.x, pc := s.pc + 4 } ∧
      loadRegs s.mem (s.x c) i.loads s.x c = s.x c := by
  cases i with
  | ldp a b base offset =>
      cases a <;> cases b <;> cases base <;> simp [Instr.loadsFrom] at h
      rename_i a b base
      obtain ⟨rfl, ha, hb⟩ := h
      have hassoc := BitVec.add_assoc (s.x base) offset 8
      refine ⟨?_, ?_⟩
      · rw [Instr.loads, loadRegs, loadRegs, loadRegs, ← hassoc]
        rfl
      · rw [Instr.loads, loadRegs, loadRegs, loadRegs, Function.update_of_ne (Ne.symm hb),
          Function.update_of_ne (Ne.symm ha)]
  | ldr a base offset =>
      cases a <;> cases base <;> simp [Instr.loadsFrom] at h
      obtain ⟨rfl, ha⟩ := h
      exact ⟨rfl, Function.update_of_ne (Ne.symm ha) _ _⟩
  | _ => simp [Instr.loadsFrom] at h

/-- A run of such loads reads one part of memory. -/
theorem run_loads {s : State} {c : Fin 31} {code : List Instr} (h : ∀ i ∈ code, i.loadsFrom c) :
    s.run code = { s with
      x := loadRegs s.mem (s.x c) (code.flatMap Instr.loads) s.x
      pc := s.pc + BitVec.ofNat 64 (4 * code.length) } := by
  induction code generalizing s with
  | nil => simp [State.run, loadRegs]
  | cons i code ih =>
      obtain ⟨hi, hcode⟩ := List.forall_mem_cons.1 h
      obtain ⟨hexec, hbase⟩ := exec_load (s := s) hi
      have hpc : s.pc + BitVec.ofNat 64 (4 * (code.length + 1)) = s.pc + 4 + BitVec.ofNat 64 (4 * code.length) := by
        bv_omega
      have hrun : s.run (i :: code) = (s.exec i).run code := rfl
      rw [hrun, hexec, ih hcode]
      dsimp only
      rw [hbase, List.flatMap_cons, loadRegs_append, List.length_cons, hpc]

/-! ## code that does not look -/

/-- The system register that an instruction writes. -/
def Instr.defines : Instr → Option SysReg
  | .msr r _ => some r
  | _ => none

/-- Some instruction writes `r`. -/
def Defines (code : List Instr) (r : SysReg) : Prop := some r ∈ code.map Instr.defines

instance (code : List Instr) (r : SysReg) : Decidable (Defines code r) :=
  inferInstanceAs (Decidable (some r ∈ code.map Instr.defines))

/-- What an instruction reads is in memory at `K`, or in a register not in `R`. -/
def Instr.Sees (R : Set SysReg) (K : Set Word) (s : State) : Instr → Prop
  | .ldp _ _ base offset => span (s.get base + offset) 8 ⊆ K ∧ span (s.get base + offset + 8) 8 ⊆ K
  | .ldr _ base offset => span (s.get base + offset) 8 ⊆ K
  | .mrs _ r => r ∉ R
  | _ => True

/-- So does every instruction of `code`. -/
def Sees (R : Set SysReg) (K : Set Word) : State → List Instr → Prop
  | _, [] => True
  | s, i :: code => i.Sees R K s ∧ Sees R K (s.exec i) code

/-- Two states that differ in the system registers in `R` and in memory outside of `K`. -/
structure Agree (R : Set SysReg) (K : Set Word) (s s' : State) : Prop where
  x : s'.x = s.x
  sp : s'.sp = s.sp
  pc : s'.pc = s.pc
  pstate : s'.pstate = s.pstate
  sys : ∀ r, r ∉ R → s'.sys r = s.sys r
  mem : Memory.Keeps K s.mem s'.mem

section

variable {R : Set SysReg} {K : Set Word} {s s' : State} {code code' : List Instr} {i : Instr} {r : SysReg}

theorem Agree.get (h : Agree R K s s') (a : Reg) : s'.get a = s.get a := by
  cases a with
  | x i => exact congrFun h.x i
  | sp => exact h.sp

theorem Agree.set (h : Agree R K s s') (d : Reg) (v : Word) : Agree R K (s.set d v) (s'.set d v) := by
  cases d with
  | x i => exact { h with x := by simp only [State.set, h.x] }
  | sp => exact { h with sp := rfl }

theorem Agree.store {m m' : Memory} (h : Agree R K s s') (hm : Memory.Keeps K m m') :
    Agree R K { s with mem := m } { s' with mem := m' } := ⟨h.x, h.sp, h.pc, h.pstate, h.sys, hm⟩

/-- The same store in both. -/
theorem Memory.Keeps.store {m m' : Memory} (h : Memory.Keeps K m m') (a v : Word) :
    Memory.Keeps K (m.store a v) (m'.store a v) := by
  intro x hx
  rw [Memory.store, Memory.store, h x hx]

theorem Agree.exec (h : Agree R K s s') (hi : i.Sees R K s) :
    Agree {r ∈ R | i.defines ≠ some r} K (s.exec i) (s'.exec i) := by
  have hpc : s'.pc + 4 = s.pc + 4 := by rw [h.pc]
  have weaken {t t' : State} (ht : Agree R K t t') (hnone : i.defines = none) :
      Agree {r ∈ R | i.defines ≠ some r} K { t with pc := s.pc + 4 } { t' with pc := s'.pc + 4 } :=
    { ht with
      pc := hpc
      sys := fun r hr => ht.sys r fun hmem => hr ⟨hmem, by simp [hnone]⟩ }
  cases i with
  | stp a b base offset =>
      simp only [State.exec, h.get]
      exact weaken (h.store (h.mem.store _ _ |>.store _ _)) rfl
  | str a base offset =>
      simp only [State.exec, h.get]
      exact weaken (h.store (h.mem.store _ _)) rfl
  | ldp a b base offset =>
      simp only [State.exec, h.get, h.mem.load hi.1, h.mem.load hi.2]
      exact weaken ((h.set _ _).set _ _) rfl
  | ldr a base offset =>
      simp only [State.exec, h.get, h.mem.load hi]
      exact weaken (h.set _ _) rfl
  | mov d a =>
      simp only [State.exec, h.get]
      exact weaken (h.set _ _) rfl
  | add d a imm =>
      simp only [State.exec, h.get]
      exact weaken (h.set _ _) rfl
  | sub d a imm =>
      simp only [State.exec, h.get]
      exact weaken (h.set _ _) rfl
  | mrs d r =>
      simp only [State.exec, h.sys r hi]
      exact weaken (h.set _ _) rfl
  | msr r a =>
      simp only [State.exec, h.get]
      refine { h with pc := hpc, sys := fun r' hr' => ?_ }
      by_cases heq : r' = r
      · simp [heq]
      · simp only [Function.update_of_ne heq]
        exact h.sys r' fun hmem => hr' ⟨hmem, fun hsome => heq (Option.some.inj hsome).symm⟩
  | barrier => exact weaken h rfl

theorem defines_cons : Defines (i :: code) r ↔ i.defines = some r ∨ Defines code r := by
  simp only [Defines, List.map_cons, List.mem_cons, eq_comm]

theorem Agree.mono {R' : Set SysReg} (h : Agree R K s s') (hR : R ⊆ R') : Agree R' K s s' :=
  { h with sys := fun r hr => h.sys r fun hmem => hr (hR hmem) }

theorem Sees.mono {R' : Set SysReg} (h : Sees R K s code) (hR : R' ⊆ R) : Sees R' K s code := by
  induction code generalizing s with
  | nil => trivial
  | cons i code ih =>
      refine ⟨?_, ih h.2⟩
      cases i with
      | mrs d r => exact fun hmem => h.1 (hR hmem)
      | _ => exact h.1

/-- Code that does not look at what differs leaves less of it. -/
theorem Agree.run (h : Agree R K s s') (hc : Sees R K s code) :
    Agree {r ∈ R | ¬ Defines code r} K (s.run code) (s'.run code) := by
  induction code generalizing R s s' with
  | nil => exact h.mono fun r hr => ⟨hr, by simp [Defines]⟩
  | cons i code ih =>
      refine (ih (h.exec hc.1) (hc.2.mono fun r hr => hr.1)).mono fun r hr => ⟨hr.1.1, ?_⟩
      exact fun hd => (defines_cons.1 hd).elim hr.1.2 hr.2

theorem sees_append : Sees R K s (code ++ code') ↔ Sees R K s code ∧ Sees R K (s.run code) code' := by
  induction code generalizing s with
  | nil => exact (true_and _).to_iff.symm
  | cons i code ih => exact (and_congr_right fun _ => ih).trans and_assoc.symm

/-- A load of a general register from the `n` bytes at the stack pointer, or a write to a system
register. -/
def Instr.inFrame (n : Nat) : Instr → Bool
  | .ldp (.x _) (.x _) .sp offset => offset.toNat + 16 ≤ n
  | .ldr (.x _) .sp offset => offset.toNat + 8 ≤ n
  | .msr _ _ => true
  | _ => false

/-- Code of such instructions leaves the stack pointer. -/
theorem run_sp_of_inFrame {n : Nat} (h : ∀ i ∈ code, i.inFrame n) : (s.run code).sp = s.sp := by
  induction code generalizing s with
  | nil => rfl
  | cons i code ih =>
      obtain ⟨hi, hcode⟩ := List.forall_mem_cons.1 h
      refine (ih hcode).trans ?_
      cases i with
      | ldp a b base offset => cases a <;> cases b <;> first | rfl | simp [Instr.inFrame] at hi
      | ldr a base offset => cases a <;> first | rfl | simp [Instr.inFrame] at hi
      | msr r a => rfl
      | _ => simp [Instr.inFrame] at hi

/-- Code of such instructions looks at these bytes. -/
theorem sees_of_inFrame {n : Nat} (hn : n < 2 ^ 64) (h : ∀ i ∈ code, i.inFrame n) (hK : span s.sp n ⊆ K) :
    Sees R K s code := by
  have hword (k : Word) (hk : k.toNat + 8 ≤ n) : span (s.sp + k) 8 ⊆ K := by
    refine (span_subset ?_).trans hK
    bv_omega
  induction code generalizing s with
  | nil => trivial
  | cons i code ih =>
      obtain ⟨hi, hcode⟩ := List.forall_mem_cons.1 h
      cases i with
      | ldp a b base offset =>
          cases a <;> cases b <;> cases base <;> simp only [Instr.inFrame, Bool.false_eq_true] at hi
          have hle := of_decide_eq_true hi
          refine ⟨⟨hword _ (by omega), ?_⟩, ih hcode hK hword⟩
          rw [show s.get .sp + offset + 8 = s.sp + (offset + 8) from BitVec.add_assoc _ _ _]
          refine hword _ ?_
          bv_omega
      | ldr a base offset =>
          cases a <;> cases base <;> simp only [Instr.inFrame, Bool.false_eq_true] at hi
          exact ⟨hword _ (of_decide_eq_true hi), ih hcode hK hword⟩
      | msr r a => exact ⟨trivial, ih hcode hK hword⟩
      | _ => simp [Instr.inFrame] at hi

/-- A register that nothing writes. -/
theorem run_sys (h : ¬ Defines code r) : (s.run code).sys r = s.sys r := by
  induction code generalizing s with
  | nil => rfl
  | cons i code ih =>
      rw [defines_cons, not_or] at h
      refine (ih h.2).trans ?_
      have hset (s : State) (d : Reg) (v : Word) : (s.set d v).sys = s.sys := by cases d <;> rfl
      cases i with
      | msr r' a => exact Function.update_of_ne (fun heq => h.1 (congrArg some heq.symm)) _ _
      | _ => simp [State.exec, hset]

end

end Arm
