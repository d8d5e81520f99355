import RpiKernel.Interrupt.AsyncUart
import RpiKernel.Interrupt.Mask

/-!
# RpiKernel.Interrupt.UartWait

Who calls `uart_async_putc`, and with which interrupts.  Its loop waits for
`uart_w_irq_handler` to take a byte out of a full buffer, which cannot happen
while interrupts are masked.  `core_timer_handler` and `dev_framebuffer_write`
call `uart_puts` in a masked section: the loop is left as long as the buffer has
room for all that the section writes (`waitRun_never`), and never otherwise.
-/

namespace RpiKernel

open Runs

/-! ## the model -/

/-- What a thread does in the kernel: the two calls that mask interrupts, the loop of
`uart_async_putc` and the section behind it, and `uart_w_irq_handler` up to the
byte it sends, and behind it. -/
inductive PathOp where
  | disable
  | enable
  | putc (c : UInt8)
  | store (c : UInt8)
  | take
  | wrap
deriving DecidableEq, Repr

/-- `uart_puts` of the string that `vsprintf` made. -/
def uartPuts (str : List UInt8) : List UInt8 :=
  str.flatMap fun c => if c = 0x0a then [0x0d, 0x0a] else [c]

/-- The paths that write, those that mask interrupts, and the handler that makes
room: `core_timer_handler`, with the text when the callback of the first timer is
`uart_puts`; the system call `uartwrite`; `write` to the UART and to the frame
buffer. -/
inductive KernelPath where
  | coreTimerHandler (text : Option (List UInt8))
  | uartWIrqHandler
  | uartwrite (safeDemo : Bool) (buf : List UInt8)
  | devUartWrite (buf : List UInt8)
  | devFramebufferWrite (fPos len pitch height : Nat)
deriving DecidableEq, Repr

/-- The path is an interrupt's. -/
def KernelPath.IsInterrupt : KernelPath → Prop
  | .coreTimerHandler _ => True
  | .uartWIrqHandler => True
  | _ => False

instance (p : KernelPath) : Decidable p.IsInterrupt := by
  cases p <;> unfold KernelPath.IsInterrupt <;> infer_instance

/-- The complaint of `dev_framebuffer_write`. -/
def howCome : List UInt8 :=
  "How come? dev_framebuffer_write to no where!\r\n".toList.map fun c => c.toNat.toUInt8

/-- What the path does. -/
def KernelPath.ops : KernelPath → List PathOp
  | .coreTimerHandler text => .disable :: ((uartPuts (text.getD [])).map .putc ++ [.enable])
  | .uartWIrqHandler => [.take, .wrap]
  | .uartwrite safeDemo buf => if safeDemo then [.disable, .enable] else buf.map .putc
  | .devUartWrite buf => buf.map .putc
  | .devFramebufferWrite fPos len pitch height =>
      let text := if (len + fPos) % 2 ^ 64 > pitch * height % 2 ^ 32 then howCome else []
      .disable :: ((uartPuts text).map .putc ++ [.enable])

/-- The mask, the send buffer, and what each thread still has to do in the kernel. -/
structure UartWait where
  mask : IrqMask
  tx : RingBuffer UInt8
  currThread : Nat
  path : Nat → List PathOp

/-- A system call or an interrupt of the running thread; its next operation; or
`schedule` goes on with another thread. -/
inductive WaitStep where
  | start (p : KernelPath)
  | op
  | schedule (t : Nat)
deriving DecidableEq, Repr

/-- The section of `uart_async_putc`. -/
def putNext (c : UInt8) (r : RingBuffer UInt8) : RingBuffer UInt8 :=
  let r := writeNext c r
  { r with widx := wrapIdx r.widx }

namespace UartWait

/-- What the running thread still has to do. -/
def todo (s : UartWait) : List PathOp := s.path s.currThread

/-- The running thread goes on with `p`. -/
def goOn (s : UartWait) (mask : IrqMask) (tx : RingBuffer UInt8) (p : List PathOp) : UartWait :=
  { s with mask := mask, tx := tx, path := Function.update s.path s.currThread p }

/-- The next operation of the running thread. -/
def runOp (s : UartWait) : Option UartWait :=
  match s.todo with
  | [] => none
  | .disable :: p => some (s.goOn s.mask.disableInterrupt s.tx p)
  | .enable :: p => some (s.goOn s.mask.enableInterrupt s.tx p)
  | .putc c :: p => some (if bufferFull s.tx then s else s.goOn s.mask s.tx (.store c :: p))
  | .store c :: p => some (s.goOn s.mask.disableInterrupt.enableInterrupt (putNext c s.tx) p)
  | .take :: p =>
      some (s.goOn s.mask (if bufferEmpty s.tx then s.tx else { s.tx with ridx := s.tx.ridx + 1 }) p)
  | .wrap :: p => some (s.goOn s.mask { s.tx with ridx := wrapIdx s.tx.ridx } p)

def step (s : UartWait) : WaitStep → Option UartWait
  | .start p =>
      if s.mask.masked = false ∧ (p.IsInterrupt ∨ s.todo = []) then
        some (s.goOn s.mask s.tx (p.ops ++ s.todo))
      else none
  | .op => s.runOp
  | .schedule t => if s.mask.masked then none else some { s with currThread := t }

/-- Interrupts are enabled, and nothing was written yet. -/
def boot : UartWait := ⟨⟨0, false⟩, ⟨fun _ => 0, 0, 0⟩, 0, fun _ => []⟩

/-! ## what is asked of a run -/

/-- The running thread is in the loop of `uart_async_putc`, with interrupts masked. -/
structure WaitsMasked (s : UartWait) : Prop where
  waits : ∃ c p, s.todo = .putc c :: p
  full : bufferFull s.tx
  counted : 0 < s.mask.nestedInterruptCnt
  masked : s.mask.masked = true

/-- The operation is part of `uart_async_putc`. -/
def isPut : PathOp → Bool
  | .putc _ => true
  | .store _ => true
  | _ => false

/-- How many bytes are written before something else is done. -/
def putsAhead (p : List PathOp) : Nat := (p.takeWhile isPut).length

/-- The slots that are free. -/
def room (r : RingBuffer UInt8) : Nat := vsprintMaxBufSize - 1 - r.count vsprintMaxBufSize

/-- A masked section starts with room for all that it writes, or while
`uart_w_irq_handler` has not wrapped its index: the test for a full buffer fails
then. -/
def HasRoom (s : UartWait) : WaitStep → Prop
  | .op => ∀ p, s.todo = .disable :: p →
      putsAhead p ≤ room s.tx ∨ vsprintMaxBufSize ≤ s.tx.ridx
  | _ => True

/-! ## the invariant -/

/-- What a thread has to do that is not in a masked section: each section it
enters only writes. -/
inductive Outer : List PathOp → Prop
  | nil : Outer []
  | op {o : PathOp} {p : List PathOp} : o ≠ .disable → o ≠ .enable → Outer p → Outer (o :: p)
  | masked {p : List PathOp} (cs : List UInt8) : Outer p → Outer (.disable :: (cs.map .putc ++ .enable :: p))

/-- The thread runs with interrupts enabled, or it writes `os` in a masked
section; no other thread is in one. -/
inductive Running (s : UartWait) : Prop
  | outer : s.mask = ⟨0, false⟩ → (∀ t, Outer (s.path t)) → Running s
  | masked (os p : List PathOp) : s.mask = ⟨1, true⟩ → s.todo = os ++ .enable :: p →
      (∀ o ∈ os, isPut o = true) → Outer p → (∀ t ≠ s.currThread, Outer (s.path t)) → Running s

/-- A masked section has room for what it still writes. -/
structure Inv (s : UartWait) : Prop where
  running : Running s
  widx : s.tx.widx < vsprintMaxBufSize
  fits : s.mask.masked = true → putsAhead s.todo ≤ room s.tx ∨ vsprintMaxBufSize ≤ s.tx.ridx

variable {s s' : UartWait} {p os : List PathOp} {c : UInt8} {r : RingBuffer UInt8} {m : IrqMask}

/-! ## the paths -/

@[simp] theorem todo_goOn : (s.goOn m r p).todo = p := Function.update_self ..

theorem path_goOn {t : Nat} (ht : t ≠ s.currThread) : (s.goOn m r p).path t = s.path t :=
  Function.update_of_ne ht ..

theorem putsAhead_section (h : ∀ o ∈ os, isPut o = true) : putsAhead (os ++ .enable :: p) = os.length := by
  unfold putsAhead
  rw [List.takeWhile_append_of_pos h]
  simp [isPut]

theorem isPut_map (cs : List UInt8) : ∀ o ∈ cs.map PathOp.putc, isPut o = true := by simp [isPut]

theorem Outer.puts (h : Outer p) (cs : List UInt8) : Outer (cs.map .putc ++ p) := by
  induction cs with
  | nil => exact h
  | cons c cs ih => exact .op (by simp) (by simp) ih

/-- Each path of the kernel only writes in its masked sections. -/
theorem Outer.path (h : Outer p) (k : KernelPath) : Outer (k.ops ++ p) := by
  cases k with
  | coreTimerHandler text =>
      have hm := h.masked (uartPuts (text.getD []))
      simpa [KernelPath.ops] using hm
  | uartWIrqHandler => exact .op (by simp) (by simp) (.op (by simp) (by simp) h)
  | uartwrite safeDemo buf =>
      cases safeDemo with
      | true => exact h.masked []
      | false => exact h.puts buf
  | devUartWrite buf => exact h.puts buf
  | devFramebufferWrite fPos len pitch height =>
      have hm := h.masked (uartPuts
        (if (len + fPos) % 2 ^ 64 > pitch * height % 2 ^ 32 then howCome else []))
      simpa [KernelPath.ops] using hm

theorem Outer.tail {o : PathOp} (h : Outer (o :: p)) (hd : o ≠ .disable) : Outer p := by
  cases h with
  | op _ _ h => exact h
  | masked _ _ => exact absurd rfl hd

theorem Outer.not_enable (h : Outer (.enable :: p)) : False := by
  cases h with
  | op _ he _ => exact he rfl

/-! ## the buffer -/

theorem putNext_pushed (h : r.widx < vsprintMaxBufSize) :
    RingBuffer.Pushed vsprintMaxBufSize c r (putNext c r) :=
  AsyncUart.pushed_wrap (AsyncUart.writeNext_pushed h) h

theorem putNext_widx (h : r.widx < vsprintMaxBufSize) : (putNext c r).widx < vsprintMaxBufSize :=
  AsyncUart.wrapIdx_lt h

/-- With a slot free the loop is left. -/
theorem not_full (h : 0 < room r ∨ vsprintMaxBufSize ≤ r.ridx) : ¬ bufferFull r := by
  intro hf
  have hlt : (r.widx + 1) % vsprintMaxBufSize < vsprintMaxBufSize := Nat.mod_lt _ AsyncUart.size_pos
  have hidx : r.ridx < vsprintMaxBufSize := (show _ = r.ridx from hf) ▸ hlt
  have hfull : r.count vsprintMaxBufSize + 1 = vsprintMaxBufSize := by
    rw [RingBuffer.count_eq_full AsyncUart.size_pos, Nat.mod_eq_of_lt hidx]
    exact hf
  unfold room at h
  omega

/-- Without one it is not. -/
theorem full_of_room (h : room r = 0) (hidx : r.ridx < vsprintMaxBufSize) : bufferFull r := by
  have hlt := RingBuffer.count_lt AsyncUart.size_pos r
  have hfull : r.count vsprintMaxBufSize + 1 = vsprintMaxBufSize := by
    unfold room at h
    omega
  rw [RingBuffer.count_eq_full AsyncUart.size_pos, Nat.mod_eq_of_lt hidx] at hfull
  exact hfull

/-- Each byte takes a slot. -/
theorem room_putNext (h : r.widx < vsprintMaxBufSize) (hr : 0 < room r) : room (putNext c r) + 1 = room r := by
  have hp : RingBuffer.Pushed vsprintMaxBufSize c r (putNext c r) := putNext_pushed h
  unfold room at hr ⊢
  rw [hp.count (by omega)]
  omega

/-! ## steps -/

theorem Running.outer_of (h : Running s) (hm : s.mask.masked = false) :
    s.mask = ⟨0, false⟩ ∧ ∀ t, Outer (s.path t) := by
  cases h with
  | outer hmask hall => exact ⟨hmask, hall⟩
  | masked os p hmask => simp [hmask] at hm

theorem others_goOn (h : ∀ t ≠ s.currThread, Outer (s.path t)) :
    ∀ t ≠ (s.goOn m r p).currThread, Outer ((s.goOn m r p).path t) := by
  intro t (ht : t ≠ s.currThread)
  rw [path_goOn ht]
  exact h t ht

/-- With interrupts enabled the thread goes on with `p`. -/
theorem Inv.open (h : ∀ t ≠ s.currThread, Outer (s.path t)) (hm : m = ⟨0, false⟩) (hp : Outer p)
    (hw : r.widx < vsprintMaxBufSize) : Inv (s.goOn m r p) := by
  refine ⟨.outer hm fun t => ?_, hw, fun ht => ?_⟩
  · by_cases ht : t = s.currThread
    · have hpath : (s.goOn m r p).path t = p := ht ▸ todo_goOn
      rw [hpath]
      exact hp
    · rw [path_goOn ht]
      exact h t ht
  · have hmask : m.masked = true := ht
    simp [hm] at hmask

/-- In a masked section it goes on with `os`. -/
theorem Inv.close (h : ∀ t ≠ s.currThread, Outer (s.path t)) (hm : m = ⟨1, true⟩)
    (hos : ∀ o ∈ os, isPut o = true) (hp : Outer p) (hw : r.widx < vsprintMaxBufSize)
    (hfits : os.length ≤ room r ∨ vsprintMaxBufSize ≤ r.ridx) :
    Inv (s.goOn m r (os ++ .enable :: p)) := by
  refine ⟨.masked os p hm todo_goOn hos hp (others_goOn h), hw, fun _ => ?_⟩
  rw [todo_goOn, putsAhead_section hos]
  exact hfits

theorem Inv.start (h : Inv s) {k : KernelPath} (hs : step s (.start k) = some s') : Inv s' := by
  by_cases hen : s.mask.masked = false ∧ (k.IsInterrupt ∨ s.todo = [])
  · simp only [step, if_pos hen, Option.some.injEq] at hs
    subst hs
    obtain ⟨hmask, hall⟩ := h.running.outer_of hen.1
    exact .open (fun t _ => hall t) hmask ((hall _).path k) h.widx
  · simp [step, if_neg hen] at hs

theorem Inv.schedule (h : Inv s) {t : Nat} (hs : step s (.schedule t) = some s') : Inv s' := by
  by_cases hm : s.mask.masked = true
  · simp [step, hm] at hs
  · have hf : s.mask.masked = false := by simpa using hm
    simp only [step, hf, Bool.false_eq_true, if_false, Option.some.injEq] at hs
    subst hs
    obtain ⟨hmask, hall⟩ := h.running.outer_of hf
    exact ⟨.outer hmask hall, h.widx, fun ht => absurd ht hm⟩

/-- An operation outside of masked sections. -/
theorem Inv.outerOp (h : Inv s) (hroom : HasRoom s .op) (hmask : s.mask = ⟨0, false⟩)
    (hall : ∀ t, Outer (s.path t)) (hs : s.runOp = some s') : Inv s' := by
  have hout : Outer s.todo := hall s.currThread
  have hothers : ∀ t ≠ s.currThread, Outer (s.path t) := fun t _ => hall t
  cases htodo : s.todo with
  | nil => simp [runOp, htodo] at hs
  | cons o p =>
      rw [htodo] at hout
      cases o with
      | disable =>
          simp only [runOp, htodo, Option.some.injEq] at hs
          subst hs
          have hfits := hroom p htodo
          cases hout with
          | op hd _ _ => exact absurd rfl hd
          | masked cs hrest =>
              rw [putsAhead_section (isPut_map cs)] at hfits
              exact .close hothers (by rw [hmask]; decide) (isPut_map cs) hrest h.widx hfits
      | enable => exact hout.not_enable.elim
      | putc c =>
          simp only [runOp, htodo, Option.some.injEq] at hs
          subst hs
          by_cases hf : bufferFull s.tx
          · rwa [if_pos hf]
          · rw [if_neg hf]
            exact .open hothers hmask (.op (by simp) (by simp) (hout.tail (by simp))) h.widx
      | store c =>
          simp only [runOp, htodo, Option.some.injEq] at hs
          subst hs
          exact .open hothers (by rw [hmask]; decide) (hout.tail (by simp)) (putNext_widx h.widx)
      | take =>
          simp only [runOp, htodo, Option.some.injEq] at hs
          subst hs
          refine .open hothers hmask (hout.tail (by simp)) ?_
          by_cases he : bufferEmpty s.tx
          · simpa [if_pos he] using h.widx
          · simpa [if_neg he] using h.widx
      | wrap =>
          simp only [runOp, htodo, Option.some.injEq] at hs
          subst hs
          exact .open hothers hmask (hout.tail (by simp)) h.widx

/-- An operation in a masked section: a byte is written, or the section ends. -/
theorem Inv.maskedOp (h : Inv s) (hmask : s.mask = ⟨1, true⟩) (htodo : s.todo = os ++ .enable :: p)
    (hos : ∀ o ∈ os, isPut o = true) (hp : Outer p) (hothers : ∀ t ≠ s.currThread, Outer (s.path t))
    (hs : s.runOp = some s') : Inv s' := by
  have hfits := h.fits (by rw [hmask])
  rw [htodo, putsAhead_section hos] at hfits
  cases os with
  | nil =>
      simp only [runOp, htodo, List.nil_append, Option.some.injEq] at hs
      subst hs
      exact .open hothers (by rw [hmask]; decide) hp h.widx
  | cons o os =>
      have hos' : ∀ o ∈ os, isPut o = true := fun o' ho' => hos o' (List.mem_cons_of_mem o ho')
      simp only [List.length_cons] at hfits
      cases o with
      | putc c =>
          have hnot : ¬ bufferFull s.tx := not_full (hfits.imp_left fun hle => by omega)
          simp only [runOp, htodo, List.cons_append, if_neg hnot, Option.some.injEq] at hs
          subst hs
          have hwrites : ∀ o ∈ PathOp.store c :: os, isPut o = true := List.forall_mem_cons.2 ⟨rfl, hos'⟩
          exact .close hothers hmask hwrites hp h.widx hfits
      | store c =>
          simp only [runOp, htodo, List.cons_append, Option.some.injEq] at hs
          subst hs
          refine .close hothers (by rw [hmask]; decide) hos' hp (putNext_widx h.widx) ?_
          refine hfits.imp_left fun hle => ?_
          have hroom : room (putNext c s.tx) + 1 = room s.tx := room_putNext h.widx (by omega)
          omega
      | _ => exact absurd (hos _ List.mem_cons_self) (by simp [isPut])

theorem Inv.step (h : Inv s) {a : WaitStep} (hroom : HasRoom s a) (hs : UartWait.step s a = some s') :
    Inv s' := by
  cases a with
  | start k => exact h.start hs
  | schedule t => exact h.schedule hs
  | op =>
      have hop : s.runOp = some s' := hs
      cases h.running with
      | outer hmask hall => exact h.outerOp hroom hmask hall hop
      | masked os p hmask htodo hos hp hothers => exact h.maskedOp hmask htodo hos hp hothers hop

theorem Inv.not_waits (h : Inv s) : ¬ WaitsMasked s := by
  intro hw
  obtain ⟨c, p, htodo⟩ := hw.waits
  have hahead : 0 < putsAhead s.todo := by
    rw [htodo, putsAhead, List.takeWhile_cons_of_pos rfl]
    exact Nat.succ_pos _
  exact not_full ((h.fits hw.masked).imp_left fun hle => by omega) hw.full

theorem boot_inv : Inv boot :=
  ⟨.outer rfl fun _ => .nil, AsyncUart.size_pos, fun h => by simp [boot] at h⟩

/-! ## without room -/

/-- Two operations for each byte that there is room for. -/
theorem run_puts {cs : List UInt8} (hm : s.mask.disableInterrupt.enableInterrupt = s.mask)
    (hw : s.tx.widx < vsprintMaxBufSize) (htodo : s.todo = cs.map .putc ++ p) (hroom : cs.length ≤ room s.tx) :
    ∃ s', run UartWait.step s (List.replicate (2 * cs.length) .op) = some s' ∧ s'.todo = p ∧ s'.mask = s.mask ∧
      s'.tx.widx < vsprintMaxBufSize ∧ s'.tx.ridx = s.tx.ridx ∧ room s'.tx + cs.length = room s.tx := by
  induction cs generalizing s with
  | nil => exact ⟨s, rfl, by simpa using htodo, rfl, hw, rfl, rfl⟩
  | cons c cs ih =>
      simp only [List.length_cons] at hroom
      have hnot : ¬ bufferFull s.tx := not_full (Or.inl (by omega))
      let s₁ := s.goOn s.mask s.tx (.store c :: (cs.map .putc ++ p))
      let s₂ := s₁.goOn s.mask.disableInterrupt.enableInterrupt (putNext c s.tx) (cs.map .putc ++ p)
      have h₁ : UartWait.step s .op = some s₁ := by
        simp only [UartWait.step, runOp, htodo, List.map_cons, List.cons_append, if_neg hnot]
        rfl
      have h₂ : UartWait.step s₁ .op = some s₂ := by
        have ht₁ : s₁.todo = .store c :: (cs.map .putc ++ p) := todo_goOn
        simp only [UartWait.step, runOp, ht₁]
        rfl
      have hroom₂ : room s₂.tx + 1 = room s.tx := room_putNext hw (by omega)
      have hmask₂ : s₂.mask = s.mask := hm
      have hm₂ : s₂.mask.disableInterrupt.enableInterrupt = s₂.mask := by
        rw [hmask₂]
        exact hm
      obtain ⟨s', hrun, ht', hm', hw', hr', hroom'⟩ := ih hm₂ (putNext_widx hw) todo_goOn (by omega)
      refine ⟨s', ?_, ht', hm'.trans hm, hw', hr', ?_⟩
      · have hlen : 2 * (c :: cs).length = 2 * cs.length + 1 + 1 := by
          simp only [List.length_cons]
          omega
        rw [hlen, List.replicate_succ, List.replicate_succ, run_cons _ h₁, run_cons _ h₂]
        exact hrun
      · simp only [List.length_cons]
        omega

/-- A masked section without room gets stuck in the loop. -/
theorem waits_of_puts {cs : List UInt8} (hmask : s.mask = ⟨1, true⟩) (hw : s.tx.widx < vsprintMaxBufSize)
    (htodo : s.todo = cs.map .putc ++ p) (hroom : room s.tx < cs.length)
    (hidx : s.tx.ridx < vsprintMaxBufSize) :
    ∃ n s', run UartWait.step s (List.replicate n .op) = some s' ∧ WaitsMasked s' := by
  have hsplit : s.todo = (cs.take (room s.tx)).map .putc ++ ((cs.drop (room s.tx)).map .putc ++ p) := by
    rw [htodo, ← List.append_assoc, ← List.map_append, List.take_append_drop]
  have hlen : (cs.take (room s.tx)).length = room s.tx := by
    rw [List.length_take]
    omega
  obtain ⟨s', hrun, ht', hm', -, hr', hroom'⟩ := run_puts (by rw [hmask]; decide) hw hsplit (by omega)
  refine ⟨_, s', hrun, ?_, full_of_room (by omega) (hr' ▸ hidx), by rw [hm', hmask]; decide,
    by rw [hm', hmask]⟩
  cases hdrop : cs.drop (room s.tx) with
  | nil =>
      have hzero := congrArg List.length hdrop
      rw [List.length_drop, List.length_nil] at hzero
      omega
  | cons c cs' => exact ⟨c, cs'.map .putc ++ p, by rw [ht', hdrop]; rfl⟩

/-- Nothing gets it out. -/
theorem WaitsMasked.stuck (h : WaitsMasked s) {a : WaitStep} (hs : UartWait.step s a = some s') : s' = s := by
  obtain ⟨c, p, htodo⟩ := h.waits
  have hm := h.masked
  cases a with
  | start k => simp [UartWait.step, hm] at hs
  | schedule t => simp [UartWait.step, hm] at hs
  | op =>
      simp only [UartWait.step, runOp, htodo, if_pos h.full, Option.some.injEq] at hs
      exact hs.symm

/-- A section that starts without room gets stuck. -/
theorem Inv.gets_stuck (h : Inv s) {a : WaitStep} (hroom : ¬ HasRoom s a) (hs : UartWait.step s a = some s') :
    ∃ n s'', run UartWait.step s' (List.replicate n .op) = some s'' ∧ WaitsMasked s'' := by
  cases a with
  | start k => exact absurd trivial hroom
  | schedule t => exact absurd trivial hroom
  | op =>
      simp only [HasRoom, Classical.not_forall] at hroom
      obtain ⟨p, htodo, hno⟩ := hroom
      have hstep : some (s.goOn s.mask.disableInterrupt s.tx p) = some s' := by
        rw [← hs]
        simp only [UartWait.step, runOp, htodo]
      obtain rfl := Option.some.inj hstep
      rw [not_or, Nat.not_le, Nat.not_le] at hno
      cases h.running with
      | masked os q hmask htodo' hos =>
          rw [htodo'] at htodo
          cases os with
          | nil => simp at htodo
          | cons o os =>
              have ho := hos o List.mem_cons_self
              simp only [List.cons_append, List.cons.injEq] at htodo
              simp [htodo.1, isPut] at ho
      | outer hmask hall =>
          have hout : Outer (.disable :: p) := htodo ▸ hall s.currThread
          cases hout with
          | op hd _ _ => exact absurd rfl hd
          | masked cs hrest =>
              rw [putsAhead_section (isPut_map cs), List.length_map] at hno
              exact waits_of_puts (by show s.mask.disableInterrupt = _; rw [hmask]; decide) h.widx todo_goOn hno.1
                hno.2

/-- **Waiting for the UART.**  In every run in which each masked section starts with
room for the bytes it writes, no thread is ever in the loop of `uart_async_putc` with
interrupts masked; and a section that starts without room gets there, for good. -/
theorem waitRun_never (s : UartWait) (hr : Reach step HasRoom boot s) :
    ¬ WaitsMasked s ∧ ∀ a s₁, step s a = some s₁ → ¬ HasRoom s a →
      ∃ n s₂, run step s₁ (List.replicate n .op) = some s₂ ∧ WaitsMasked s₂ ∧
        ∀ b s₃, step s₂ b = some s₃ → s₃ = s₂ := by
  have h : Inv s := hr.inv boot_inv fun s a s' hi hg hs => hi.step hg hs
  refine ⟨h.not_waits, fun a s₁ hs hno => ?_⟩
  obtain ⟨n, s₂, hrun, hw⟩ := h.gets_stuck hno hs
  exact ⟨n, s₂, hrun, hw, fun b s₃ hb => hw.stuck hb⟩

/-- A timer whose callback is `uart_puts` of one line, up to its masked section. -/
theorem waitRun_never_timer :
    ∃ s, run step boot [.start (.coreTimerHandler (some [0x61, 0x0a])), .op] = some s ∧
      ¬ WaitsMasked s ∧ ∀ a s₁, step s a = some s₁ → ¬ HasRoom s a →
        ∃ n s₂, run step s₁ (List.replicate n .op) = some s₂ ∧ WaitsMasked s₂ ∧
          ∀ b s₃, step s₂ b = some s₃ → s₃ = s₂ := by
  let path : KernelPath := .coreTimerHandler (some [0x61, 0x0a])
  let s₁ := boot.goOn boot.mask boot.tx (path.ops ++ boot.todo)
  have h₁ : step boot (.start path) = some s₁ := rfl
  have hroom : HasRoom s₁ .op := fun p hp => by
    have hp' : PathOp.disable :: ([0x61, 0x0d, 0x0a].map .putc ++ [.enable]) = .disable :: p := hp
    obtain rfl := (List.cons.inj hp').2
    exact Or.inl (by decide)
  obtain ⟨s, h₂⟩ : ∃ s, step s₁ .op = some s := ⟨_, rfl⟩
  have hr : Reach step HasRoom boot s := .step .op (.step (.start path) .init trivial h₁) hroom h₂
  exact ⟨s, (run_cons _ h₁).trans (run_cons _ h₂), waitRun_never s hr⟩

theorem howCome_cons : ∃ cs, uartPuts howCome = 0x48 :: cs := by
  have h : ∃ cs, howCome = 0x48 :: cs := by
    unfold howCome
    simp
  obtain ⟨cs, hcs⟩ := h
  exact ⟨uartPuts cs, by rw [hcs]; rfl⟩

/-- A write behind the end of the frame buffer, while the buffer is full. -/
theorem framebuffer_waits (fPos len pitch height : Nat) (hmask : s.mask = ⟨0, false⟩) (htodo : s.todo = [])
    (hend : (len + fPos) % 2 ^ 64 > pitch * height % 2 ^ 32) (hroom : room s.tx = 0)
    (hidx : s.tx.ridx < vsprintMaxBufSize) :
    ∃ s', run UartWait.step s [.start (.devFramebufferWrite fPos len pitch height), .op] = some s' ∧
      WaitsMasked s' := by
  obtain ⟨cs, hcs⟩ := howCome_cons
  let p := PathOp.putc 0x48 :: (cs.map .putc ++ [.enable])
  let s₁ := s.goOn s.mask s.tx (.disable :: p)
  have h₁ : UartWait.step s (.start (.devFramebufferWrite fPos len pitch height)) = some s₁ := by
    have hops : (KernelPath.devFramebufferWrite fPos len pitch height).ops = .disable :: p := by
      simp only [KernelPath.ops, if_pos hend, hcs, List.map_cons, List.cons_append, p]
    simp only [UartWait.step, hmask, htodo, hops, List.append_nil, or_true, and_self, if_true, s₁]
  have ht₁ : s₁.todo = .disable :: p := todo_goOn
  let s₂ := s₁.goOn s₁.mask.disableInterrupt s₁.tx p
  have h₂ : UartWait.step s₁ .op = some s₂ := by
    simp only [UartWait.step, runOp, ht₁, s₂]
  have hmask₂ : s₂.mask = ⟨1, true⟩ := by
    show s.mask.disableInterrupt = _
    rw [hmask]
    decide
  refine ⟨s₂, ?_, ⟨0x48, _, todo_goOn⟩, full_of_room hroom hidx, by rw [hmask₂]; decide, by rw [hmask₂]⟩
  rw [run_cons _ h₁, run_cons _ h₂]
  rfl

/-- A program fills the buffer, and then writes behind the end of the frame
buffer. -/
theorem write_framebuffer_waits : ∃ s, run step boot
    (.start (.devUartWrite (List.replicate 255 0x61)) :: (List.replicate (2 * 255) .op ++
      [.start (.devFramebufferWrite (4096 * 768) 4 4096 768), .op])) = some s ∧ WaitsMasked s := by
  let s₁ := boot.goOn boot.mask boot.tx ((List.replicate 255 0x61).map .putc ++ [])
  have h₁ : step boot (.start (.devUartWrite (List.replicate 255 0x61))) = some s₁ := by
    simp only [step, KernelPath.ops, s₁]
    rfl
  have htodo₁ : s₁.todo = (List.replicate 255 0x61).map .putc ++ [] := todo_goOn
  have hempty : room s₁.tx = 255 := by decide
  have hlen : (List.replicate 255 (0x61 : UInt8)).length = 255 := List.length_replicate
  obtain ⟨s₂, h₂, htodo, hmask, -, hidx, hroom⟩ := run_puts (by decide) AsyncUart.size_pos htodo₁
    (by rw [hlen, hempty])
  rw [hlen] at h₂ hroom
  have hidx₂ : s₂.tx.ridx < vsprintMaxBufSize := by
    rw [hidx]
    exact AsyncUart.size_pos
  obtain ⟨s, hrun, hw⟩ := framebuffer_waits (4096 * 768) 4 4096 768 hmask htodo (by omega) (by omega) hidx₂
  exact ⟨s, (run_cons _ h₁).trans ((run_append _ _ h₂).trans hrun), hw⟩

end UartWait

end RpiKernel
