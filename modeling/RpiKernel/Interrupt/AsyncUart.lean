import RpiKernel.Lib.Merge
import RpiKernel.Lib.RingBuffer
import RpiKernel.Lib.Runs

/-!
# RpiKernel.Interrupt.AsyncUart

`uart_async_putc` and `uart_async_getc` of any number of threads, and the two
handlers that move bytes between the buffers and the hardware.  The handlers are
tasks of one priority, so each runs to its end before it starts again, but the
threads go on in between, and C leaves it open in which order a handler stores its
index and moves its byte.  The test for a full or an empty buffer stands before
the section that moves the index; `uartRun_conserves` says that no byte is lost
as long as there is still a slot or a byte there, one that the handler is done with.
-/

namespace RpiKernel

open Runs

/-- `VSPRINT_MAX_BUF_SIZE`. -/
def vsprintMaxBufSize : Nat := 0x100

/-! ## the model -/

/-- Where a thread is: outside, at the loop that waits, or behind it. -/
inductive UartThread where
  | outside
  | putWaits (c : UInt8)
  | puts (c : UInt8)
  | getWaits
  | gets
deriving DecidableEq, Repr

/-- Where `uart_w_irq_handler` is: before its test, behind it, with a byte to send,
or before the index is wrapped.  In between it stores the index and then loads the byte
(`load`), or it does so the other way round (`advance`). -/
inductive WriteIrq where
  | start
  | take
  | load
  | advance (c : UInt8)
  | send (c : UInt8)
  | wrap
deriving Repr

/-- Where `uart_r_irq_handler` is.  `ahead` tells that the index was stored before the
byte; in `advance` it is the other way round. -/
inductive ReadIrq where
  | start
  | recv (ahead : Bool)
  | store (ahead : Bool) (c : UInt8)
  | advance
  | wrap
deriving Repr

/-- The buffers, and where the threads and the handlers are.  `put` and `got` are
the bytes of each thread's calls that returned, `sent` and `received` those the
handlers moved, and `io` all that was written to `AUX_MU_IO_REG`. -/
structure AsyncUart where
  tx : RingBuffer UInt8
  rx : RingBuffer UInt8
  thread : Nat → UartThread
  writeIrq : WriteIrq
  readIrq : ReadIrq
  uartRecvEchoFlag : Bool
  put : Nat → List UInt8
  got : Nat → List UInt8
  sent : List UInt8
  received : List UInt8
  io : List UInt8

/-- A thread calls `uart_async_putc` or `uart_async_getc`; it makes the test of the
loop; it runs the masked section; or a handler goes on, with `b` in the receive
register.  Where the handler may store its index now or later, `ahead` says that it
does. -/
inductive UartStep where
  | putc (t : Nat) (c : UInt8)
  | getc (t : Nat)
  | test (t : Nat)
  | masked (t : Nat)
  | writeIrq (ahead : Bool)
  | readIrq (b : UInt8) (ahead : Bool)
deriving DecidableEq, Repr

/-- `if (idx >= VSPRINT_MAX_BUF_SIZE) idx = 0`. -/
def wrapIdx (idx : Nat) : Nat := if idx ≥ vsprintMaxBufSize then 0 else idx

/-- The test for a full buffer. -/
def bufferFull (r : RingBuffer UInt8) : Prop := (r.widx + 1) % vsprintMaxBufSize = r.ridx

/-- The test for an empty one. -/
def bufferEmpty (r : RingBuffer UInt8) : Prop := r.ridx = r.widx

instance (r : RingBuffer UInt8) : Decidable (bufferFull r) := inferInstanceAs (Decidable (_ = _))

instance (r : RingBuffer UInt8) : Decidable (bufferEmpty r) := inferInstanceAs (Decidable (_ = _))

/-- `buf[widx++] = c`. -/
def writeNext (c : UInt8) (r : RingBuffer UInt8) : RingBuffer UInt8 :=
  { r with buf := Function.update r.buf r.widx c, widx := r.widx + 1 }

/-- What `uart_recv` writes to the hardware when it has read `b`. -/
def uartRecvEcho (flag : Bool) (b : UInt8) : List UInt8 :=
  if flag then b :: if b = 0x0d then [0x0d, 0x0a] else [] else []

/-- What `uart_recv` returns. -/
def uartRecv (b : UInt8) : UInt8 := if b = 0x0d then 0x0a else b

/-- The read index, one further when the byte is loaded and the index is not stored. -/
def WriteIrq.unsentIdx (ridx : Nat) : WriteIrq → Nat
  | .advance _ => ridx + 1
  | _ => ridx

/-- The write index behind the bytes that are stored: the slot that the index is ahead of
its byte does not count, and the byte that is ahead of the index does. -/
def ReadIrq.storedIdx (widx : Nat) : ReadIrq → Nat
  | .recv stored | .store stored _ => bif stored then widx - 1 else widx
  | .advance => widx + 1
  | .start | .wrap => widx

/-- `uart_r_irq_handler` has a slot to fill. -/
def ReadIrq.Fills : ReadIrq → Prop
  | .recv _ | .store _ _ => True
  | _ => False

/-- `uart_r_irq_handler` has stored the index before the byte. -/
def ReadIrq.Ahead : ReadIrq → Prop
  | .recv true | .store true _ => True
  | _ => False

namespace AsyncUart

def setThread (s : AsyncUart) (t : Nat) (at' : UartThread) : AsyncUart :=
  { s with thread := Function.update s.thread t at' }

/-- The masked section of `uart_async_putc`. -/
def putSection (t : Nat) (c : UInt8) (s : AsyncUart) : AsyncUart :=
  let tx := writeNext c s.tx
  { s.setThread t .outside with
    tx := { tx with widx := wrapIdx tx.widx }
    put := Function.update s.put t (s.put t ++ [c]) }

/-- The masked section of `uart_async_getc`. -/
def getSection (t : Nat) (s : AsyncUart) : AsyncUart :=
  let r := s.rx.buf s.rx.ridx
  { s.setThread t .outside with
    rx := { s.rx with ridx := wrapIdx (s.rx.ridx + 1) }
    got := Function.update s.got t (s.got t ++ [r]) }

/-- `uart_w_irq_handler`, step by step. -/
def uartWIrqHandler (ahead : Bool) (s : AsyncUart) : AsyncUart :=
  match s.writeIrq with
  | .start => if bufferEmpty s.tx then s else { s with writeIrq := .take }
  | .take =>
      if ahead then { s with writeIrq := .load, tx := { s.tx with ridx := s.tx.ridx + 1 } }
      else { s with writeIrq := .advance (s.tx.buf s.tx.ridx) }
  | .load => { s with writeIrq := .send (s.tx.buf (s.tx.ridx - 1)) }
  | .advance c => { s with writeIrq := .send c, tx := { s.tx with ridx := s.tx.ridx + 1 } }
  | .send c => { s with writeIrq := .wrap, sent := s.sent ++ [c], io := s.io ++ [c] }
  | .wrap => { s with writeIrq := .start, tx := { s.tx with ridx := wrapIdx s.tx.ridx } }

/-- `uart_r_irq_handler`, step by step; `kernel8.img` stores the index first. -/
def uartRIrqHandler (b : UInt8) (ahead : Bool) (s : AsyncUart) : AsyncUart :=
  match s.readIrq with
  | .start => if bufferFull s.rx then s else { s with readIrq := .recv false }
  | .recv stored =>
      if ahead ∧ ¬ stored then
        { s with readIrq := .recv true, rx := { s.rx with widx := s.rx.widx + 1 } }
      else
        { s with
          readIrq := .store stored (uartRecv b)
          received := s.received ++ [uartRecv b]
          io := s.io ++ uartRecvEcho s.uartRecvEchoFlag b }
  | .store true c =>
      { s with readIrq := .wrap, rx := { s.rx with buf := Function.update s.rx.buf (s.rx.widx - 1) c } }
  | .store false c =>
      if ahead then { s with readIrq := .store true c, rx := { s.rx with widx := s.rx.widx + 1 } }
      else { s with readIrq := .advance, rx := { s.rx with buf := Function.update s.rx.buf s.rx.widx c } }
  | .advance => { s with readIrq := .wrap, rx := { s.rx with widx := s.rx.widx + 1 } }
  | .wrap => { s with readIrq := .start, rx := { s.rx with widx := wrapIdx s.rx.widx } }

def step (s : AsyncUart) : UartStep → Option AsyncUart
  | .putc t c => if s.thread t = .outside then some (s.setThread t (.putWaits c)) else none
  | .getc t => if s.thread t = .outside then some (s.setThread t .getWaits) else none
  | .test t =>
      match s.thread t with
      | .putWaits c => some (if bufferFull s.tx then s else s.setThread t (.puts c))
      | .getWaits => some (if bufferEmpty s.rx then s else s.setThread t .gets)
      | _ => none
  | .masked t =>
      match s.thread t with
      | .puts c => some (s.putSection t c)
      | .gets => some (s.getSection t)
      | _ => none
  | .writeIrq ahead => some (s.uartWIrqHandler ahead)
  | .readIrq b ahead => some (s.uartRIrqHandler b ahead)

/-- The static variables, before a thread or a handler has run. -/
def boot (uartRecvEchoFlag : Bool) : AsyncUart :=
  ⟨⟨fun _ => 0, 0, 0⟩, ⟨fun _ => 0, 0, 0⟩, fun _ => .outside, .start, .start, uartRecvEchoFlag,
    fun _ => [], fun _ => [], [], [], []⟩

/-! ## what is asked of a run -/

/-- The byte that `uart_w_irq_handler` sends next: between the index and the load it is
still in its slot. -/
def sending (s : AsyncUart) : List UInt8 :=
  match s.writeIrq with
  | .load => [s.tx.buf (s.tx.ridx - 1)]
  | .advance c => [c]
  | .send c => [c]
  | _ => []

/-- The byte that `uart_r_irq_handler` has received. -/
def storing (s : AsyncUart) : List UInt8 :=
  match s.readIrq with
  | .store _ c => [c]
  | _ => []

/-- The transmit buffer without that byte. -/
def unsent (s : AsyncUart) : RingBuffer UInt8 :=
  { s.tx with ridx := s.writeIrq.unsentIdx s.tx.ridx }

/-- The receive buffer with the bytes that are stored. -/
def stored (s : AsyncUart) : RingBuffer UInt8 :=
  { s.rx with widx := s.readIrq.storedIdx s.rx.widx }

/-- The bytes that were sent, with those that still wait, are a merge of what the
threads put; what the threads got, with what still waits, is what was received;
and nothing else is written to the hardware when there is no echo. -/
structure Conserves (s : AsyncUart) : Prop where
  puts : Merges s.put (s.sent ++ s.sending ++ s.unsent.contents vsprintMaxBufSize)
  gets : ∃ xs, Merges s.got xs ∧ s.received = xs ++ s.stored.contents vsprintMaxBufSize ++ s.storing
  quiet : s.uartRecvEchoFlag = false → s.io = s.sent

/-- Behind its test there is still a slot free, or a byte to get, among those that the
handlers are done with. -/
def SectionHolds (s : AsyncUart) : UartThread → Prop
  | .puts _ => (s.unsent.widx + 1) % vsprintMaxBufSize ≠ s.unsent.ridx % vsprintMaxBufSize
  | .gets => s.stored.ridx % vsprintMaxBufSize ≠ s.stored.widx % vsprintMaxBufSize
  | .outside | .putWaits _ | .getWaits => True

/-- When a thread enters the section its test still holds. -/
def TestHolds (s : AsyncUart) : UartStep → Prop
  | .masked t => s.SectionHolds (s.thread t)
  | .putc _ _ | .getc _ | .test _ | .writeIrq _ | .readIrq _ _ => True

instance (s : AsyncUart) : (c : UartThread) → Decidable (s.SectionHolds c)
  | .puts _ => inferInstanceAs (Decidable (_ ≠ _))
  | .gets => inferInstanceAs (Decidable (_ ≠ _))
  | .outside | .putWaits _ | .getWaits => inferInstanceAs (Decidable True)

instance (s : AsyncUart) : (a : UartStep) → Decidable (TestHolds s a)
  | .masked t => inferInstanceAs (Decidable (s.SectionHolds (s.thread t)))
  | .putc _ _ | .getc _ | .test _ | .writeIrq _ | .readIrq _ _ => inferInstanceAs (Decidable True)

/-! ## the invariant -/

/-- The indices are wrapped but inside a handler, and behind its test there is a
byte to send, or a slot free. -/
structure Inv (s : AsyncUart) : Prop extends Conserves s where
  txWidx : s.tx.widx < vsprintMaxBufSize
  txRidx : s.unsent.ridx < vsprintMaxBufSize ∨
    s.unsent.ridx = vsprintMaxBufSize ∧ s.writeIrq ≠ .start ∧ s.writeIrq ≠ .take
  txAhead : s.writeIrq = .load → s.tx.ridx ≠ 0
  rxRidx : s.rx.ridx < vsprintMaxBufSize
  rxWidx : s.stored.widx < vsprintMaxBufSize ∨
    s.stored.widx = vsprintMaxBufSize ∧ s.readIrq ≠ .start ∧ ¬ s.readIrq.Fills
  rxAhead : s.readIrq.Ahead → s.rx.widx ≠ 0
  take : s.writeIrq = .take → s.unsent.count vsprintMaxBufSize ≠ 0
  recv : s.readIrq.Fills → s.stored.count vsprintMaxBufSize + 1 < vsprintMaxBufSize

variable {s s' : AsyncUart} {t : Nat} {c b : UInt8} {r r' : RingBuffer UInt8} {idx : Nat}

theorem size_pos : 0 < vsprintMaxBufSize := by decide

/-! ## the indices -/

theorem wrapIdx_lt (h : idx ≤ vsprintMaxBufSize) : wrapIdx idx < vsprintMaxBufSize := by
  unfold wrapIdx
  have := size_pos
  grind

theorem wrapIdx_modEq (h : idx ≤ vsprintMaxBufSize) : wrapIdx idx ≡ idx [MOD vsprintMaxBufSize] := by
  unfold wrapIdx
  by_cases hi : idx ≥ vsprintMaxBufSize
  · obtain rfl : idx = vsprintMaxBufSize := Nat.le_antisymm h hi
    simp [Nat.ModEq]
  · rw [if_neg hi]

theorem writeNext_pushed (h : r.widx < vsprintMaxBufSize) :
    RingBuffer.Pushed vsprintMaxBufSize c r (writeNext c r) := by
  refine ⟨?_, rfl, rfl⟩
  rw [Nat.mod_eq_of_lt h]
  rfl

theorem pushed_wrap (h : RingBuffer.Pushed vsprintMaxBufSize c r r') (hw : r'.widx ≤ vsprintMaxBufSize) :
    RingBuffer.Pushed vsprintMaxBufSize c r { r' with widx := wrapIdx r'.widx } :=
  ⟨h.buf, (wrapIdx_modEq hw).trans h.widx, h.ridx⟩

/-- Without a slot free the test for a full buffer would stop the thread. -/
theorem count_free : r.count vsprintMaxBufSize + 1 < vsprintMaxBufSize ↔
    (r.widx + 1) % vsprintMaxBufSize ≠ r.ridx % vsprintMaxBufSize := by
  have hlt := RingBuffer.count_lt size_pos r
  rw [Ne, ← RingBuffer.count_eq_full size_pos]
  omega

theorem count_pos : r.count vsprintMaxBufSize ≠ 0 ↔
    r.ridx % vsprintMaxBufSize ≠ r.widx % vsprintMaxBufSize :=
  not_congr (RingBuffer.count_eq_zero size_pos)

/-! ## the threads -/

theorem Inv.setThread (h : Inv s) (t : Nat) (at' : UartThread) : Inv (s.setThread t at') :=
  ⟨⟨h.puts, h.gets, h.quiet⟩, h.txWidx, h.txRidx, h.txAhead, h.rxRidx, h.rxWidx, h.rxAhead, h.take, h.recv⟩

/-- The section of `uart_async_putc`. -/
theorem putSection_pushed (h : Inv s) :
    RingBuffer.Pushed vsprintMaxBufSize c s.unsent (s.putSection t c).unsent :=
  pushed_wrap (r := s.unsent) (writeNext_pushed h.txWidx) h.txWidx

/-- With a slot free, the byte that is sent next is not overwritten. -/
theorem putSection_sending (h : Inv s) (hc : s.unsent.count vsprintMaxBufSize + 1 < vsprintMaxBufSize) :
    (s.putSection t c).sending = s.sending := by
  cases hw : s.writeIrq with
  | load =>
      have hpos : s.tx.ridx ≠ 0 := h.txAhead hw
      have hfree : (s.tx.widx + 1) % vsprintMaxBufSize ≠ s.tx.ridx % vsprintMaxBufSize := by
        simpa [unsent, hw, WriteIrq.unsentIdx] using count_free.1 hc
      have hne : s.tx.ridx - 1 ≠ s.tx.widx := fun he => hfree (by rw [← he, Nat.sub_add_cancel (by omega)])
      have hput : (s.putSection t c).sending =
          [Function.update s.tx.buf s.tx.widx c (s.tx.ridx - 1)] := by
        simp [sending, AsyncUart.putSection, AsyncUart.setThread, writeNext, hw]
      rw [hput, Function.update_of_ne hne]
      simp [sending, hw]
  | start => simp [sending, AsyncUart.putSection, AsyncUart.setThread, hw]
  | take => simp [sending, AsyncUart.putSection, AsyncUart.setThread, hw]
  | advance c' => simp [sending, AsyncUart.putSection, AsyncUart.setThread, hw]
  | send c' => simp [sending, AsyncUart.putSection, AsyncUart.setThread, hw]
  | wrap => simp [sending, AsyncUart.putSection, AsyncUart.setThread, hw]

theorem length_sending (s : AsyncUart) (t : Nat) (c : UInt8) :
    (s.putSection t c).sending.length = s.sending.length := by
  cases hw : s.writeIrq <;> simp [sending, AsyncUart.putSection, AsyncUart.setThread, hw]

theorem Inv.putSection (h : Inv s) (hc : s.unsent.count vsprintMaxBufSize + 1 < vsprintMaxBufSize) :
    Inv (s.putSection t c) := by
  have hp : RingBuffer.Pushed vsprintMaxBufSize c s.unsent (s.putSection t c).unsent := putSection_pushed h
  refine ⟨⟨?_, h.gets, h.quiet⟩, wrapIdx_lt h.txWidx, h.txRidx, h.txAhead, h.rxRidx, h.rxWidx, h.rxAhead,
    fun _ => ?_, h.recv⟩
  · rw [hp.contents hc, putSection_sending h hc, ← List.append_assoc]
    exact h.puts.snoc t c
  · rw [hp.count hc]
    exact Nat.succ_ne_zero _

/-- With the buffer full it makes it seem empty. -/
theorem putSection_loses (h : Inv s) (hc : s.unsent.count vsprintMaxBufSize + 1 = vsprintMaxBufSize) :
    ¬ Conserves (s.putSection t c) := by
  intro hcons
  have hp : RingBuffer.Pushed vsprintMaxBufSize c s.unsent (s.putSection t c).unsent := putSection_pushed h
  have hlen := (h.puts.snoc t c).length_eq hcons.puts
  have hsent : (s.putSection t c).sent = s.sent := rfl
  rw [hsent] at hlen
  simp only [List.length_append, RingBuffer.length_contents, hp.count_full size_pos hc,
    List.length_singleton, length_sending] at hlen
  omega

/-- The section of `uart_async_getc`. -/
theorem getSection_popped (h : Inv s) :
    RingBuffer.Popped vsprintMaxBufSize s.stored (s.getSection t).stored :=
  ⟨rfl, rfl, wrapIdx_modEq h.rxRidx⟩

theorem Inv.getSection (h : Inv s) (hc : s.stored.count vsprintMaxBufSize ≠ 0) : Inv (s.getSection t) := by
  have hp : RingBuffer.Popped vsprintMaxBufSize s.stored (s.getSection t).stored := getSection_popped h
  obtain ⟨xs, hxs, hrecv⟩ := h.gets
  have hcont := hp.contents size_pos hc
  rw [show s.stored.ridx = s.rx.ridx from rfl, Nat.mod_eq_of_lt h.rxRidx] at hcont
  have hgets : s.received = (xs ++ [s.rx.buf s.rx.ridx]) ++
      (s.getSection t).stored.contents vsprintMaxBufSize ++ s.storing := by
    rw [hrecv, hcont]
    simp [stored]
  refine ⟨⟨h.puts, ⟨_, hxs.snoc t _, hgets⟩, h.quiet⟩, h.txWidx, h.txRidx, h.txAhead, wrapIdx_lt h.rxRidx,
    h.rxWidx, h.rxAhead, h.take, fun hr => ?_⟩
  obtain ⟨k, hk⟩ : ∃ k, s.stored.count vsprintMaxBufSize = k + 1 := Nat.exists_eq_succ_of_ne_zero hc
  have hlt := h.recv hr
  rw [hp.count size_pos hk]
  omega

/-- Without a byte it reads a slot that was not written. -/
theorem getSection_repeats (h : Inv s) (hc : s.stored.count vsprintMaxBufSize = 0) :
    ¬ Conserves (s.getSection t) := by
  intro hcons
  have hp : RingBuffer.Popped vsprintMaxBufSize s.stored (s.getSection t).stored := getSection_popped h
  obtain ⟨xs, hxs, hrecv⟩ := h.gets
  obtain ⟨ys, hys, hrecv'⟩ := hcons.gets
  have hlen := (hxs.snoc t (s.rx.buf s.rx.ridx)).length_eq hys
  have hsame : s.received = (s.getSection t).received := rfl
  have hstoring : (s.getSection t).storing = s.storing := rfl
  have hcount := congrArg List.length (hrecv.symm.trans (hsame.trans hrecv'))
  rw [hstoring] at hcount
  simp only [List.length_append, RingBuffer.length_contents, hc, List.length_singleton] at hcount hlen
  have hfull := hp.count_empty size_pos hc
  omega

/-! ## the handlers -/

theorem Inv.uartWIrqHandler (h : Inv s) (ahead : Bool) : Inv (s.uartWIrqHandler ahead) := by
  cases hw : s.writeIrq with
  | start =>
      by_cases he : bufferEmpty s.tx
      · simpa [AsyncUart.uartWIrqHandler, hw, he] using h
      · have hidx : s.tx.ridx < vsprintMaxBufSize := by simpa [unsent, WriteIrq.unsentIdx, hw] using h.txRidx
        have hne : s.tx.count vsprintMaxBufSize ≠ 0 := by
          rw [count_pos, Nat.mod_eq_of_lt hidx, Nat.mod_eq_of_lt h.txWidx]
          exact he
        have hputs := h.puts
        simp only [sending, unsent, WriteIrq.unsentIdx, hw] at hputs
        simp only [AsyncUart.uartWIrqHandler, hw, if_neg he]
        exact ⟨⟨hputs, h.gets, h.quiet⟩, h.txWidx, Or.inl hidx, by simp, h.rxRidx, h.rxWidx, h.rxAhead,
          fun _ => hne, h.recv⟩
  | take =>
      have hidx : s.tx.ridx < vsprintMaxBufSize := by simpa [unsent, WriteIrq.unsentIdx, hw] using h.txRidx
      have hne : s.tx.count vsprintMaxBufSize ≠ 0 := by simpa [unsent, WriteIrq.unsentIdx, hw] using h.take hw
      have hp : RingBuffer.Popped vsprintMaxBufSize s.tx { s.tx with ridx := s.tx.ridx + 1 } := ⟨rfl, rfl, rfl⟩
      have hcont := hp.contents size_pos hne
      rw [Nat.mod_eq_of_lt hidx] at hcont
      have hputs := h.puts
      simp only [sending, unsent, WriteIrq.unsentIdx, hw, List.append_nil, hcont] at hputs
      have hwrap : s.tx.ridx + 1 < vsprintMaxBufSize ∨ s.tx.ridx + 1 = vsprintMaxBufSize :=
        Nat.lt_or_eq_of_le hidx
      cases ahead with
      | true =>
          simp only [AsyncUart.uartWIrqHandler, hw]
          refine ⟨⟨by simpa [sending, unsent, WriteIrq.unsentIdx] using hputs, h.gets, h.quiet⟩, h.txWidx, ?_,
            fun _ => Nat.succ_ne_zero _, h.rxRidx, h.rxWidx, h.rxAhead, by simp, h.recv⟩
          exact hwrap.imp_right fun he => ⟨he, by simp⟩
      | false =>
          simp only [AsyncUart.uartWIrqHandler, hw]
          refine ⟨⟨by simpa [sending, unsent, WriteIrq.unsentIdx] using hputs, h.gets, h.quiet⟩, h.txWidx, ?_,
            by simp, h.rxRidx, h.rxWidx, h.rxAhead, by simp, h.recv⟩
          exact hwrap.imp_right fun he => ⟨he, by simp⟩
  | load =>
      have hputs := h.puts
      have hidx := h.txRidx
      simp only [sending, unsent, WriteIrq.unsentIdx, hw] at hputs hidx
      simp only [AsyncUart.uartWIrqHandler, hw]
      exact ⟨⟨hputs, h.gets, h.quiet⟩, h.txWidx, hidx.imp_right fun he => ⟨he.1, by simp⟩, by simp, h.rxRidx,
        h.rxWidx, h.rxAhead, by simp, h.recv⟩
  | advance c =>
      have hputs := h.puts
      have hidx := h.txRidx
      simp only [sending, unsent, WriteIrq.unsentIdx, hw] at hputs hidx
      simp only [AsyncUart.uartWIrqHandler, hw]
      exact ⟨⟨hputs, h.gets, h.quiet⟩, h.txWidx, hidx.imp_right fun he => ⟨he.1, by simp⟩, by simp, h.rxRidx,
        h.rxWidx, h.rxAhead, by simp, h.recv⟩
  | send c =>
      have hputs := h.puts
      have hidx := h.txRidx
      simp only [sending, unsent, WriteIrq.unsentIdx, hw] at hputs hidx
      simp only [AsyncUart.uartWIrqHandler, hw]
      exact ⟨⟨by simpa [sending, unsent, WriteIrq.unsentIdx] using hputs, h.gets, fun hf => congrArg (· ++ [c]) (h.quiet hf)⟩,
        h.txWidx, hidx.imp_right fun he => ⟨he.1, by simp⟩, by simp, h.rxRidx, h.rxWidx, h.rxAhead, by simp,
        h.recv⟩
  | wrap =>
      have hputs := h.puts
      have hridx := h.txRidx
      simp only [sending, unsent, WriteIrq.unsentIdx, hw] at hputs hridx
      have hidx : s.tx.ridx ≤ vsprintMaxBufSize := by
        cases hridx with
        | inl hlt => exact Nat.le_of_lt hlt
        | inr heq => exact Nat.le_of_eq heq.1
      have hp : RingBuffer.Wrapped vsprintMaxBufSize s.tx { s.tx with ridx := wrapIdx s.tx.ridx } :=
        ⟨rfl, rfl, wrapIdx_modEq hidx⟩
      rw [← hp.contents size_pos] at hputs
      simp only [AsyncUart.uartWIrqHandler, hw]
      exact ⟨⟨hputs, h.gets, h.quiet⟩, h.txWidx, Or.inl (wrapIdx_lt hidx), by simp, h.rxRidx, h.rxWidx,
        h.rxAhead, by simp, h.recv⟩

theorem storedIdx_store (stored : Bool) (c : UInt8) (widx : Nat) :
    ReadIrq.storedIdx widx (.store stored c) = ReadIrq.storedIdx widx (.recv stored) := by
  cases stored <;> rfl

/-- The index is stored before the byte is received: what is stored stays as it is. -/
theorem Inv.recvAhead (h : Inv s) (hr : s.readIrq = .recv false) :
    Inv { s with readIrq := .recv true, rx := { s.rx with widx := s.rx.widx + 1 } } := by
  have hgets := h.gets
  have hwidx := h.rxWidx
  have hfree := h.recv (by simp [hr, ReadIrq.Fills])
  simp only [storing, stored, ReadIrq.storedIdx, cond_false, hr] at hgets hwidx hfree
  have hlt : s.rx.widx < vsprintMaxBufSize := by simpa [ReadIrq.Fills] using hwidx
  exact ⟨⟨h.puts, hgets, h.quiet⟩, h.txWidx, h.txRidx, h.txAhead, h.rxRidx, Or.inl hlt,
    fun _ => Nat.succ_ne_zero _, h.take, fun _ => hfree⟩

theorem Inv.uartRecv (h : Inv s) {ahead : Bool} (hr : s.readIrq = .recv ahead) (b : UInt8) :
    Inv { s with
      readIrq := .store ahead (RpiKernel.uartRecv b)
      received := s.received ++ [RpiKernel.uartRecv b]
      io := s.io ++ uartRecvEcho s.uartRecvEchoFlag b } := by
  obtain ⟨xs, hxs, hrecv⟩ := h.gets
  have hwidx := h.rxWidx
  have hfree := h.recv (by simp [hr, ReadIrq.Fills])
  have hahead := h.rxAhead
  simp only [storing, stored, hr, List.append_nil] at hrecv hwidx hfree hahead
  have hlt : ReadIrq.storedIdx s.rx.widx (.recv ahead) < vsprintMaxBufSize := by
    simpa [ReadIrq.Fills] using hwidx
  refine ⟨⟨h.puts, ⟨xs, hxs, ?_⟩, fun hf => ?_⟩, h.txWidx, h.txRidx, h.txAhead, h.rxRidx, Or.inl ?_,
    fun ha => hahead ?_, h.take, fun _ => ?_⟩
  · simp only [storing, stored, storedIdx_store, hrecv]
  · have hflag : s.uartRecvEchoFlag = false := hf
    simp [hflag, uartRecvEcho, h.quiet hflag]
  · simpa only [stored, storedIdx_store] using hlt
  · cases ahead with
    | true => trivial
    | false => exact ha
  · simpa only [stored, storedIdx_store] using hfree

/-- The same once the byte is received. -/
theorem Inv.indexAhead (h : Inv s) (hr : s.readIrq = .store false c) :
    Inv { s with readIrq := .store true c, rx := { s.rx with widx := s.rx.widx + 1 } } := by
  have hgets := h.gets
  have hwidx := h.rxWidx
  have hfree := h.recv (by simp [hr, ReadIrq.Fills])
  simp only [storing, stored, ReadIrq.storedIdx, cond_false, hr] at hgets hwidx hfree
  have hlt : s.rx.widx < vsprintMaxBufSize := by simpa [ReadIrq.Fills] using hwidx
  exact ⟨⟨h.puts, hgets, h.quiet⟩, h.txWidx, h.txRidx, h.txAhead, h.rxRidx, Or.inl hlt,
    fun _ => Nat.succ_ne_zero _, h.take, fun _ => hfree⟩

/-- The byte comes into its slot, with the index ahead. -/
theorem Inv.storeAhead (h : Inv s) (hr : s.readIrq = .store true c) :
    Inv { s with readIrq := .wrap, rx := { s.rx with buf := Function.update s.rx.buf (s.rx.widx - 1) c } } := by
  obtain ⟨xs, hxs, hrecv⟩ := h.gets
  have hwidx := h.rxWidx
  have hfree := h.recv (by simp [hr, ReadIrq.Fills])
  have hpos : s.rx.widx ≠ 0 := h.rxAhead (by simp [hr, ReadIrq.Ahead])
  simp only [storing, stored, ReadIrq.storedIdx, cond_true, hr] at hrecv hwidx hfree
  have hlt : s.rx.widx - 1 < vsprintMaxBufSize := by simpa [ReadIrq.Fills] using hwidx
  have hp : RingBuffer.Pushed vsprintMaxBufSize c { s.rx with widx := s.rx.widx - 1 }
      { s.rx with buf := Function.update s.rx.buf (s.rx.widx - 1) c } := by
    refine ⟨?_, ?_, rfl⟩
    · rw [Nat.mod_eq_of_lt hlt]
    · rw [Nat.sub_add_cancel (by omega)]
  have hcont := hp.contents hfree
  refine ⟨⟨h.puts, ⟨xs, hxs, ?_⟩, h.quiet⟩, h.txWidx, h.txRidx, h.txAhead, h.rxRidx, ?_,
    by simp [ReadIrq.Ahead], h.take, by simp [ReadIrq.Fills]⟩
  · simp only [storing, stored, ReadIrq.storedIdx, hcont, hrecv, List.append_nil, List.append_assoc]
  · simp only [stored, ReadIrq.storedIdx]
    refine (Nat.lt_or_ge s.rx.widx vsprintMaxBufSize).imp_right fun hge => ⟨by omega, ?_, ?_⟩
    · simp
    · simp [ReadIrq.Fills]

/-- The byte comes into its slot before the index moves on. -/
theorem Inv.storeFirst (h : Inv s) (hr : s.readIrq = .store false c) :
    Inv { s with readIrq := .advance, rx := { s.rx with buf := Function.update s.rx.buf s.rx.widx c } } := by
  obtain ⟨xs, hxs, hrecv⟩ := h.gets
  have hwidx := h.rxWidx
  have hfree := h.recv (by simp [hr, ReadIrq.Fills])
  simp only [storing, stored, ReadIrq.storedIdx, cond_false, hr] at hrecv hwidx hfree
  have hlt : s.rx.widx < vsprintMaxBufSize := by simpa [ReadIrq.Fills] using hwidx
  have hp : RingBuffer.Pushed vsprintMaxBufSize c s.rx (writeNext c s.rx) := writeNext_pushed hlt
  have hcont := hp.contents hfree
  refine ⟨⟨h.puts, ⟨xs, hxs, ?_⟩, h.quiet⟩, h.txWidx, h.txRidx, h.txAhead, h.rxRidx, ?_,
    by simp [ReadIrq.Ahead], h.take, by simp [ReadIrq.Fills]⟩
  · simp only [writeNext] at hcont
    simp only [storing, stored, ReadIrq.storedIdx, hcont, hrecv, List.append_nil, List.append_assoc]
  · simp only [stored, ReadIrq.storedIdx]
    exact (Nat.lt_or_eq_of_le hlt).imp_right fun he => ⟨he, by simp [ReadIrq.Fills]⟩

theorem Inv.uartRIrqHandler (h : Inv s) (b : UInt8) (ahead : Bool) : Inv (s.uartRIrqHandler b ahead) := by
  obtain ⟨xs, hxs, hrecv⟩ := h.gets
  have hwidx := h.rxWidx
  cases hr : s.readIrq with
  | start =>
      by_cases hf : bufferFull s.rx
      · simpa [AsyncUart.uartRIrqHandler, hr, hf] using h
      · simp only [storing, stored, ReadIrq.storedIdx, hr] at hrecv hwidx
        have hlt : s.rx.widx < vsprintMaxBufSize := by simpa using hwidx
        have hfree : s.rx.count vsprintMaxBufSize + 1 < vsprintMaxBufSize := by
          rw [count_free, Nat.mod_eq_of_lt h.rxRidx]
          exact hf
        simp only [AsyncUart.uartRIrqHandler, hr, if_neg hf]
        exact ⟨⟨h.puts, ⟨xs, hxs, hrecv⟩, h.quiet⟩, h.txWidx, h.txRidx, h.txAhead, h.rxRidx, Or.inl hlt,
          by simp [ReadIrq.Ahead], h.take, fun _ => hfree⟩
  | recv stored =>
      by_cases ha : ahead ∧ ¬ stored
      · obtain ⟨rfl, hfalse⟩ := ha
        obtain rfl : stored = false := by simpa using hfalse
        simpa [AsyncUart.uartRIrqHandler, hr] using h.recvAhead hr
      · simp only [AsyncUart.uartRIrqHandler, hr, if_neg ha]
        exact h.uartRecv hr b
  | store stored c =>
      cases stored with
      | true => simpa only [AsyncUart.uartRIrqHandler, hr] using h.storeAhead hr
      | false =>
          cases ahead with
          | true => simpa only [AsyncUart.uartRIrqHandler, hr, if_true] using h.indexAhead hr
          | false => simpa [AsyncUart.uartRIrqHandler, hr] using h.storeFirst hr
  | advance =>
      simp only [storing, stored, ReadIrq.storedIdx, hr] at hrecv hwidx
      simp only [AsyncUart.uartRIrqHandler, hr]
      exact ⟨⟨h.puts, ⟨xs, hxs, hrecv⟩, h.quiet⟩, h.txWidx, h.txRidx, h.txAhead, h.rxRidx,
        hwidx.imp_right fun he => ⟨he.1, by simp [ReadIrq.Fills]⟩, by simp [ReadIrq.Ahead], h.take,
        by simp [ReadIrq.Fills]⟩
  | wrap =>
      simp only [storing, stored, ReadIrq.storedIdx, hr] at hrecv hwidx
      have hle : s.rx.widx ≤ vsprintMaxBufSize := by
        cases hwidx with
        | inl hlt => exact Nat.le_of_lt hlt
        | inr heq => exact Nat.le_of_eq heq.1
      have hp : RingBuffer.Wrapped vsprintMaxBufSize s.rx { s.rx with widx := wrapIdx s.rx.widx } :=
        ⟨rfl, wrapIdx_modEq hle, rfl⟩
      rw [← hp.contents size_pos] at hrecv
      simp only [AsyncUart.uartRIrqHandler, hr]
      exact ⟨⟨h.puts, ⟨xs, hxs, hrecv⟩, h.quiet⟩, h.txWidx, h.txRidx, h.txAhead, h.rxRidx,
        Or.inl (wrapIdx_lt hle), by simp [ReadIrq.Ahead], h.take, by simp [ReadIrq.Fills]⟩

/-! ## runs -/

theorem boot_inv (flag : Bool) : Inv (boot flag) := by
  have hempty : (⟨fun _ => 0, 0, 0⟩ : RingBuffer UInt8).contents vsprintMaxBufSize = [] := by
    simp [RingBuffer.contents, RingBuffer.count]
  refine ⟨⟨?_, ⟨[], .nil, ?_⟩, fun _ => rfl⟩, size_pos, Or.inl size_pos, by simp [boot], size_pos,
    Or.inl size_pos, by simp [boot, ReadIrq.Ahead], by simp [boot], by simp [boot, ReadIrq.Fills]⟩
  · simpa [boot, sending, unsent, WriteIrq.unsentIdx, hempty] using Merges.nil
  · simp [boot, storing, stored, ReadIrq.storedIdx, hempty]

/-- A thread that enters its section. -/
theorem Inv.masked (h : Inv s) (hs : step s (.masked t) = some s') :
    (Conserves s' ↔ TestHolds s (.masked t)) ∧ (TestHolds s (.masked t) → Inv s') := by
  cases ht : s.thread t with
  | puts c =>
      simp only [step, ht, Option.some.injEq] at hs
      subst hs
      have hfree : TestHolds s (.masked t) ↔ s.unsent.count vsprintMaxBufSize + 1 < vsprintMaxBufSize := by
        simp only [TestHolds, ht]
        exact count_free.symm
      have hlt := RingBuffer.count_lt size_pos s.unsent
      rw [hfree]
      refine ⟨⟨fun hcons => ?_, fun hc => (h.putSection hc).toConserves⟩, h.putSection⟩
      by_contra hc
      exact putSection_loses h (by omega) hcons
  | gets =>
      simp only [step, ht, Option.some.injEq] at hs
      subst hs
      have hpos : TestHolds s (.masked t) ↔ s.stored.count vsprintMaxBufSize ≠ 0 := by
        simp only [TestHolds, ht]
        exact count_pos.symm
      rw [hpos]
      refine ⟨⟨fun hcons hc => ?_, fun hc => (h.getSection hc).toConserves⟩, h.getSection⟩
      exact getSection_repeats h hc hcons
  | outside => simp [step, ht] at hs
  | putWaits c => simp [step, ht] at hs
  | getWaits => simp [step, ht] at hs

/-- The other steps keep the invariant. -/
theorem Inv.other (h : Inv s) {a : UartStep} (ha : ∀ t, a ≠ .masked t) (hs : step s a = some s') : Inv s' := by
  cases a with
  | putc t c =>
      by_cases ht : s.thread t = .outside
      · simp only [step, if_pos ht, Option.some.injEq] at hs
        exact hs ▸ h.setThread t _
      · simp [step, ht] at hs
  | getc t =>
      by_cases ht : s.thread t = .outside
      · simp only [step, if_pos ht, Option.some.injEq] at hs
        exact hs ▸ h.setThread t _
      · simp [step, ht] at hs
  | test t =>
      cases ht : s.thread t with
      | putWaits c =>
          simp only [step, ht, Option.some.injEq] at hs
          subst hs
          split
          · exact h
          · exact h.setThread t _
      | getWaits =>
          simp only [step, ht, Option.some.injEq] at hs
          subst hs
          split
          · exact h
          · exact h.setThread t _
      | outside => simp [step, ht] at hs
      | puts c => simp [step, ht] at hs
      | gets => simp [step, ht] at hs
  | masked t => exact absurd rfl (ha t)
  | writeIrq ahead =>
      obtain rfl := Option.some.inj hs
      exact h.uartWIrqHandler ahead
  | readIrq b ahead =>
      obtain rfl := Option.some.inj hs
      exact h.uartRIrqHandler b ahead

theorem Inv.step (h : Inv s) {a : UartStep} (hs : AsyncUart.step s a = some s') :
    (Conserves s' ↔ TestHolds s a) ∧ (TestHolds s a → Inv s') := by
  by_cases ha : ∃ t, a = .masked t
  · obtain ⟨t, rfl⟩ := ha
    exact h.masked hs
  · have h' := h.other (fun t he => ha ⟨t, he⟩) hs
    have hholds : TestHolds s a := by
      cases a with
      | masked t => exact absurd ⟨t, rfl⟩ ha
      | _ => trivial
    exact ⟨iff_of_true h'.toConserves hholds, fun _ => h'⟩

/-- **The asynchronous UART.**  In every run in which the test of a call still holds
when its section is entered, no byte is lost, repeated or made up, and the threads'
bytes keep their order; and the first section that is entered against its test ends
that. -/
theorem uartRun_conserves (flag : Bool) (s : AsyncUart) (hr : Reach step TestHolds (boot flag) s) :
    Conserves s ∧ ∀ a s', step s a = some s' → (Conserves s' ↔ TestHolds s a) := by
  have h : Inv s := hr.inv (boot_inv flag) fun s a s' hi hg hs => (hi.step hs).2 hg
  exact ⟨h.toConserves, fun a s' hs => (h.step hs).1⟩

/-- A byte is put and sent, and another comes in and is got. -/
def echoed : List UartStep :=
  [.putc 1 0x62, .test 1, .masked 1] ++ [.writeIrq true, .writeIrq true, .writeIrq true, .writeIrq true] ++
  [.getc 2] ++ List.replicate 4 (.readIrq 0x61 true) ++ [.test 2, .masked 2]

theorem uartRun_conserves_echoed : ∃ s, run step (boot false) echoed = some s ∧
    s.sent = [0x62] ∧ s.got 2 = [0x61] ∧
    Conserves s ∧ ∀ a s', step s a = some s' → (Conserves s' ↔ TestHolds s a) := by
  have hrun : ((run step (boot false) echoed).map fun s => decide (s.sent = [0x62] ∧ s.got 2 = [0x61])) =
      some true := by
    decide +kernel
  obtain ⟨s, hs, hdec⟩ := Option.map_eq_some_iff.1 hrun
  obtain ⟨hsent, hgot⟩ := of_decide_eq_true hdec
  have hr : Reach step TestHolds (boot false) s := .of_always .init (by decide +kernel) hs
  exact ⟨s, hs, hsent, hgot, uartRun_conserves false s hr⟩

/-- A byte that a thread got is among those received. -/
theorem Conserves.mem_received (h : Conserves s) (hb : b ∈ s.got t) : b ∈ s.received := by
  obtain ⟨xs, ⟨zs, hxs, hys⟩, hsplit⟩ := h.gets
  rw [← hys t] at hb
  obtain ⟨z, hz, hzb⟩ := List.mem_map.1 hb
  rw [hsplit, ← hxs]
  refine List.mem_append_left _ (List.mem_append_left _ ?_)
  exact List.mem_map.2 ⟨z, List.mem_of_mem_filter hz, hzb⟩

/-- One byte comes in and two threads find it; the second of them reads a slot that was
never written. -/
def twoGetters : List UartStep :=
  [.getc 1, .getc 2] ++ List.replicate 5 (.readIrq 0x61 false) ++ [.test 1, .test 2, .masked 1, .masked 2]

/-- The handler has stored the index and waits for the byte; a single thread reads the slot. -/
def getterAhead : List UartStep :=
  [.getc 1, .readIrq 0x61 true, .readIrq 0x61 true, .test 1, .masked 1]

theorem getters_unwritten :
    (∃ s, run step (boot false) twoGetters = some s ∧ s.received = [0x61] ∧ s.got 1 = [0x61] ∧
      s.got 2 = [0] ∧ ¬ Conserves s) ∧
    ∃ s, run step (boot false) getterAhead = some s ∧ s.received = [] ∧ s.got 1 = [0] ∧ ¬ Conserves s := by
  constructor
  · have hrun : ((run step (boot false) twoGetters).map fun s =>
        decide (s.received = [0x61] ∧ s.got 1 = [0x61] ∧ s.got 2 = [0])) = some true := by
      decide +kernel
    obtain ⟨s, hs, hdec⟩ := Option.map_eq_some_iff.1 hrun
    obtain ⟨hrecv, hgot1, hgot2⟩ := of_decide_eq_true hdec
    refine ⟨s, hs, hrecv, hgot1, hgot2, fun hcons => ?_⟩
    have hmem := hcons.mem_received (t := 2) (b := 0) (by simp [hgot2])
    rw [hrecv] at hmem
    exact absurd hmem (by decide)
  · have hrun : ((run step (boot false) getterAhead).map fun s =>
        decide (s.received = [] ∧ s.got 1 = [0])) = some true := by
      decide +kernel
    obtain ⟨s, hs, hdec⟩ := Option.map_eq_some_iff.1 hrun
    obtain ⟨hrecv, hgot⟩ := of_decide_eq_true hdec
    refine ⟨s, hs, hrecv, hgot, fun hcons => ?_⟩
    have hmem := hcons.mem_received (t := 1) (b := 0) (by simp [hgot])
    rw [hrecv] at hmem
    exact absurd hmem (by decide)

end AsyncUart

end RpiKernel
