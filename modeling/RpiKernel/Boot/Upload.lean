import RpiKernel.Lib.Pipe
import RpiKernel.Lib.Words

/-!
# RpiKernel.Boot.Upload

The upload of a kernel: `send_by_block` and `send_by_byte` of `kernel_uploader.py` on one side of the
line, `main` of the boot loader on the other.  The loader is known by what it does between two calls of
`uart_recv_raw`: `Loader.recvRaw` is `main` from the return of one call to the next.  The line loses
nothing and keeps the order; the host and the board run at their own speeds.
-/

namespace RpiKernel

open Bytes Runs

/-! ## the loader -/

/-- Where `main` waits for a byte: for the four of the size, in the loop, or nowhere, after the jump to
the kernel. -/
inductive RecvPoint where
  | size24
  | size16
  | size8
  | size0
  | body
  | kernel
  deriving DecidableEq

structure Loader where
  point : RecvPoint
  kernelSize : Nat
  i : Nat
  mem : Nat → UInt8
  sent : List UInt8

/-- `kernel_addr`. -/
def kernelAddr : Nat := 0x80000

/-- `uart_send_string` of the boot loader: what a string puts on the line. -/
def uartSendString : List UInt8 → List UInt8
  | [] => []
  | c :: str => (if c = 10 then [13, c] else [c]) ++ uartSendString str

/-- `"!\n"`. -/
def progressMark : List UInt8 := [33, 10]

/-- `"Finished!\r\n"`. -/
def finishedText : List UInt8 := [70, 105, 110, 105, 115, 104, 101, 100, 33, 13, 10]

/-- The head of the loop, `i < kernel_size`, and what follows the loop. -/
def Loader.loop (s : Loader) : Loader :=
  if s.i < s.kernelSize then { s with point := .body }
  else { s with point := .kernel, sent := s.sent ++ uartSendString finishedText }

/-- `main` of the boot loader from one `uart_recv_raw` to the next; `int i` must not overflow. -/
def Loader.recvRaw (s : Loader) (c : UInt8) : Option Loader :=
  match s.point with
  | .size24 => some { s with kernelSize := c.toNat <<< 24 % 2 ^ 32, point := .size16 }
  | .size16 => some { s with kernelSize := s.kernelSize ||| c.toNat <<< 16, point := .size8 }
  | .size8 => some { s with kernelSize := s.kernelSize ||| c.toNat <<< 8, point := .size0 }
  | .size0 => some (Loader.loop { s with kernelSize := s.kernelSize ||| c.toNat, i := 0 })
  | .body =>
      if s.i + 1 < 2 ^ 31 then
        some (Loader.loop { s with
          mem := storeBytes (kernelAddr + s.i) [c] s.mem
          sent := if (s.i + 1) % 1024 = 0 then s.sent ++ uartSendString progressMark else s.sent
          i := s.i + 1 })
      else none
  | .kernel => none

/-- The loader after `uart_init`. -/
def Loader.start (mem : Nat → UInt8) (sent : List UInt8) : Loader := ⟨.size24, 0, 0, mem, sent⟩

/-! ## the uploader -/

/-- `file_size.to_bytes(4, "big")`, with its `OverflowError`. -/
def toBytes4 (n : Nat) : Option (List UInt8) := if n < 2 ^ 32 then some (be32 n) else none

/-- The blocks that `src_file.read(BLOCK_SIZE)` gives until there is nothing left. -/
def readBlocks (blockSize : Nat) (file : List UInt8) : List (List UInt8) :=
  if _h : blockSize = 0 ∨ file = [] then []
  else file.take blockSize :: readBlocks blockSize (file.drop blockSize)
termination_by file.length
decreasing_by
  have := List.length_pos_iff.2 (not_or.1 _h).2
  rw [List.length_drop]
  omega

/-- `send_by_block`: the writes it makes. -/
def sendByBlock (file : List UInt8) (fileSize : Nat) : Option (List (List UInt8)) :=
  (toBytes4 fileSize).map (· :: readBlocks 1024 file)

/-- `send_by_byte`: the writes it makes; a file shorter than `fileSize` is an `IndexError`. -/
def sendByByte (file : List UInt8) (fileSize : Nat) : Option (List (List UInt8)) := do
  let header ← toBytes4 fileSize
  let bytes ← (List.range fileSize).mapM fun i => file[i]?
  some (header :: bytes.map fun c => [c])

/-- The `mode` of `send_data`. -/
inductive SendMode where
  | block
  | byte
  deriving DecidableEq

/-- `send_data`: the size is that of the file. -/
def sendData (mode : SendMode) (file : List UInt8) : Option (List (List UInt8)) :=
  match mode with
  | .block => sendByBlock file file.length
  | .byte => sendByByte file file.length

/-! ## what is sent -/

variable {file : List UInt8} {mem : Nat → UInt8} {sent : List UInt8}

theorem flatten_readBlocks {b : Nat} (hb : 0 < b) (file : List UInt8) :
    (readBlocks b file).flatten = file := by
  induction h : file.length using Nat.strongRecOn generalizing file with
  | ind n ih =>
      rw [readBlocks]
      split
      next hor =>
        rw [hor.resolve_left (Nat.ne_of_gt hb), List.flatten_nil]
      next hor =>
        have hpos : 0 < file.length := List.length_pos_iff.2 (not_or.1 hor).2
        have hlt : (file.drop b).length < n := by
          rw [List.length_drop]
          omega
        rw [List.flatten_cons, ih _ hlt _ rfl, List.take_append_drop]

/-- The bytes that `send_by_byte` reads one by one. -/
theorem mapM_getElem {k : Nat} (hk : k ≤ file.length) :
    ((List.range k).mapM fun i => file[i]?) = some (file.take k) := by
  induction k with
  | zero => rfl
  | succ k ih =>
      have hlast : file[k]? = some file[k] := List.getElem?_eq_getElem hk
      rw [List.range_succ, List.mapM_append, ih (Nat.le_of_succ_le hk), List.take_succ_eq_append_getElem hk]
      simp only [List.mapM_cons, hlast, List.mapM_nil, Option.pure_def, Option.bind_eq_bind, Option.bind_some]

/-- Both modes send the size and the file. -/
theorem flatten_sendData (mode : SendMode) (hlt : file.length < 2 ^ 32) :
    ∃ blocks, sendData mode file = some blocks ∧ blocks.flatten = be32 file.length ++ file := by
  cases mode with
  | block =>
      refine ⟨be32 file.length :: readBlocks 1024 file, ?_, ?_⟩
      · rw [sendData, sendByBlock, toBytes4, if_pos hlt, Option.map_some]
      · rw [List.flatten_cons, flatten_readBlocks (by decide)]
  | byte =>
      refine ⟨be32 file.length :: file.map fun c => [c], ?_, ?_⟩
      · simp only [sendData, sendByByte, toBytes4, if_pos hlt, mapM_getElem le_rfl, Option.bind_eq_bind,
          Option.bind_some, List.take_length]
      · rw [List.flatten_cons, ← List.flatMap_def, List.flatMap_singleton']

/-! ## what is received -/

/-- The progress marks for `k` bytes. -/
def progressText (k : Nat) : List UInt8 := (List.replicate (k / 1024) (uartSendString progressMark)).flatten

/-- The loader when it has `k` bytes of the file. -/
def Loader.after (file : List UInt8) (mem : Nat → UInt8) (sent : List UInt8) (k : Nat) : Loader where
  point := if k < file.length then .body else .kernel
  kernelSize := file.length
  i := k
  mem := storeBytes kernelAddr (file.take k) mem
  sent := sent ++ progressText k ++ if k < file.length then [] else uartSendString finishedText

theorem progressText_succ (k : Nat) : progressText (k + 1) =
    progressText k ++ if (k + 1) % 1024 = 0 then uartSendString progressMark else [] := by
  unfold progressText
  split
  next h =>
    rw [show (k + 1) / 1024 = k / 1024 + 1 by omega, List.replicate_succ', List.flatten_concat]
  next h =>
    rw [show (k + 1) / 1024 = k / 1024 by omega, List.append_nil]

/-- Four bytes make a word, the highest first. -/
theorem or_bytes4 {a b c d : Nat} (ha : a < 256) (hb : b < 256) (hc : c < 256) (hd : d < 256) :
    a <<< 24 % 2 ^ 32 ||| b <<< 16 ||| c <<< 8 ||| d = a * 2 ^ 24 + b * 2 ^ 16 + c * 2 ^ 8 + d := by
  simp only [Nat.shiftLeft_eq]
  rw [Nat.mod_eq_of_lt (by omega), Nat.lor_comm _ d, Nat.lor_comm _ (c * 2 ^ 8), Nat.lor_comm _ (b * 2 ^ 16),
    ← Nat.lor_assoc, ← Nat.lor_assoc, or_mul_two_pow c hd, or_mul_two_pow b (by omega),
    or_mul_two_pow a (by omega)]
  omega

/-- The four bytes of the size make the size. -/
theorem recvRaw_size (mem : Nat → UInt8) (sent : List UInt8) {n : Nat} (hn : n < 2 ^ 32) :
    run Loader.recvRaw (.start mem sent) (be32 n) = some (Loader.loop ⟨.size0, n, 0, mem, sent⟩) := by
  have hsize := or_bytes4 (UInt8.ofNat (n / 2 ^ 24)).toNat_lt (UInt8.ofNat (n / 2 ^ 16)).toNat_lt
    (UInt8.ofNat (n / 2 ^ 8)).toNat_lt (UInt8.ofNat n).toNat_lt
  have hn' : (UInt8.ofNat (n / 2 ^ 24)).toNat * 2 ^ 24 + (UInt8.ofNat (n / 2 ^ 16)).toNat * 2 ^ 16 +
      (UInt8.ofNat (n / 2 ^ 8)).toNat * 2 ^ 8 + (UInt8.ofNat n).toNat = n := by
    simp only [UInt8.toNat_ofNat']
    omega
  simp only [be32, run, Loader.recvRaw, Loader.start, Option.bind_some, hsize, hn']

/-- One byte of the file. -/
theorem recvRaw_body {k : Nat} (hk : k < file.length) (hlt : file.length < 2 ^ 31) :
    (Loader.after file mem sent k).recvRaw file[k] = some (.after file mem sent (k + 1)) := by
  have hlen : (file.take k).length = k := List.length_take_of_le (Nat.le_of_lt hk)
  have hmem : storeBytes (kernelAddr + k) [file[k]] (storeBytes kernelAddr (file.take k) mem) =
      storeBytes kernelAddr (file.take (k + 1)) mem := by
    rw [List.take_succ_eq_append_getElem hk, storeBytes_append, hlen]
  have hnext : k + 1 < 2 ^ 31 := by omega
  simp only [Loader.recvRaw, Loader.after, if_pos hk, if_pos hnext, hmem, List.append_nil, Loader.loop,
    progressText_succ]
  by_cases hmore : k + 1 < file.length
  · by_cases hmark : (k + 1) % 1024 = 0
    · simp [hmore, hmark]
    · simp [hmore, hmark]
  · by_cases hmark : (k + 1) % 1024 = 0
    · simp [hmore, hmark]
    · simp [hmore, hmark]

/-- The first bytes of what is sent. -/
theorem recvRaw_stream {k : Nat} (hk : k ≤ file.length) (hlt : file.length < 2 ^ 31) :
    run Loader.recvRaw (.start mem sent) (be32 file.length ++ file.take k) =
      some (.after file mem sent k) := by
  induction k with
  | zero =>
      rw [List.take_zero, List.append_nil, recvRaw_size mem sent (by omega)]
      by_cases h : 0 < file.length
      · simp [Loader.loop, Loader.after, progressText, h]
      · simp [Loader.loop, Loader.after, progressText, h]
  | succ k ih =>
      rw [List.take_succ_eq_append_getElem hk, ← List.append_assoc,
        run_append _ _ (ih (Nat.le_of_succ_le hk)), run_cons _ (recvRaw_body hk hlt), run]

/-! ## the upload -/

/-- The host with its writes before it, and the board in `main` of the boot loader. -/
def Upload.start (blocks : List (List UInt8)) (mem : Nat → UInt8) (sent : List UInt8) :
    Pipe.State Loader UInt8 := ⟨blocks, [], .start mem sent⟩

variable {mode : SendMode} {blocks : List (List UInt8)} {s : Pipe.State Loader UInt8}

theorem pending_start (hb : sendData mode file = some blocks) (hlt : file.length < 2 ^ 31) :
    (Upload.start blocks mem sent).pending = be32 file.length ++ file := by
  have hsize : file.length < 2 ^ 32 := by omega
  obtain ⟨blocks', hb', hflat⟩ := flatten_sendData mode hsize
  obtain rfl := Option.some.inj (hb.symm.trans hb')
  rw [Pipe.State.pending, Upload.start, List.nil_append, hflat]

/-- A loader that waits for a byte of the size has stored nothing and said nothing. -/
theorem recvRaw_header {l : List UInt8} {r : Loader} (hl : l.length < 4)
    (hr : run Loader.recvRaw (.start mem sent) l = some r) :
    r.mem = mem ∧ r.sent = sent ∧ r.point ≠ .kernel ∧ ∀ c, r.recvRaw c ≠ none := by
  match l, hl with
  | [], _ | [_], _ | [_, _], _ | [_, _, _], _ =>
      simp only [run, Loader.recvRaw, Loader.start, Option.bind_some, Option.some.injEq] at hr
      subst hr
      simp [Loader.recvRaw]

/-- The loader in an upload: it waits for the size, or it has the first bytes of the file. -/
theorem loader_cases {l rest : List UInt8} {r : Loader} (hlt : file.length < 2 ^ 31)
    (hl : be32 file.length ++ file = l ++ rest) (hr : run Loader.recvRaw (.start mem sent) l = some r) :
    (l.length < 4 ∧ r.mem = mem ∧ r.sent = sent ∧ r.point ≠ .kernel ∧ ∀ c, r.recvRaw c ≠ none) ∨
    ∃ k ≤ file.length, r = .after file mem sent k ∧ rest = file.drop k := by
  rcases Nat.lt_or_ge l.length 4 with h | h
  · exact .inl ⟨h, recvRaw_header h hr⟩
  · have hlen := congrArg List.length hl
    simp only [List.length_append, length_be32] at hlen
    have hle : l.length - 4 ≤ file.length := by omega
    have htake : be32 file.length ++ file.take (l.length - 4) = l := by
      have hfront := congrArg (List.take l.length) hl
      rwa [List.take_left, List.take_append, length_be32, List.take_of_length_le h] at hfront
    refine .inr ⟨l.length - 4, hle, ?_, ?_⟩
    · rw [← htake, recvRaw_stream hle hlt] at hr
      exact (Option.some.inj hr).symm
    · have hback := congrArg (List.drop l.length) hl
      rwa [List.drop_left, List.drop_append, length_be32, List.drop_of_length_le h, List.nil_append,
        eq_comm] at hback

/-- In every interleaving of the host and the board, the board's memory differs from what it was only
by the first bytes of the file at `kernel_addr`, it has sent one mark for each 1024 of them, and it
jumps to the kernel only when the file is there as a whole. -/
theorem upload_safe (hb : sendData mode file = some blocks) (hlt : file.length < 2 ^ 31)
    (hr : Reach (Pipe.step Loader.recvRaw) (fun _ _ => True) (Upload.start blocks mem sent) s) :
    ∃ k ≤ file.length, s.reader.mem = storeBytes kernelAddr (file.take k) mem ∧
      (s.reader.point ≠ .kernel → s.reader.sent = sent ++ progressText k) ∧
      (s.reader.point = .kernel → k = file.length ∧
        s.reader.sent = sent ++ progressText k ++ uartSendString finishedText) := by
  obtain ⟨l, hl, hread⟩ := Pipe.read_of_reach hr
  rw [pending_start hb hlt] at hl
  obtain ⟨-, hmem, hsent, hpoint, -⟩ | ⟨k, hk, hreader, -⟩ := loader_cases hlt hl hread
  · refine ⟨0, Nat.zero_le _, ?_, fun _ => ?_, fun h => absurd h hpoint⟩
    · rw [hmem, List.take_zero, storeBytes_nil]
    · simp [hsent, progressText]
  · refine ⟨k, hk, by rw [hreader, Loader.after], ?_, ?_⟩
    all_goals
      rw [hreader]
      by_cases hmore : k < file.length
      · simp [Loader.after, hmore]
      · simp only [Loader.after, if_neg hmore]
        grind

theorem upload_safe_byte : ∃ s, run (Pipe.step Loader.recvRaw)
      (Upload.start [[0, 0, 0, 1], [7]] (fun _ => 0) []) [.write, .read, .read, .write, .read, .read, .read] =
      some s ∧
    ∃ k ≤ 1, s.reader.mem = storeBytes kernelAddr ([7].take k) (fun _ => 0) ∧
      (s.reader.point ≠ .kernel → s.reader.sent = [] ++ progressText k) ∧
      (s.reader.point = .kernel → k = 1 ∧
        s.reader.sent = [] ++ progressText k ++ uartSendString finishedText) := by
  have hsome : (run (Pipe.step Loader.recvRaw) (Upload.start [[0, 0, 0, 1], [7]] (fun _ => 0) [])
      [.write, .read, .read, .write, .read, .read, .read]).isSome := rfl
  obtain ⟨s, hs⟩ := Option.isSome_iff_exists.1 hsome
  exact ⟨s, hs, upload_safe (show sendData .byte [7] = some [[0, 0, 0, 1], [7]] from rfl) (by decide)
    (Reach.run .init (fun _ _ _ => trivial) hs)⟩

/-- Every interleaving ends, after one step for each write of the host and for each byte; and where
neither side can go on, the host has written all it has, the board has read all of it, and it jumped to
the kernel, which is the file. -/
theorem upload_complete (hb : sendData mode file = some blocks) (hlt : file.length < 2 ^ 31) :
    (∀ ms s, run (Pipe.step Loader.recvRaw) (Upload.start blocks mem sent) ms = some s →
      ms.length ≤ blocks.length + (4 + file.length)) ∧
    ∀ s, Reach (Pipe.step Loader.recvRaw) (fun _ _ => True) (Upload.start blocks mem sent) s →
      (∀ m, Pipe.step Loader.recvRaw s m = none) →
      s.pending = [] ∧ s.reader.point = .kernel ∧ s.reader.mem = storeBytes kernelAddr file mem := by
  have hstart : (Upload.start blocks mem sent).pending = be32 file.length ++ file := pending_start hb hlt
  refine ⟨fun ms s h => ?_, fun s hr hstuck => ?_⟩
  · have hwork := Pipe.length_of_run h
    rw [show (Upload.start blocks mem sent).work = blocks.length + (4 + file.length) by
      rw [Pipe.State.work, hstart, List.length_append, length_be32]
      rfl] at hwork
    omega
  · obtain ⟨l, hl, hread⟩ := Pipe.read_of_reach hr
    rw [hstart] at hl
    obtain ⟨-, hrefuses⟩ := Pipe.pending_of_stuck hstuck
    obtain ⟨hheader, -, -, -, hreads⟩ | ⟨k, hk, hreader, hrest⟩ := loader_cases hlt hl hread
    · cases hp : s.pending with
      | nil =>
          rw [hp, List.append_nil] at hl
          have hlen := congrArg List.length hl
          rw [List.length_append, length_be32] at hlen
          omega
      | cons c rest => exact absurd (hrefuses c rest hp) (hreads c)
    · have hwhole : k = file.length := by
        by_contra hne
        have hmore : k < file.length := by omega
        have hnone := hrefuses file[k] (file.drop (k + 1)) (by rw [hrest, List.drop_eq_getElem_cons hmore])
        rw [hreader, recvRaw_body hmore hlt] at hnone
        contradiction
      rw [hrest, hreader, hwhole, List.drop_length]
      simp [Loader.after]

theorem upload_complete_block :
    (∀ ms s, run (Pipe.step Loader.recvRaw) (Upload.start [[0, 0, 0, 1], [7]] (fun _ => 0) []) ms = some s →
      ms.length ≤ 2 + (4 + 1)) ∧
    ∀ s, Reach (Pipe.step Loader.recvRaw) (fun _ _ => True)
        (Upload.start [[0, 0, 0, 1], [7]] (fun _ => 0) []) s →
      (∀ m, Pipe.step Loader.recvRaw s m = none) →
      s.pending = [] ∧ s.reader.point = .kernel ∧ s.reader.mem = storeBytes kernelAddr [7] (fun _ => 0) :=
  upload_complete (show sendData .block [7] = some [[0, 0, 0, 1], [7]] by
    simp [sendData, sendByBlock, toBytes4, be32, readBlocks]) (by decide)

end RpiKernel
