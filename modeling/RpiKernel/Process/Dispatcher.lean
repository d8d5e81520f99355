import RpiKernel.Process.Syscall
import RpiKernel.Sched.Lifecycle

/-!
# RpiKernel.Process.Dispatcher

The system calls of `sync_64_router`, with every index they use in one of the
kernel's tables: `threads`, `sigcount`, `signal_handler` and
`file_descriptors_table`.

A call keeps the list of its accesses.  After an access outside of a table
nothing is followed, but the access is on the list.
-/

namespace RpiKernel

/-! ## table accesses -/

/-- An index used in a table. -/
inductive Access where
  | threads (i : Int)
  | sigcount (i : Int)
  | signalHandler (i : Int)
  | fileDescriptorsTable (i : Int)
deriving Repr, DecidableEq

/-- The index is one of the table's. -/
def Access.InBounds : Access → Prop
  | threads i => 0 ≤ i ∧ i ≤ maxThreadCount
  | sigcount i => 0 ≤ i ∧ i ≤ signalMax
  | signalHandler i => 0 ≤ i ∧ i ≤ signalMax
  | fileDescriptorsTable i => 0 ≤ i ∧ i ≤ maxFd

instance (a : Access) : Decidable a.InBounds := by
  cases a <;> unfold Access.InBounds <;> infer_instance

/-- A system call: its accesses in their order, its result and the state after
it. -/
def CallM (α : Type) := Kernel → List Access × Option (α × Kernel)

namespace CallM

variable {α β : Type}

/-- The second call after the first. -/
def bind (m : CallM α) (f : α → CallM β) : CallM β := fun k =>
  match m k with
  | (l, none) => (l, none)
  | (l, some (a, k)) => (l ++ (f a k).1, (f a k).2)

instance : Monad CallM where
  pure a := fun k => ([], some (a, k))
  bind := bind

/-- Kernel code that uses no index of its caller. -/
def lift (m : KernelM α) : CallM α := fun k => ([], m k)

/-- One access. -/
def access (a : Access) : CallM Unit := fun k => ([a], if a.InBounds then some ((), k) else none)

/-- The accesses of a loop. -/
def accessAll : List Access → CallM Unit
  | [] => pure ()
  | a :: as => do
      access a
      accessAll as

/-- The state. -/
def get : CallM Kernel := fun k => ([], some (k, k))

end CallM

open CallM

/-! ## trapframe and answers -/

/-- The registers in a `trapframe_t` that system calls use. -/
structure Trapframe where
  x0 : BitVec 64
  x1 : BitVec 64
  x2 : BitVec 64
  x3 : BitVec 64
  x4 : BitVec 64
  x5 : BitVec 64
  x8 : BitVec 64
  elrEl1 : BitVec 64
  spEl0 : BitVec 64
deriving Repr, DecidableEq

/-- What a call finds outside of the kernel's tables: the file that the path of
`exec` leads to, what `vfs_open` finds, the path of `chdir`, the registers, what
the file system does for the other calls and answers, and how many passes loops
may make. -/
structure Answers where
  execFile : Option Kernel.ExecFile
  openTarget : Kernel.OpenTarget
  path : List Char
  cpu : ThreadContext
  transfer : Nat → KernelM Nat
  mkdir : KernelM Nat
  mount : KernelM Nat
  passes : Nat

namespace Call

/-! ## calls with an index -/

/-- `kill`. -/
def kill (n : Nat) (pid : Int) : CallM Unit := do
  if pid ≥ maxThreadCount ∨ pid < 0 then
    return ()
  else
    access (.threads pid)
    if (← get).sched.status pid.toNat = .free then
      return ()
    else
      access (.threads pid)
      lift (Kernel.onSched fun s => schedule n (s.setStatus pid.toNat .zombie))

/-- `signal_register`. -/
def signalRegister (signal : Int) (handler : Nat) : CallM Unit := do
  if signal > signalMax ∨ signal < 0 then
    return ()
  else
    access (.signalHandler signal)
    lift (Kernel.signalRegister signal handler)

/-- `signal_kill`. -/
def signalKill (pid signal : Int) : CallM Unit := do
  if pid > maxThreadCount ∨ pid < 0 then
    return ()
  else
    access (.threads pid)
    if (← get).sched.status pid.toNat = .free then
      return ()
    else
      access (.threads pid)
      access (.sigcount signal)
      lift (Kernel.modifyProc pid.toNat fun p => { p with
        sigcount := Function.update p.sigcount signal.toNat (p.sigcount signal.toNat + 1) })

/-- `close`. -/
def close (fd : Int) : CallM (BitVec 64) := do
  access (.fileDescriptorsTable fd)
  if ← lift (Kernel.close fd) then
    return 0
  else
    return -1

/-- `write` and `read`: `transfer` is `vfs_write` or `vfs_read` with the handle. -/
def transfer (fd : Int) (transfer : Nat → KernelM Nat) : CallM (BitVec 64) := do
  access (.fileDescriptorsTable fd)
  let k ← get
  let f := (k.procs k.sched.currThread).fileDescriptorsTable fd.toNat
  if f = 0 then
    return -1
  else
    return BitVec.ofNat 64 (← lift (transfer f))

/-! ## calls with loops over tables -/

/-- The accesses of a loop over the first `n` indices. -/
def upTo (n : Nat) (table : Int → Access) : List Access := (List.range n).map fun i : Nat => table i

/-- `exec` resets every handler. -/
def exec (file : Option Kernel.ExecFile) : CallM Unit := do
  lift (Kernel.exec file)
  accessAll (upTo (signalMax + 1) .signalHandler)

/-- The slots that `thread_create` looks at, up to the first free one. -/
def slots (s : Sched) : List Access :=
  match findFree s (maxThreadCount + 1) 0 with
  | none => upTo (maxThreadCount + 1) .threads
  | some th => upTo (th + 1) .threads

/-- `fork`: the slots, the loop of `thread_create` over the signals, and the two
loops over handlers and files. -/
def fork (cpu : ThreadContext) : CallM Nat := do
  accessAll (slots (← get).sched)
  accessAll (upTo signalMax .signalHandler)
  accessAll (upTo signalMax .sigcount)
  accessAll (upTo (signalMax + 1) .signalHandler)
  accessAll (upTo (maxFd + 1) .fileDescriptorsTable)
  lift (Kernel.fork cpu)

/-- `open` looks for a free `fd`. -/
def openFile (target : Kernel.OpenTarget) (flags : Nat) : CallM (BitVec 64) := do
  let k ← get
  let table := (k.procs k.sched.currThread).fileDescriptorsTable
  let used := (List.range maxFd).takeWhile fun i => table i ≠ 0
  accessAll (upTo (min maxFd (used.length + 1)) .fileDescriptorsTable)
  match ← lift (Kernel.openFile target flags) with
  | none => return -1
  | some i => return BitVec.ofNat 64 i

end Call

/-! ## the dispatcher -/

/-- The system calls of `sync_64_router`; the trapframe that a call leaves.
`sigreturn` does not come back. -/
def sync64Router (env : Answers) (tpf : Trapframe) : CallM Trapframe := do
  match tpf.x8.toNat with
  | 0 => return { tpf with x0 := BitVec.ofNat 64 (← get).sched.currThread }
  | 1 | 2 => return { tpf with x0 := tpf.x1 }
  | 3 =>
      Call.exec env.execFile
      return { tpf with
        elrEl1 := BitVec.ofNat 64 userKernelBase, spEl0 := BitVec.ofNat 64 userStackBase, x0 := 0 }
  | 4 => return { tpf with x0 := BitVec.ofNat 64 (← Call.fork env.cpu) }
  | 5 =>
      lift (Kernel.onSched fun s => some (exit s))
      return tpf
  | 6 => return { tpf with x0 := 8 }
  | 7 =>
      Call.kill env.passes (toInt tpf.x0.toNat)
      return tpf
  | 8 =>
      Call.signalRegister (toInt tpf.x0.toNat) tpf.x1.toNat
      return tpf
  | 9 =>
      Call.signalKill (toInt tpf.x0.toNat) (toInt tpf.x1.toNat)
      return tpf
  | 10 =>
      let addr ← lift (Kernel.mmap env.passes tpf.x0.toNat tpf.x1.toNat tpf.x2.toNat)
      return { tpf with x0 := BitVec.ofNat 64 addr }
  | 50 => lift failure
  | 11 => return { tpf with x0 := ← Call.openFile env.openTarget tpf.x1.toNat }
  | 12 => return { tpf with x0 := ← Call.close (toInt tpf.x0.toNat) }
  | 13 | 14 => return { tpf with x0 := ← Call.transfer (toInt tpf.x0.toNat) env.transfer }
  | 15 => return { tpf with x0 := BitVec.ofNat 64 (← lift env.mkdir) }
  | 16 => return { tpf with x0 := BitVec.ofNat 64 (← lift env.mount) }
  | 17 =>
      lift (Kernel.chdir env.path)
      return tpf
  | _ => return tpf

/-- The indices that the caller passes. -/
def Trapframe.indices (tpf : Trapframe) : List Access :=
  match tpf.x8.toNat with
  | 7 => [.threads (toInt tpf.x0.toNat)]
  | 8 => [.signalHandler (toInt tpf.x0.toNat)]
  | 9 => [.threads (toInt tpf.x0.toNat), .sigcount (toInt tpf.x1.toNat)]
  | 12 | 13 | 14 => [.fileDescriptorsTable (toInt tpf.x0.toNat)]
  | _ => []

/-- A call stays in the tables, and changes nothing when one of its indices is
outside. -/
def InTables (env : Answers) (tpf : Trapframe) (k : Kernel) : Prop :=
  (∀ a ∈ (sync64Router env tpf k).1, a.InBounds) ∧
    ((∃ a ∈ tpf.indices, ¬ a.InBounds) → ∃ tpf', (sync64Router env tpf k).2 = some (tpf', k))

/-! ## accesses in bounds -/

section

variable {α β : Type} {m : CallM α} {f : α → CallM β} {k : Kernel}

/-- Every access is in bounds. -/
def Bounded (m : CallM α) : Prop := ∀ k, ∀ a ∈ (m k).1, a.InBounds

theorem Bounded.bind (hm : Bounded m) (hf : ∀ a, Bounded (f a)) : Bounded (m >>= f) := by
  intro k a ha
  have hk := hm k
  change a ∈ (CallM.bind m f k).1 at ha
  unfold CallM.bind at ha
  split at ha
  next l h =>
    rw [h] at hk
    exact hk a ha
  next l x k' h =>
    rw [h] at hk
    exact (List.mem_append.1 ha).elim (hk a) (hf x k' a)

theorem bounded_pure (a : α) : Bounded (pure a : CallM α) := fun _ _ h => absurd h List.not_mem_nil

theorem bounded_lift (m : KernelM α) : Bounded (lift m) := fun _ _ h => absurd h List.not_mem_nil

theorem bounded_get : Bounded CallM.get := fun _ _ h => absurd h List.not_mem_nil

theorem bounded_access {a : Access} (h : a.InBounds) : Bounded (access a) := fun _ _ hb =>
  List.mem_singleton.1 hb ▸ h

/-- An access at the beginning of a call is on its list. -/
theorem mem_access_bind (a : Access) (g : Unit → CallM β) : a ∈ ((access a >>= g) k).1 := by
  by_cases ha : a.InBounds
  · simp [Bind.bind, CallM.bind, access, ha]
  · simp [Bind.bind, CallM.bind, access, ha]

theorem bounded_accessAll {l : List Access} (h : ∀ a ∈ l, a.InBounds) : Bounded (accessAll l) := by
  induction l with
  | nil => exact bounded_pure ()
  | cons a l ih =>
      obtain ⟨ha, hl⟩ := List.forall_mem_cons.1 h
      exact (bounded_access ha).bind fun _ => ih hl

end

namespace Call

variable {k : Kernel} {pid signal fd : Int} {n : Nat}

theorem bounded_upTo {table : Int → Access} (h : ∀ i : Nat, i < n → (table i).InBounds) :
    Bounded (accessAll (upTo n table)) := by
  refine bounded_accessAll fun a ha => ?_
  obtain ⟨i, hi, rfl⟩ := List.mem_map.1 ha
  exact h i (List.mem_range.1 hi)

theorem bounded_signalHandlers : Bounded (accessAll (upTo (signalMax + 1) .signalHandler)) :=
  bounded_upTo fun i hi => ⟨by omega, by omega⟩

theorem bounded_exec (file : Option Kernel.ExecFile) : Bounded (exec file) :=
  (bounded_lift _).bind fun _ => bounded_signalHandlers

theorem bounded_slots (s : Sched) : Bounded (accessAll (slots s)) := by
  unfold slots
  split
  next => exact bounded_upTo fun i hi => ⟨by omega, by omega⟩
  next th h =>
    have hlt := (findFree_spec h).2.2
    exact bounded_upTo fun i hi => ⟨by omega, by omega⟩

theorem bounded_fork (cpu : ThreadContext) : Bounded (fork cpu) := by
  have hhandlers : Bounded (accessAll (upTo signalMax .signalHandler)) :=
    bounded_upTo fun i hi => ⟨by omega, by omega⟩
  have hcounts : Bounded (accessAll (upTo signalMax .sigcount)) :=
    bounded_upTo fun i hi => ⟨by omega, by omega⟩
  have hfiles : Bounded (accessAll (upTo (maxFd + 1) .fileDescriptorsTable)) :=
    bounded_upTo fun i hi => ⟨by omega, by omega⟩
  exact bounded_get.bind fun k => (bounded_slots _).bind fun _ => hhandlers.bind fun _ =>
    hcounts.bind fun _ => bounded_signalHandlers.bind fun _ => hfiles.bind fun _ => bounded_lift _

theorem bounded_openFile (target : Kernel.OpenTarget) (flags : Nat) :
    Bounded (openFile target flags) := by
  refine bounded_get.bind fun k => Bounded.bind ?_ fun _ => (bounded_lift _).bind fun r => ?_
  · refine bounded_upTo fun i hi => ⟨by omega, ?_⟩
    have hmin := Nat.lt_of_lt_of_le hi (Nat.min_le_left _ _)
    omega
  · cases r with
    | none => exact bounded_pure _
    | some i => exact bounded_pure _

/-- `kill` uses the indices that its checks let through. -/
theorem bounded_kill : Bounded (kill n pid) := by
  unfold kill
  split
  next => exact bounded_pure ()
  next h =>
    obtain ⟨hle, hlt⟩ := not_or.1 h
    have hpid : (Access.threads pid).InBounds := ⟨by omega, by omega⟩
    refine (bounded_access hpid).bind fun _ => bounded_get.bind fun k => ?_
    split
    next => exact bounded_pure ()
    next => exact (bounded_access hpid).bind fun _ => bounded_lift _

/-- `kill` refuses a `pid` outside of the table. -/
theorem kill_refused (h : ¬ (Access.threads pid).InBounds) : kill n pid k = ([], some ((), k)) := by
  unfold kill
  rw [if_pos]
  · rfl
  · by_contra hc
    obtain ⟨hle, hlt⟩ := not_or.1 hc
    exact h ⟨by omega, by omega⟩

/-- `signal_register` uses the indices that its check lets through. -/
theorem bounded_signalRegister {handler : Nat} : Bounded (signalRegister signal handler) := by
  unfold signalRegister
  split
  next => exact bounded_pure ()
  next h =>
    obtain ⟨hle, hlt⟩ := not_or.1 h
    have hsignal : (Access.signalHandler signal).InBounds := ⟨by omega, by omega⟩
    exact (bounded_access hsignal).bind fun _ => bounded_lift _

/-- `signal_register` refuses a signal outside of the table. -/
theorem signalRegister_refused {handler : Nat} (h : ¬ (Access.signalHandler signal).InBounds) :
    signalRegister signal handler k = ([], some ((), k)) := by
  unfold signalRegister
  rw [if_pos]
  · rfl
  · by_contra hc
    obtain ⟨hle, hlt⟩ := not_or.1 hc
    exact h ⟨by omega, by omega⟩

/-- `signal_kill` goes on with the threads that its checks let through. -/
def Signalled (k : Kernel) (pid : Int) : Prop :=
  (0 ≤ pid ∧ pid ≤ maxThreadCount) ∧ k.sched.status pid.toNat ≠ .free

/-- `signal_kill` refuses any other `pid`. -/
theorem signalKill_refused (h : ¬ Signalled k pid) :
    (∀ a ∈ (signalKill pid signal k).1, a.InBounds) ∧
      (signalKill pid signal k).2 = some ((), k) := by
  unfold signalKill
  by_cases hpid : pid > maxThreadCount ∨ pid < 0
  · rw [if_pos hpid]
    exact ⟨bounded_pure () k, rfl⟩
  · obtain ⟨hle, hlt⟩ := not_or.1 hpid
    have hin : (Access.threads pid).InBounds := ⟨by omega, by omega⟩
    have hfree : k.sched.status pid.toNat = .free := by_contra fun hf => h ⟨hin, hf⟩
    rw [if_neg hpid]
    simp only [Bind.bind, CallM.bind, access, CallM.get, if_pos hin, hfree]
    exact ⟨fun a ha => (List.mem_singleton.1 ha) ▸ hin, rfl⟩

/-- It uses the signal without a check. -/
theorem signalKill_accesses (h : Signalled k pid) :
    (signalKill pid signal k).1 = [.threads pid, .threads pid, .sigcount signal] := by
  obtain ⟨hin, hfree⟩ := h
  have hin' : (Access.threads pid).InBounds := hin
  unfold signalKill
  rw [if_neg (by omega)]
  simp only [Bind.bind, CallM.bind, access, CallM.get, if_pos hin', if_neg hfree]
  by_cases hs : (Access.sigcount signal).InBounds
  · simp only [if_pos hs]
    rfl
  · simp only [if_neg hs]
    rfl

/-- `close` uses its `fd` without a check. -/
theorem close_inBounds :
    (∀ a ∈ (close fd k).1, a.InBounds) ↔ (Access.fileDescriptorsTable fd).InBounds := by
  constructor
  case mp => exact fun h => h _ (mem_access_bind _ _)
  case mpr =>
    intro h
    refine Bounded.bind (bounded_access h) (fun _ => (bounded_lift _).bind fun r => ?_) k
    cases r with
    | false => exact bounded_pure _
    | true => exact bounded_pure _

/-- So do `write` and `read`. -/
theorem transfer_inBounds {io : Nat → KernelM Nat} :
    (∀ a ∈ (transfer fd io k).1, a.InBounds) ↔ (Access.fileDescriptorsTable fd).InBounds := by
  constructor
  case mp => exact fun h => h _ (mem_access_bind _ _)
  case mpr =>
    intro h
    refine Bounded.bind (bounded_access h) (fun _ => bounded_get.bind fun k' => ?_) k
    dsimp only
    split
    next => exact bounded_pure _
    next => exact (bounded_lift _).bind fun r => bounded_pure _

end Call

/-! ## the dispatcher's calls -/

variable {env : Answers} {tpf : Trapframe} {k : Kernel}

/-- What comes after a call uses no table. -/
theorem accesses_map {α β : Type} (m : CallM α) (f : α → β) :
    ((m >>= fun a => pure (f a)) k).1 = (m k).1 := by
  simp only [Bind.bind, CallM.bind]
  split
  next h => rw [h]
  next h =>
    rw [h]
    exact List.append_nil _

theorem result_map {α β : Type} {m : CallM α} {f : α → β} {a : α} {k' : Kernel}
    (h : (m k).2 = some (a, k')) : ((m >>= fun a => pure (f a)) k).2 = some (f a, k') := by
  have hm : m k = ((m k).1, some (a, k')) := Prod.ext rfl h
  simp only [Bind.bind, CallM.bind]
  rw [hm]
  rfl

/-- Calls without an index and those that check it stay in the tables. -/
theorem bounded_sync64Router (h9 : tpf.x8.toNat ≠ 9) (h12 : tpf.x8.toNat ≠ 12)
    (h13 : tpf.x8.toNat ≠ 13) (h14 : tpf.x8.toNat ≠ 14) : Bounded (sync64Router env tpf) := by
  unfold sync64Router
  split
  case h_1 => exact bounded_get.bind fun k => bounded_pure _
  case h_4 => exact (Call.bounded_exec _).bind fun _ => bounded_pure _
  case h_5 => exact (Call.bounded_fork _).bind fun _ => bounded_pure _
  case h_8 => exact Call.bounded_kill.bind fun _ => bounded_pure _
  case h_9 => exact Call.bounded_signalRegister.bind fun _ => bounded_pure _
  case h_10 h => exact absurd h h9
  case h_13 => exact (Call.bounded_openFile _ _).bind fun _ => bounded_pure _
  case h_14 h => exact absurd h h12
  case h_15 h => exact absurd h h13
  case h_16 h => exact absurd h h14
  all_goals
    first
    | exact bounded_pure _
    | exact bounded_lift _
    | exact (bounded_lift _).bind fun _ => bounded_pure _

/-- `signal_kill` stays in the tables if and only if the signal exists, or the
`pid` is refused. -/
theorem signalKill_inTables (h9 : tpf.x8.toNat = 9) : InTables env tpf k ↔
    (Call.Signalled k (toInt tpf.x0.toNat) →
      0 ≤ toInt tpf.x1.toNat ∧ toInt tpf.x1.toNat ≤ signalMax) := by
  have hrun : sync64Router env tpf =
      Call.signalKill (toInt tpf.x0.toNat) (toInt tpf.x1.toNat) >>= fun _ => pure tpf := by
    unfold sync64Router
    simp only [h9]
  have hindices : tpf.indices =
      [.threads (toInt tpf.x0.toNat), .sigcount (toInt tpf.x1.toNat)] := by
    unfold Trapframe.indices
    simp only [h9]
  unfold InTables
  rw [hrun, accesses_map, hindices]
  by_cases hs : Call.Signalled k (toInt tpf.x0.toNat)
  · rw [Call.signalKill_accesses hs]
    constructor
    case mp => exact fun h _ => h.1 (.sigcount _) (by simp only [List.mem_cons, true_or, or_true])
    case mpr =>
      intro h
      have hall : ∀ a ∈ [Access.threads (toInt tpf.x0.toNat), .sigcount (toInt tpf.x1.toNat)],
          a.InBounds := fun a ha => by
        rcases List.mem_pair.1 ha with rfl | rfl
        · exact hs.1
        · exact h hs
      exact ⟨List.forall_mem_cons.2 ⟨hs.1, hall⟩, fun ⟨a, ha, hn⟩ => absurd (hall a ha) hn⟩
  · obtain ⟨hin, hr⟩ := Call.signalKill_refused hs
    exact iff_of_true ⟨hin, fun _ => ⟨tpf, result_map hr⟩⟩ fun h => absurd h hs

/-- `close`, `write` and `read` stay in the tables if and only if the `fd` is
one of the table's. -/
theorem file_inTables (hfile : tpf.x8.toNat ∈ [12, 13, 14]) : InTables env tpf k ↔
    0 ≤ toInt tpf.x0.toNat ∧ toInt tpf.x0.toNat ≤ maxFd := by
  have haccesses : (∀ a ∈ (sync64Router env tpf k).1, a.InBounds) ↔
      (Access.fileDescriptorsTable (toInt tpf.x0.toNat)).InBounds := by
    unfold sync64Router
    simp only [List.mem_cons, List.not_mem_nil, or_false] at hfile
    rcases hfile with h | h | h
    · simp only [h]
      rw [accesses_map, Call.close_inBounds]
    · simp only [h]
      rw [accesses_map, Call.transfer_inBounds]
    · simp only [h]
      rw [accesses_map, Call.transfer_inBounds]
  have hindices : tpf.indices = [.fileDescriptorsTable (toInt tpf.x0.toNat)] := by
    unfold Trapframe.indices
    simp only [List.mem_cons, List.not_mem_nil, or_false] at hfile
    rcases hfile with h | h | h
    · simp only [h]
    · simp only [h]
    · simp only [h]
  unfold InTables
  rw [haccesses, hindices]
  refine and_iff_left_of_imp fun hin ⟨a, ha, hn⟩ => ?_
  rw [List.mem_singleton.1 ha] at hn
  exact absurd hin hn

/-- Any other call stays in the tables. -/
theorem other_inTables (h9 : tpf.x8.toNat ≠ 9) (hfile : tpf.x8.toNat ∉ [12, 13, 14]) :
    InTables env tpf k := by
  simp only [List.mem_cons, List.not_mem_nil, or_false, not_or] at hfile
  refine ⟨bounded_sync64Router h9 hfile.1 hfile.2.1 hfile.2.2 k, fun ⟨a, ha, hn⟩ => ?_⟩
  refine ⟨tpf, ?_⟩
  unfold Trapframe.indices at ha
  split at ha
  next h7 =>
    rw [List.mem_singleton.1 ha] at hn
    unfold sync64Router
    simp only [h7]
    exact result_map (congrArg Prod.snd (Call.kill_refused hn))
  next h8 =>
    rw [List.mem_singleton.1 ha] at hn
    unfold sync64Router
    simp only [h8]
    exact result_map (congrArg Prod.snd (Call.signalRegister_refused hn))
  next h => exact absurd h h9
  next h => exact absurd h hfile.1
  next h => exact absurd h hfile.2.1
  next h => exact absurd h hfile.2.2
  next => contradiction

/-- A call stays in the tables, and changes nothing when it is given an index
outside of one, if and only if `signal_kill` is given a signal that exists
whenever it does not refuse the `pid`, and `close`, `write` and `read` are given
an `fd` of the table. -/
theorem sync64Router_inTables (env : Answers) (tpf : Trapframe) (k : Kernel) :
    InTables env tpf k ↔
      (tpf.x8.toNat = 9 → Call.Signalled k (toInt tpf.x0.toNat) →
        0 ≤ toInt tpf.x1.toNat ∧ toInt tpf.x1.toNat ≤ signalMax) ∧
      (tpf.x8.toNat ∈ [12, 13, 14] → 0 ≤ toInt tpf.x0.toNat ∧ toInt tpf.x0.toNat ≤ maxFd) := by
  by_cases h9 : tpf.x8.toNat = 9
  · rw [signalKill_inTables h9]
    have hfile : tpf.x8.toNat ∉ [12, 13, 14] := by
      rw [h9]
      decide
    exact ⟨fun h => ⟨fun _ => h, fun hm => absurd hm hfile⟩, fun h => h.1 h9⟩
  by_cases hfile : tpf.x8.toNat ∈ [12, 13, 14]
  · rw [file_inTables hfile]
    exact ⟨fun h => ⟨fun he => absurd he h9, fun _ => h⟩, fun h => h.2 hfile⟩
  · exact iff_of_true (other_inTables h9 hfile)
      ⟨fun he => absurd he h9, fun hm => absurd hm hfile⟩

/-- The trapframe of `close(17)`. -/
def closeTrapframe : Trapframe := ⟨17, 0, 0, 0, 0, 0, 12, 0, 0⟩

/-- `close(17)` reads behind the table, whatever the state is. -/
theorem sync64Router_close : toInt closeTrapframe.x0.toNat = 17 ∧ ∀ env k,
    .fileDescriptorsTable 17 ∈ (sync64Router env closeTrapframe k).1 ∧
      ¬ InTables env closeTrapframe k := by
  have h17 : toInt closeTrapframe.x0.toNat = 17 := by decide
  refine ⟨h17, fun env k => ⟨?_, fun h => ?_⟩⟩
  · have hrun : sync64Router env closeTrapframe =
        (Call.close (toInt closeTrapframe.x0.toNat) >>= fun x0 =>
          pure { closeTrapframe with x0 := x0 }) := rfl
    rw [hrun, accesses_map, h17]
    exact mem_access_bind _ _
  · have hin := (file_inTables (by decide)).1 h
    rw [h17] at hin
    exact absurd hin.2 (by decide)

end RpiKernel
