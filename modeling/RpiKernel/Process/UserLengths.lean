import RpiKernel.Lib.Words
import RpiKernel.Process.WorkingDirs

/-!
# RpiKernel.Process.UserLengths

Lengths that come from the user: the size in the first word of a mailbox message, and paths.

`syscall_mbox_call` copies as many bytes as the message says it has, into the 36 words of `pt`
and back.  The calls with a path copy it into `abs_path` first; the checks are in
`get_absolute_path`, which comes after that, and what it writes back is no longer than what
it was given (`length_getAbsolutePath`).  So both stay inside of their buffers just when the
length fits to begin with (`userLengths_iff`).
-/

namespace RpiKernel

open Bytes

/-! ## the mailbox -/

/-- The bytes of `pt`. -/
def ptBytes : Nat := 36 * 4

/-- `utils_memcpy`, on what is at `dst` and at `src`; with the offsets that it goes through.  The
length has no sign, and the index has one. -/
def utilsMemcpy (dst src : Int → UInt8) (len : BitVec 32) : (Int → UInt8) × List Int :=
  (List.range len.toNat).foldl (fun (r : (Int → UInt8) × List Int) (i : Nat) =>
    let i := (i : Int).bmod (2 ^ 32)
    (Function.update r.1 i (src i), r.2 ++ [i])) (dst, [])

/-- `mbox_user[0]`. -/
def sizeOfMbox (mboxUser : Int → UInt8) : BitVec 32 := BitVec.ofNat 32 (loadWord (fun i => mboxUser i) 0)

/-- `syscall_mbox_call`, where `mailboxCall` is what the mailbox makes of the message: `pt`, the
message of the user, and the offsets in `pt` that the two copies go through. -/
def syscallMboxCall (mailboxCall : (Int → UInt8) → Int → UInt8) (pt mboxUser : Int → UInt8) :
    (Int → UInt8) × (Int → UInt8) × List Int :=
  let size := sizeOfMbox mboxUser
  let stored := utilsMemcpy pt mboxUser size
  let pt := mailboxCall stored.1
  let loaded := utilsMemcpy mboxUser pt size
  (pt, loaded.1, stored.2 ++ loaded.2)

/-! ## the paths -/

/-- The offsets that `strcpy` stores to: the characters, and what ends the string. -/
def strcpyOffsets (src : List Char) : List Nat := List.range (src.length + 1)

/-- Where `get_absolute_path` returns before it resolves anything. -/
def TooLong (path currWorkingDir : List Char) : Prop :=
  if path.head? ≠ some '/' then currWorkingDir.length + path.length + 2 > maxPathName
  else path.length > maxPathName

instance (path currWorkingDir : List Char) : Decidable (TooLong path currWorkingDir) :=
  inferInstanceAs (Decidable (if path.head? ≠ some '/' then _ else _))

/-- The offsets in `path` that `get_absolute_path` stores to. -/
def getAbsolutePathOffsets (path currWorkingDir : List Char) : List Nat :=
  if TooLong path currWorkingDir then [] else strcpyOffsets (getAbsolutePath path currWorkingDir)

/-- The offsets that a call stores to. -/
structure PathStores where
  absPath : List Nat
  currWorkingDir : List Nat

/-- The first lines of the calls with a path. -/
def absPathStores (path currWorkingDir : List Char) : PathStores :=
  ⟨strcpyOffsets path ++ getAbsolutePathOffsets path currWorkingDir, []⟩

/-- `open`. -/
def openStores (pathname currWorkingDir : List Char) : PathStores := absPathStores pathname currWorkingDir

/-- `mkdir`. -/
def mkdirStores (pathname currWorkingDir : List Char) : PathStores := absPathStores pathname currWorkingDir

/-- `mount`. -/
def mountStores (target currWorkingDir : List Char) : PathStores := absPathStores target currWorkingDir

/-- `exec`. -/
def execStores (name currWorkingDir : List Char) : PathStores := absPathStores name currWorkingDir

/-- `chdir`, which copies `abs_path` to `curr_working_dir`. -/
def chdirStores (path currWorkingDir : List Char) : PathStores :=
  { absPathStores path currWorkingDir with
    currWorkingDir := strcpyOffsets (getAbsolutePath path currWorkingDir) }

/-- Every store is inside of the `MAX_PATH_NAME` bytes of `abs_path`, or of the
`MAX_PATH_NAME + 1` bytes of `curr_working_dir`. -/
def PathStores.Inside (s : PathStores) : Prop :=
  (∀ o ∈ s.absPath, o < maxPathName) ∧ ∀ o ∈ s.currWorkingDir, o < maxPathName + 1

/-! ## how long a path gets -/

variable {path cwd : List Char}

theorem length_parentPath (p : List Char) : (parentPath p).length ≤ p.length := by
  simp [parentPath]

/-- Resolving takes characters away. -/
theorem length_resolveDots (cs : List Char) (k : Nat) (absolutePath : List Char) :
    (resolveDots cs k absolutePath).length ≤ absolutePath.length + cs.length := by
  have hparent := length_parentPath
  fun_induction resolveDots cs k absolutePath <;> grind

/-- The second step gives one character at least. -/
theorem length_resolvePath (p : List Char) : (resolvePath p).length ≤ max 1 p.length := by
  have hle := length_resolveDots p 0 []
  unfold resolvePath
  grind

/-- A path that fits `abs_path` is still shorter than it when it is written back, from any working
directory. -/
theorem length_getAbsolutePath (hpath : path.length < maxPathName) :
    (getAbsolutePath path cwd).length < maxPathName := by
  have hmax : maxPathName = 255 := rfl
  unfold getAbsolutePath
  split
  · split
    · exact hpath
    · split
      · have hle := length_resolvePath (cwd ++ ['/'] ++ path)
        simp only [List.length_append, List.length_singleton] at hle
        omega
      · have hle := length_resolvePath (cwd ++ path)
        simp only [List.length_append] at hle
        omega
  · split
    · exact hpath
    · have hle := length_resolvePath path
      omega

/-! ## inside of the buffers -/

theorem strcpyOffsets_inside {src : List Char} {n : Nat} : (∀ o ∈ strcpyOffsets src, o < n) ↔ src.length < n := by
  simp only [strcpyOffsets, List.mem_range]
  grind

theorem absPathStores_inside : (absPathStores path cwd).Inside ↔ path.length < maxPathName := by
  unfold PathStores.Inside absPathStores getAbsolutePathOffsets
  simp only [List.mem_append, or_imp, forall_and, strcpyOffsets_inside]
  refine ⟨fun h => h.1.1, fun hpath => ⟨⟨hpath, ?_⟩, by simp⟩⟩
  split
  · simp
  · exact strcpyOffsets_inside.2 (length_getAbsolutePath hpath)

theorem chdirStores_inside : (chdirStores path cwd).Inside ↔ path.length < maxPathName := by
  refine ⟨fun h => absPathStores_inside.1 ⟨h.1, by simp [absPathStores]⟩, fun hpath => ?_⟩
  refine ⟨(absPathStores_inside.2 hpath).1, strcpyOffsets_inside.2 ?_⟩
  exact Nat.lt_succ_of_lt (length_getAbsolutePath hpath)

/-- The offsets of a copy. -/
theorem utilsMemcpy_offsets (dst src : Int → UInt8) (len : BitVec 32) :
    (utilsMemcpy dst src len).2 = (List.range len.toNat).map fun i : Nat => (i : Int).bmod (2 ^ 32) := by
  unfold utilsMemcpy
  induction len.toNat with
  | zero => rfl
  | succ n ih =>
      rw [List.range_succ, List.foldl_append, List.map_append, ← ih]
      rfl

/-- A copy stays inside of a small buffer just when its length does. -/
theorem utilsMemcpy_inside {dst src : Int → UInt8} {len : BitVec 32} {n : Nat} (hn : n < 2 ^ 31) :
    (∀ o ∈ (utilsMemcpy dst src len).2, 0 ≤ o ∧ o < n) ↔ len.toNat ≤ n := by
  simp only [utilsMemcpy_offsets, List.mem_map, List.mem_range, forall_exists_index, and_imp,
    forall_apply_eq_imp_iff₂, Int.bmod_def]
  refine ⟨fun h => ?_, fun h i hi => by omega⟩
  by_contra hlt
  have hat := h n (by omega)
  omega

/-- **Lengths from the user.**  The two copies of `syscall_mbox_call` stay inside of `pt` if and only if
the first word of the message is at most 144, and the calls with a path stay inside of
`abs_path` and `curr_working_dir` if and only if the path has less than `MAX_PATH_NAME`
characters. -/
theorem userLengths_iff (mailboxCall : (Int → UInt8) → Int → UInt8) (pt mboxUser : Int → UInt8)
    (path currWorkingDir : List Char) :
    ((∀ o ∈ (syscallMboxCall mailboxCall pt mboxUser).2.2, 0 ≤ o ∧ o < ptBytes) ↔
      (sizeOfMbox mboxUser).toNat ≤ ptBytes) ∧
    ∀ stores ∈ [openStores, mkdirStores, mountStores, chdirStores, execStores],
      ((stores path currWorkingDir).Inside ↔ path.length < maxPathName) := by
  refine ⟨?_, ?_⟩
  · have hpt : ptBytes < 2 ^ 31 := by
      unfold ptBytes
      omega
    unfold syscallMboxCall
    rw [List.forall_mem_append, utilsMemcpy_inside hpt, utilsMemcpy_inside hpt, and_self]
  · simp only [List.forall_mem_cons, List.not_mem_nil, false_imp_iff, implies_true, and_true]
    exact ⟨absPathStores_inside, absPathStores_inside, absPathStores_inside, chdirStores_inside,
      absPathStores_inside⟩

/-- **One byte too many**: a message whose first word is 145 is copied over the end of `pt`, and a
path of 255 characters over the end of `abs_path`. -/
theorem userLengths_overrun :
    let mboxUser : Int → UInt8 := fun o => if o = 0 then 145 else 0
    144 ∈ (syscallMboxCall (fun pt => pt) (fun _ => 0) mboxUser).2.2 ∧
      ¬ (∀ o ∈ (syscallMboxCall (fun pt => pt) (fun _ => 0) mboxUser).2.2, 0 ≤ o ∧ o < ptBytes) ∧
      255 ∈ (openStores (List.replicate 255 'a') ['/']).absPath ∧
      ¬ (openStores (List.replicate 255 'a') ['/']).Inside := by
  intro mboxUser
  have hsize : (sizeOfMbox mboxUser).toNat = 145 := by decide
  have hpt : 144 ∈ (syscallMboxCall (fun pt => pt) (fun _ => 0) mboxUser).2.2 := by
    refine List.mem_append_left _ ?_
    rw [utilsMemcpy_offsets, List.mem_map]
    exact ⟨144, by simp [hsize], by decide⟩
  have hpath : 255 ∈ (openStores (List.replicate 255 'a') ['/']).absPath := by
    refine List.mem_append_left _ ?_
    rw [strcpyOffsets, List.length_replicate]
    exact List.mem_range.2 (by omega)
  refine ⟨hpt, fun h => ?_, hpath, fun h => ?_⟩
  · have hlt := (h 144 hpt).2
    unfold ptBytes at hlt
    omega
  · exact absurd (h.1 255 hpath) (by decide)

end RpiKernel
