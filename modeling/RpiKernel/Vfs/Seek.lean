import Mathlib.Algebra.Group.Int.Defs
import RpiKernel.Vfs.VfsRun

/-!
# RpiKernel.Vfs.Seek

Reads and writes of 64-bit lengths through handles that `lseek64` can put anywhere.

A read is cut to the rest of the file in arithmetic that wraps, and does what is meant
of it just when the handle is in the file and length and position do not wrap
(`vfsRead_toEnd`).  A write is not cut at all: the writes of a run stay in the pages of
their files just when every one of them fits (`vfsWrite_confined`).
-/

namespace RpiKernel

open Bytes Runs

/-- `SEEK_SET`. -/
def seekSet : Int := 0

namespace Vfs

/-! ## lseek64 -/

/-- The common body of the `lseek64`s: the value returned and the state. -/
def seekFile (file : Nat) (offset whence : Int) (s : Vfs) : Int × Vfs :=
  if whence = seekSet then
    let f := { s.files file with fPos := (offset % 2 ^ 64).toNat }
    (Int.bmod f.fPos (2 ^ 64), { s with files := Function.update s.files file f })
  else (-1, s)

/-- `tmpfs_lseek64`. -/
def tmpfsLseek64 (file : Nat) (offset whence : Int) (s : Vfs) : Int × Vfs :=
  s.seekFile file offset whence

/-- `initramfs_lseek64`. -/
def initramfsLseek64 (file : Nat) (offset whence : Int) (s : Vfs) : Int × Vfs :=
  s.seekFile file offset whence

/-- `f_ops->lseek64`; the devices are left out. -/
def lseek64 (file : Nat) (offset whence : Int) (s : Vfs) : Option (Int × Vfs) :=
  match (s.files file).fOps with
  | .tmpfs => some (s.tmpfsLseek64 file offset whence)
  | .initramfs => some (s.initramfsLseek64 file offset whence)
  | .uart | .framebuffer => none

/-! ## the file of a handle -/

/-- The handle is on a node of one of the two file systems. -/
def OnFile (s : Vfs) (file : Nat) : Prop :=
  (s.files file).fOps = .tmpfs ∨ (s.files file).fOps = .initramfs

/-- `datasize` of its inode. -/
def fileSize (s : Vfs) (file : Nat) : Nat :=
  match (s.files file).fOps with
  | .tmpfs => (s.inode (s.files file).vnode).datasize
  | _ => (s.ramInode (s.files file).vnode).datasize

/-- `data` of its inode. -/
def fileData (s : Vfs) (file : Nat) : Nat :=
  match (s.files file).fOps with
  | .tmpfs => (s.inode (s.files file).vnode).data
  | _ => (s.ramInode (s.files file).vnode).data

/-- The state with a handle at another position. -/
def moveTo (s : Vfs) (file fPos : Nat) : Vfs :=
  { s with files := Function.update s.files file { s.files file with fPos := fPos } }

end Vfs

/-! ## runs -/

/-- A call on a file: opening it with the handle that `kmalloc` gives, and what is done
with a handle. -/
inductive HandleCall where
  | open (n : Nat) (pathname : List Char) (flags handle : Nat)
  | close (handle : Nat)
  | read (handle len : Nat)
  | write (handle : Nat) (buf : List UInt8)
  | lseek64 (handle : Nat) (offset whence : Int)

/-- The file systems with the handles that are open. -/
structure OpenFiles where
  fs : Vfs
  live : List Nat

namespace OpenFiles

/-- No handle is open. -/
def fresh (s : Vfs) : OpenFiles := ⟨s, []⟩

/-- One call; `open` gets a block that is not in use, the others are on open handles. -/
def step (k : OpenFiles) : HandleCall → Option OpenFiles
  | .open n pathname flags handle =>
      if handle ∈ k.live then none
      else (k.fs.vfsOpen n pathname flags handle).map fun r =>
        ⟨r.2, if r.1 = 0 then handle :: k.live else k.live⟩
  | .close handle => if handle ∈ k.live then some ⟨k.fs, k.live.erase handle⟩ else none
  | .read handle len =>
      if handle ∈ k.live then (k.fs.vfsRead handle len).map fun r => ⟨r.2.2, k.live⟩ else none
  | .write handle buf =>
      if handle ∈ k.live then (k.fs.vfsWrite handle buf).map fun r => ⟨r.2, k.live⟩ else none
  | .lseek64 handle offset whence =>
      if handle ∈ k.live then (k.fs.lseek64 handle offset whence).map fun r => ⟨r.2, k.live⟩ else none

end OpenFiles

namespace Vfs

variable {s s' : Vfs} {h len : Nat}

/-! ## what the calls change -/

/-- `create` refuses, or it adds a node. -/
theorem create_state (dirNode target : Nat) (name : List Char) :
    (s.create dirNode target name).2.2 = s ∨
      ∃ idx, (s.create dirNode target name).2.2 = (s.tmpfsAdd .file dirNode idx name).2 := by
  unfold create tmpfsCreate tmpfsMake
  split
  · dsimp only
    split
    · exact Or.inl rfl
    · split
      · exact Or.inl rfl
      · split
        · exact Or.inl rfl
        · split
          · exact Or.inl rfl
          · exact Or.inr ⟨_, rfl⟩
  · exact Or.inl rfl

/-- `vfs_open` fails and leaves everything as it was, or it opens a node, perhaps a new
one. -/
theorem vfsOpen_state {n flags : Nat} {p : List Char} {r : Int}
    (ho : s.vfsOpen n p flags h = some (r, s')) : (r = -1 ∧ s' = s) ∨
      ∃ node s₁, r = 0 ∧ s' = s₁.openNode node h flags ∧
        (s₁ = s ∨ ∃ dirNode idx name, s₁ = (s.tmpfsAdd .file dirNode idx name).2) := by
  unfold vfsOpen at ho
  split at ho
  next => contradiction
  next node _ =>
    obtain ⟨rfl, rfl⟩ := Prod.mk.inj (Option.some.inj ho)
    exact Or.inr ⟨node, s, rfl, rfl, Or.inl rfl⟩
  next =>
    split at ho
    next => contradiction
    next =>
      split at ho
      next => contradiction
      next =>
        obtain ⟨rfl, rfl⟩ := Prod.mk.inj (Option.some.inj ho)
        exact Or.inl ⟨rfl, rfl⟩
      next node _ =>
        obtain ⟨rfl, rfl⟩ := Prod.mk.inj (Option.some.inj ho)
        refine Or.inr ⟨_, _, rfl, rfl, ?_⟩
        cases create_state (s := s) node node (p.drop (lastSlashIdx p + 1)) with
        | inl hsame => exact Or.inl hsame
        | inr hadd =>
            obtain ⟨idx, hadd⟩ := hadd
            exact Or.inr ⟨node, idx, _, hadd⟩

/-- A new handle is at the start, but for the one of the UART. -/
theorem openNode_fPos {node flags : Nat} (hon : (s.openNode node h flags).OnFile h) :
    ((s.openNode node h flags).files h).fPos = 0 := by
  unfold OnFile openNode openHandle at *
  simp only [Function.update_self] at *
  cases hops : (s.vnodes node).fOps <;> simp_all

/-- A new file is empty. -/
theorem tmpfsAdd_datasize {type : FsnodeType} {dirNode idx : Nat} {name : List Char} {bound : Nat}
    (hs : ∀ i, (s.inodes i).datasize ≤ bound) (i : Nat) :
    ((s.tmpfsAdd type dirNode idx name).2.inodes i).datasize ≤ bound := by
  simp only [tmpfsAdd, tmpfsCreateVnode, kmalloc]
  grind

/-- A read from a file: the length is cut modulo 2^64. -/
theorem vfsRead_onFile (hon : s.OnFile h) (len : Nat) :
    let f := s.files h
    let n := Clamp.cut (2 ^ 64) len f.fPos (s.fileSize h)
    s.vfsRead h len = some (toInt n, loadBytes (s.fileData h + f.fPos) n s.mem,
      s.moveTo h ((f.fPos + n) % 2 ^ 64)) := by
  cases hon with
  | inl hops =>
      have hsize : s.fileSize h = (s.inode (s.files h).vnode).datasize := by simp only [fileSize, hops]
      have hdata : s.fileData h = (s.inode (s.files h).vnode).data := by simp only [fileData, hops]
      rw [vfsRead, hops, hsize, hdata]
      rfl
  | inr hops =>
      have hsize : s.fileSize h = (s.ramInode (s.files h).vnode).datasize := by simp only [fileSize, hops]
      have hdata : s.fileData h = (s.ramInode (s.files h).vnode).data := by simp only [fileData, hops]
      rw [vfsRead, hops, hsize, hdata]
      rfl

/-- Devices are not read. -/
theorem onFile_of_vfsRead {r : Int × List UInt8 × Vfs} (hr : s.vfsRead h len = some r) : s.OnFile h := by
  unfold vfsRead at hr
  unfold OnFile
  cases hops : (s.files h).fOps <;> simp_all

/-- The handles of `s'` are those of `s`, but for the 64-bit position of `h`. -/
def Moved (s s' : Vfs) (h : Nat) : Prop :=
  s'.files = s.files ∨ ∃ fPos < 2 ^ 64, s'.files = (s.moveTo h fPos).files

theorem vfsRead_moved {r : Int × List UInt8 × Vfs} (hr : s.vfsRead h len = some r) : Moved s r.2.2 h := by
  rw [vfsRead_onFile (onFile_of_vfsRead hr)] at hr
  obtain rfl := Option.some.inj hr
  exact Or.inr ⟨_, Nat.mod_lt _ (by decide), rfl⟩

theorem vfsWrite_moved {buf : List UInt8} {r : Int × Vfs} (hr : s.vfsWrite h buf = some r) :
    Moved s r.2 h := by
  unfold vfsWrite at hr
  split at hr
  next =>
    obtain rfl := Option.some.inj hr
    exact Or.inr ⟨_, Nat.mod_lt _ (by decide), rfl⟩
  next =>
    obtain rfl := Option.some.inj hr
    exact Or.inl rfl
  all_goals contradiction

theorem seekFile_moved (offset whence : Int) : Moved s (s.seekFile h offset whence).2 h := by
  unfold seekFile
  split
  · exact Or.inr ⟨(offset % 2 ^ 64).toNat, by omega, rfl⟩
  · exact Or.inl rfl

theorem lseek64_inodes {offset whence : Int} {r : Int × Vfs} (hr : s.lseek64 h offset whence = some r) :
    r.2.inodes = s.inodes := by
  have hseek : (s.seekFile h offset whence).2.inodes = s.inodes := by
    unfold seekFile
    split <;> rfl
  unfold lseek64 at hr
  split at hr
  · obtain rfl := Option.some.inj hr
    exact hseek
  · obtain rfl := Option.some.inj hr
    exact hseek
  all_goals contradiction

theorem lseek64_moved {offset whence : Int} {r : Int × Vfs} (hr : s.lseek64 h offset whence = some r) :
    Moved s r.2 h := by
  unfold lseek64 at hr
  split at hr
  · obtain rfl := Option.some.inj hr
    exact seekFile_moved offset whence
  · obtain rfl := Option.some.inj hr
    exact seekFile_moved offset whence
  all_goals contradiction

end Vfs

/-! ## positions -/

namespace OpenFiles

variable {k k' : OpenFiles} {c : HandleCall}

/-- The position of every open file is a 64-bit number. -/
def Positions (k : OpenFiles) : Prop :=
  ∀ h ∈ k.live, k.fs.OnFile h → (k.fs.files h).fPos < 2 ^ 64

/-- Moving a handle to a 64-bit position. -/
theorem Positions.moved (hp : k.Positions) {s' : Vfs} {h : Nat} (hm : Vfs.Moved k.fs s' h) :
    Positions ⟨s', k.live⟩ := by
  intro h' hlive hon
  have hkeep := hp h' hlive
  unfold Vfs.OnFile at hon hkeep
  cases hm with
  | inl hsame => grind
  | inr hmove =>
      obtain ⟨fPos, hlt, hfiles⟩ := hmove
      have hval : s'.files h' =
          if h' = h then { k.fs.files h with fPos := fPos } else k.fs.files h' := by
        rw [hfiles]
        exact Function.update_apply _ _ _ _
      grind

/-- Every call keeps positions 64-bit numbers. -/
theorem Positions.step (hp : k.Positions) (hs : k.step c = some k') : k'.Positions := by
  cases c with
  | «open» n p flags h =>
      simp only [OpenFiles.step] at hs
      split at hs
      next => contradiction
      next hfree =>
        obtain ⟨⟨r, s'⟩, ho, rfl⟩ := Option.map_eq_some_iff.1 hs
        cases Vfs.vfsOpen_state ho with
        | inl hfail =>
            obtain ⟨rfl, rfl⟩ := hfail
            exact hp
        | inr hopen =>
            obtain ⟨node, s₁, rfl, rfl, hs₁⟩ := hopen
            have hfiles : s₁.files = k.fs.files := by
              cases hs₁ with
              | inl hsame => rw [hsame]
              | inr hadd =>
                  obtain ⟨dirNode, idx, name, rfl⟩ := hadd
                  rfl
            intro h' hlive hon
            by_cases he : h' = h
            · subst he
              have hzero := Vfs.openNode_fPos hon
              simp only at hzero ⊢
              omega
            · have hsame : (s₁.openNode node h flags).files h' = k.fs.files h' := by
                rw [← hfiles]
                exact Function.update_of_ne he _ _
              unfold Vfs.OnFile at hon
              rw [hsame] at hon ⊢
              have hmem : h' ∈ k.live := by grind
              exact hp h' hmem hon
  | close h =>
      simp only [OpenFiles.step] at hs
      split at hs
      next =>
        obtain rfl := Option.some.inj hs
        exact fun h' hlive => hp h' (List.mem_of_mem_erase hlive)
      next => contradiction
  | read h len =>
      simp only [OpenFiles.step] at hs
      split at hs
      next =>
        obtain ⟨r, hr, rfl⟩ := Option.map_eq_some_iff.1 hs
        exact hp.moved (Vfs.vfsRead_moved hr)
      next => contradiction
  | write h buf =>
      simp only [OpenFiles.step] at hs
      split at hs
      next =>
        obtain ⟨r, hr, rfl⟩ := Option.map_eq_some_iff.1 hs
        exact hp.moved (Vfs.vfsWrite_moved hr)
      next => contradiction
  | lseek64 h offset whence =>
      simp only [OpenFiles.step] at hs
      split at hs
      next =>
        obtain ⟨r, hr, rfl⟩ := Option.map_eq_some_iff.1 hs
        exact hp.moved (Vfs.lseek64_moved hr)
      next => contradiction

/-- The positions are 64-bit numbers in every state that is reached. -/
theorem Positions.reach {s : Vfs} {good : OpenFiles → HandleCall → Prop}
    (hr : Reach OpenFiles.step good (fresh s) k) : k.Positions :=
  hr.inv (fun _ hlive => absurd hlive List.not_mem_nil) fun _ _ _ hp _ hs => hp.step hs

end OpenFiles

/-! ## the end of a file -/

namespace Vfs

variable {s : Vfs} {h len : Nat}

/-- A length is its own `int` if it is below 2^31. -/
theorem toInt_eq_iff {n : Nat} (hn : n < 2 ^ 64) : toInt n = n ↔ n < 2 ^ 31 := by
  unfold toInt
  constructor
  · intro he
    have hlt := Int.bmod_lt (x := n) (m := 2 ^ 32) (by decide)
    omega
  · intro hlt
    exact Int.bmod_eq_of_le (by omega) (by omega)

/-- A read of `len` bytes copies what there is up to the end of the file, from inside of
it, moves the handle behind it and returns its length. -/
def ReadsToEnd (s : Vfs) (h len : Nat) : Prop :=
  let f := s.files h
  let n := min len (s.fileSize h - f.fPos)
  s.vfsRead h len = some ((n : Int), loadBytes (s.fileData h + f.fPos) n s.mem, s.moveTo h (f.fPos + n)) ∧
    ∀ i < n, s.fileData h + f.fPos + i < s.fileData h + s.fileSize h

/-- A read does so just when the handle is in the file and nothing wraps. -/
theorem readsToEnd_iff (hon : s.OnFile h) (hpos : (s.files h).fPos < 2 ^ 64)
    (hsize : s.fileSize h < 2 ^ 31) (hlen : len < 2 ^ 64) : s.ReadsToEnd h len ↔
      (s.files h).fPos ≤ s.fileSize h ∧ len + (s.files h).fPos < 2 ^ 64 := by
  have hsize' : s.fileSize h < 2 ^ 64 := by omega
  have hcut := Clamp.cut_eq_min_iff hpos hlen hsize'
  have hread := vfsRead_onFile hon len
  unfold ReadsToEnd
  dsimp only at hread ⊢
  rw [hread, ← hcut]
  constructor
  · intro hends
    have hbytes := congrArg (fun r => r.2.1.length) (Option.some.inj hends.1)
    simpa using hbytes
  · intro he
    have hin := (hcut.1 he).1
    have hint : toInt (min len (s.fileSize h - (s.files h).fPos)) =
        (min len (s.fileSize h - (s.files h).fPos) : Nat) := (toInt_eq_iff (by omega)).2 (by omega)
    have hmod : ((s.files h).fPos + min len (s.fileSize h - (s.files h).fPos)) % 2 ^ 64 =
        (s.files h).fPos + min len (s.fileSize h - (s.files h).fPos) := Nat.mod_eq_of_lt (by omega)
    rw [he, hint, hmod]
    exact ⟨rfl, fun i hi => by omega⟩

end Vfs

/-- In every state that calls on files lead to, a read of any 64-bit length from a file
shorter than 2^31 bytes copies the bytes up to its end if and only if the handle is in the
file and the sum of length and position does not wrap. -/
theorem vfsRead_toEnd {s : Vfs} {good : OpenFiles → HandleCall → Prop} {k : OpenFiles} {h len : Nat}
    (hr : Reach OpenFiles.step good (OpenFiles.fresh s) k) (hlive : h ∈ k.live) (hon : k.fs.OnFile h)
    (hsize : k.fs.fileSize h < 2 ^ 31) (hlen : len < 2 ^ 64) : k.fs.ReadsToEnd h len ↔
      (k.fs.files h).fPos ≤ k.fs.fileSize h ∧ len + (k.fs.files h).fPos < 2 ^ 64 :=
  Vfs.readsToEnd_iff hon (OpenFiles.Positions.reach hr h hlive hon) hsize hlen

/-- A new file with one byte, and a handle behind it. -/
def oneByteCalls : List HandleCall := [.open 1 "/a".toList oCreat 8, .write 8 [7]]

/-- The state they lead to. -/
def oneByte : OpenFiles :=
  (run OpenFiles.step (OpenFiles.fresh zeroVfs.initRoot) oneByteCalls).getD (OpenFiles.fresh zeroVfs)

set_option maxRecDepth 20000 in
/-- Nothing is left to read. -/
theorem vfsRead_toEnd_oneByte : oneByte.fs.ReadsToEnd 8 100 := by
  have hrun : run OpenFiles.step (OpenFiles.fresh zeroVfs.initRoot) oneByteCalls = some oneByte := rfl
  have hr : Reach OpenFiles.step (fun _ _ => True) (OpenFiles.fresh zeroVfs.initRoot) oneByte :=
    Reach.init.run (fun _ _ _ => trivial) hrun
  have hon : oneByte.fs.OnFile 8 := Or.inl rfl
  exact (vfsRead_toEnd hr (by decide) hon (by decide) (by decide)).2 (by decide)

set_option maxRecDepth 20000 in
/-- **A read past the end.**  Behind the only byte of a file, a read of 2^64 - 1 bytes is not
cut. -/
theorem vfsRead_wraps :
    run OpenFiles.step (OpenFiles.fresh zeroVfs.initRoot) oneByteCalls = some oneByte ∧
      oneByte.fs.fileSize 8 = 1 ∧ (oneByte.fs.files 8).fPos = 1 ∧
      (∃ bytes s', oneByte.fs.vfsRead 8 (2 ^ 64 - 1) = some (-1, bytes, s') ∧ bytes.length = 2 ^ 64 - 1) ∧
      ¬ oneByte.fs.ReadsToEnd 8 (2 ^ 64 - 1) := by
  have hon : oneByte.fs.OnFile 8 := Or.inl rfl
  have hsize : oneByte.fs.fileSize 8 = 1 := rfl
  have hpos : (oneByte.fs.files 8).fPos = 1 := rfl
  refine ⟨rfl, hsize, hpos, ?_, fun hends => ?_⟩
  · have hread := Vfs.vfsRead_onFile hon (2 ^ 64 - 1)
    dsimp only at hread
    have hcut : Clamp.cut (2 ^ 64) (2 ^ 64 - 1) 1 1 = 2 ^ 64 - 1 := by decide
    have hint : toInt (2 ^ 64 - 1) = -1 := by decide
    rw [hpos, hsize, hcut, hint] at hread
    exact ⟨_, _, hread, length_loadBytes _ _⟩
  · have hwrap := ((Vfs.readsToEnd_iff hon (by omega) (by omega) (by decide)).1 hends).2
    omega

/-! ## the page of a file -/

namespace Vfs

variable {s s' : Vfs} {h len : Nat}

/-- A write of `len` bytes through `h`, whatever they are, leaves the memory around the page
of the file alone, and neither the file nor the position grows behind the page. -/
def Confined (s : Vfs) (h len : Nat) : Prop :=
  ∀ buf r s', buf.length = len → s.vfsWrite h buf = some (r, s') →
    let v := (s.files h).vnode
    (∀ x, x < (s.inode v).data ∨ (s.inode v).data + maxFileSize ≤ x → s'.mem x = s.mem x) ∧
      (s'.inode v).datasize ≤ maxFileSize ∧ (s'.files h).fPos ≤ maxFileSize

/-- What a write to a tmpfs leaves. -/
theorem vfsWrite_tmpfs (hops : (s.files h).fOps = .tmpfs) {buf : List UInt8} {r : Int}
    (hw : s.vfsWrite h buf = some (r, s')) :
    let f := s.files h
    let fPos := (f.fPos + buf.length) % 2 ^ 64
    s'.mem = storeBytes ((s.inode f.vnode).data + f.fPos) buf s.mem ∧ (s'.files h).fPos = fPos ∧
      s'.vnodes = s.vnodes ∧ ∀ i, (s'.inodes i).datasize =
        if i = (s.vnodes f.vnode).internal then max (s.inodes i).datasize fPos
        else (s.inodes i).datasize := by
  simp only [vfsWrite, hops, Option.some.injEq] at hw
  obtain rfl := congrArg Prod.snd hw
  refine ⟨rfl, ?_, rfl, fun i => ?_⟩
  · simp [tmpfsWrite]
  · simp only [tmpfsWrite]
    grind

/-- A write keeps to the page just when it fits. -/
theorem confined_iff (hops : (s.files h).fOps = .tmpfs) (hpos : (s.files h).fPos < 2 ^ 64)
    (hsize : (s.inode (s.files h).vnode).datasize ≤ maxFileSize) :
    s.Confined h len ↔ (s.files h).fPos + len ≤ maxFileSize := by
  have hmax : maxFileSize = 4096 := rfl
  constructor
  · intro hc
    refine Nat.le_of_not_lt fun hgt => ?_
    -- a byte that differs from the last one that is overwritten
    let last := (s.inode (s.files h).vnode).data + (s.files h).fPos + (len - 1)
    let buf := List.replicate len (s.mem last + 1)
    have hlen : buf.length = len := List.length_replicate
    have hwrites : s.vfsWrite h buf = some (s.tmpfsWrite h buf) := by simp only [vfsWrite, hops]
    obtain ⟨⟨r, s'⟩, hw⟩ : ∃ r, s.vfsWrite h buf = some r := ⟨_, hwrites⟩
    obtain ⟨hmem, hfPos, -, -⟩ := vfsWrite_tmpfs hops hw
    obtain ⟨hkeep, -, hle⟩ := hc buf r s' hlen hw
    by_cases hzero : len = 0
    · rw [hfPos, hlen, hzero, Nat.add_zero, Nat.mod_eq_of_lt hpos] at hle
      omega
    · have hlast := hkeep last (Or.inr (by omega))
      have hover : s'.mem last = s.mem last + 1 := by
        rw [hmem, storeBytes_add (i := len - 1) (by omega), List.getElem_replicate]
      rw [hover] at hlast
      simp at hlast
  · intro hfits buf r s' hlen hw
    obtain ⟨hmem, hfPos, hvnodes, hdata⟩ := vfsWrite_tmpfs hops hw
    rw [hlen, Nat.mod_eq_of_lt (by omega)] at hfPos hdata
    refine ⟨fun x hx => ?_, ?_, by omega⟩
    · rw [hmem]
      exact storeBytes_of_not_mem (by omega)
    · unfold inode at hsize ⊢
      rw [hvnodes, hdata, if_pos rfl]
      omega

end Vfs

namespace OpenFiles

variable {k k' : OpenFiles} {c : HandleCall}

/-- A write to a tmpfs keeps to the page of its file. -/
def Confined (k : OpenFiles) : HandleCall → Prop
  | .write h buf => h ∈ k.live → (k.fs.files h).fOps = .tmpfs → k.fs.Confined h buf.length
  | _ => True

/-- A write to a tmpfs ends in the page of its file. -/
def Fits (k : OpenFiles) : HandleCall → Prop
  | .write h buf => h ∈ k.live → (k.fs.files h).fOps = .tmpfs →
      (k.fs.files h).fPos + buf.length ≤ maxFileSize
  | _ => True

/-- No file is longer than a page. -/
structure Small (k : OpenFiles) : Prop where
  positions : k.Positions
  size : ∀ i, (k.fs.inodes i).datasize ≤ maxFileSize

theorem fresh_small {s : Vfs} (hs : ∀ i, (s.inodes i).datasize ≤ maxFileSize) : (fresh s).Small where
  positions _ hlive := absurd hlive List.not_mem_nil
  size := hs

/-- In such a state, a write keeps to its page just when it fits. -/
theorem Small.confined_iff (hk : k.Small) : k.Confined c ↔ k.Fits c := by
  cases c with
  | write h buf =>
      unfold Confined Fits
      refine imp_congr_right fun hlive => imp_congr_right fun hops => ?_
      exact Vfs.confined_iff hops (hk.positions h hlive (Or.inl hops)) (hk.size _)
  | «open» | close | read | lseek64 => exact Iff.rfl

/-- Calls whose writes fit keep files small. -/
theorem Small.step (hk : k.Small) (hf : k.Fits c) (hs : k.step c = some k') : k'.Small where
  positions := hk.positions.step hs
  size i := by
    have hold := hk.size
    cases c with
    | «open» n p flags h =>
        simp only [OpenFiles.step] at hs
        split at hs
        next => contradiction
        next =>
          obtain ⟨⟨r, s'⟩, ho, rfl⟩ := Option.map_eq_some_iff.1 hs
          cases Vfs.vfsOpen_state ho with
          | inl hfail =>
              obtain ⟨rfl, rfl⟩ := hfail
              exact hold i
          | inr hopen =>
              obtain ⟨node, s₁, rfl, rfl, hs₁⟩ := hopen
              cases hs₁ with
              | inl hsame =>
                  subst hsame
                  exact hold i
              | inr hadd =>
                  obtain ⟨dirNode, idx, name, rfl⟩ := hadd
                  exact Vfs.tmpfsAdd_datasize hold i
    | close h =>
        simp only [OpenFiles.step] at hs
        split at hs
        next =>
          obtain rfl := Option.some.inj hs
          exact hold i
        next => contradiction
    | read h len =>
        simp only [OpenFiles.step] at hs
        split at hs
        next =>
          obtain ⟨r, hr, rfl⟩ := Option.map_eq_some_iff.1 hs
          rw [Vfs.vfsRead_onFile (Vfs.onFile_of_vfsRead hr)] at hr
          obtain rfl := Option.some.inj hr
          exact hold i
        next => contradiction
    | write h buf =>
        simp only [OpenFiles.step] at hs
        split at hs
        next hlive =>
          obtain ⟨⟨r, s'⟩, hr, rfl⟩ := Option.map_eq_some_iff.1 hs
          cases hops : (k.fs.files h).fOps with
          | tmpfs =>
              have hfits := hf hlive hops
              have hmax : maxFileSize = 4096 := rfl
              obtain ⟨-, -, -, hdata⟩ := Vfs.vfsWrite_tmpfs hops hr
              rw [Nat.mod_eq_of_lt (by omega)] at hdata
              have hi := hold i
              show (s'.inodes i).datasize ≤ _
              rw [hdata]
              split <;> omega
          | initramfs =>
              simp only [Vfs.vfsWrite, hops, Option.some.injEq] at hr
              obtain rfl := congrArg Prod.snd hr
              exact hold i
          | uart | framebuffer => simp [Vfs.vfsWrite, hops] at hr
        next => contradiction
    | lseek64 h offset whence =>
        simp only [OpenFiles.step] at hs
        split at hs
        next =>
          obtain ⟨r, hr, rfl⟩ := Option.map_eq_some_iff.1 hs
          show (r.2.inodes i).datasize ≤ _
          rw [Vfs.lseek64_inodes hr]
          exact hold i
        next => contradiction

end OpenFiles

/-- **Writes keep to their pages** in a run on files that are no longer than a page if and only if each
of them fits in what is left of the page; and as long as they do, no file grows longer. -/
theorem vfsWrite_confined {s : Vfs} (hs : ∀ i, (s.inodes i).datasize ≤ maxFileSize) :
    (∀ cs, Always OpenFiles.step OpenFiles.Confined (OpenFiles.fresh s) cs ↔
      Always OpenFiles.step OpenFiles.Fits (OpenFiles.fresh s) cs) ∧
      ∀ k, Reach OpenFiles.step OpenFiles.Fits (OpenFiles.fresh s) k →
        ∀ i, (k.fs.inodes i).datasize ≤ maxFileSize := by
  have hsmall := OpenFiles.fresh_small hs
  constructor
  · intro cs
    exact Always.iff (fun _ _ hk => hk.confined_iff) (fun _ _ _ hk hf h => hk.step hf h) hsmall
  · intro k hr
    exact (hr.inv hsmall fun _ _ _ hk hf h => hk.step hf h).size

/-- A file system with an empty root. -/
theorem vfsWrite_confined_root :
    (∀ cs, Always OpenFiles.step OpenFiles.Confined (OpenFiles.fresh zeroVfs.initRoot) cs ↔
      Always OpenFiles.step OpenFiles.Fits (OpenFiles.fresh zeroVfs.initRoot) cs) ∧
      ∀ k, Reach OpenFiles.step OpenFiles.Fits (OpenFiles.fresh zeroVfs.initRoot) k →
        ∀ i, (k.fs.inodes i).datasize ≤ maxFileSize := by
  refine vfsWrite_confined fun i => ?_
  have hempty : (zeroVfs.initRoot.inodes i).datasize = 0 := by
    simp only [Vfs.initRoot, Vfs.tmpfsSetupMount, Vfs.tmpfsCreateVnode, Vfs.kmalloc, Function.update_apply]
    split <;> rfl
  omega

set_option maxRecDepth 20000 in
/-- **A byte too many.**  Writing 4096 more bytes to a file with one byte changes the byte
behind its page. -/
theorem vfsWrite_overflows :
    ¬ Always OpenFiles.step OpenFiles.Confined (OpenFiles.fresh zeroVfs.initRoot)
      (oneByteCalls ++ [.write 8 (List.replicate 4096 7)]) := by
  intro h
  have hc := (h.2 _ rfl).2 oneByte rfl |>.1 (by decide) rfl
  have hpos : (oneByte.fs.files 8).fPos = 1 := rfl
  have hsize : (oneByte.fs.inode (oneByte.fs.files 8).vnode).datasize = 1 := rfl
  have hmax : maxFileSize = 4096 := rfl
  have hfits := (Vfs.confined_iff rfl (by omega) (by omega)).1 hc
  rw [hpos, List.length_replicate] at hfits
  omega

end RpiKernel
