import Mathlib.Algebra.Group.Nat.Defs
import Mathlib.Logic.Function.Basic
import Mathlib.Data.List.Basic

/-!
# RpiKernel.Vfs.Node

The objects of the virtual file system (`vfs.h`, `tmpfs.h`, `initramfs.h`) and
the state they live in.

A pointer is an address and 0 is `NULL`; objects of one kind are records at
their addresses.  Vnodes, inodes, mounts and data pages are never freed, so
`kmalloc`, which is taken to succeed, places each behind the one before.  File
handles are freed by `close`; where the next one goes is an argument of
opening.
-/

namespace RpiKernel

/-! ## constants -/

/-- `MAX_FILE_NAME`, `MAX_DIR_ENTRY` and `MAX_FILE_SIZE` of tmpfs,
`INITRAMFS_MAX_DIR_ENTRY` and `MAX_PATH_NAME`. -/
def maxFileName : Nat := 15
def maxDirEntry : Nat := 16
def maxFileSize : Nat := 4096
def initramfsMaxDirEntry : Nat := 100
def maxPathName : Nat := 255

/-- `O_CREAT`. -/
def oCreat : Nat := 0o100

/-- `sizeof(struct file)`, `sizeof(struct vnode)`, `sizeof(struct mount)`,
`sizeof(struct tmpfs_inode)` and `sizeof(struct initramfs_inode)`. -/
def fileBytes : Nat := 32
def vnodeBytes : Nat := 32
def mountBytes : Nat := 16
def tmpfsInodeBytes : Nat := 168
def initramfsInodeBytes : Nat := 832

/-- The value that a 64-bit word has as an `int`. -/
def toInt (x : Nat) : Int := Int.bmod x (2 ^ 32)

/-! ## objects -/

/-- Which of the four tables of file operations `f_ops` points to. -/
inductive FileOps where
  | tmpfs
  | initramfs
  | uart
  | framebuffer
deriving Repr, DecidableEq

/-- Which of the two tables of vnode operations `v_ops` points to; also the
file systems that can be mounted. -/
inductive VnodeOps where
  | tmpfs
  | initramfs
deriving Repr, DecidableEq

/-- `enum fsnode_type`. -/
inductive FsnodeType where
  | dir
  | file
deriving Repr, DecidableEq

/-- `struct vnode`. -/
structure Vnode where
  mount : Nat
  vOps : VnodeOps
  fOps : FileOps
  internal : Nat

/-- `struct tmpfs_inode`.  A name of 15 characters puts its `NUL` into the
padding behind the array. -/
structure TmpfsInode where
  type : FsnodeType
  name : List Char
  entry : Nat → Nat
  data : Nat
  datasize : Nat

/-- `struct initramfs_inode`; the name is a pointer into the archive. -/
structure InitramfsInode where
  type : FsnodeType
  name : Nat
  entry : Nat → Nat
  data : Nat
  datasize : Nat

/-- `struct mount`. -/
structure Mount where
  root : Nat
  fs : VnodeOps

/-- A `struct vnode`, as far as opening needs it. -/
structure VnodeRef where
  addr : Nat
  fOps : FileOps
deriving Repr, DecidableEq

/-- `struct file`. -/
structure FileHandle where
  vnode : Nat
  fPos : Nat
  fOps : FileOps
  flags : Nat
deriving Repr, DecidableEq

/-- What the `open` of the file operations stores in a new handle; the one of
the UART leaves the position alone. -/
def openHandle (node : VnodeRef) (f : FileHandle) : FileHandle :=
  match node.fOps with
  | .uart => { f with vnode := node.addr, fOps := .uart }
  | ops => { f with vnode := node.addr, fOps := ops, fPos := 0 }

/-- The loop of the two lookups, over the indices that are left: the first
entry that meets `p`, as far as the entries are occupied. -/
def findEntry (entry : Nat → Nat) (p : Nat → Bool) : List Nat → Option Nat
  | [] => none
  | i :: is =>
      let vnode := entry i
      if vnode = 0 then none
      else if p vnode then some vnode
      else findEntry entry p is

/-! ## the state -/

/-- The file systems and the memory they read and write.  `next` is where
`kmalloc` puts the next block; it is never `NULL`. -/
structure Vfs where
  next : Nat
  next_pos : 0 < next
  vnodes : Nat → Vnode
  inodes : Nat → TmpfsInode
  ramInodes : Nat → InitramfsInode
  mounts : Nat → Mount
  files : Nat → FileHandle
  mem : Nat → UInt8
  rootfs : Nat
  cpioDefaultStart : Nat

namespace Vfs

/-- The tmpfs inode behind a vnode. -/
def inode (s : Vfs) (v : Nat) : TmpfsInode := s.inodes (s.vnodes v).internal

/-- The initramfs inode behind a vnode. -/
def ramInode (s : Vfs) (v : Nat) : InitramfsInode := s.ramInodes (s.vnodes v).internal

/-- `rootfs->root`. -/
def root (s : Vfs) : Nat := (s.mounts s.rootfs).root

/-- `kmalloc(size)`. -/
def kmalloc (size : Nat) (s : Vfs) : Nat × Vfs :=
  (s.next, { s with next := s.next + size, next_pos := Nat.add_pos_left s.next_pos size })

/-- The end of `vfs_open`: a handle at `handle` for the vnode that was found. -/
def openNode (node handle flags : Nat) (s : Vfs) : Vfs :=
  let f := openHandle ⟨node, (s.vnodes node).fOps⟩ (s.files handle)
  { s with files := Function.update s.files handle { f with flags := flags } }

end Vfs

/-- Memory as it is before anything is set up. -/
def zeroVfs : Vfs where
  next := 0x10
  next_pos := by decide
  vnodes _ := ⟨0, .tmpfs, .tmpfs, 0⟩
  inodes _ := ⟨.dir, [], fun _ => 0, 0, 0⟩
  ramInodes _ := ⟨.dir, 0, fun _ => 0, 0, 0⟩
  mounts _ := ⟨0, .tmpfs⟩
  files _ := ⟨0, 0, .tmpfs, 0⟩
  mem _ := 0
  rootfs := 0
  cpioDefaultStart := 0

end RpiKernel
