import RpiKernel.Lib.Bytes
import RpiKernel.Vfs.Node

/-!
# RpiKernel.Vfs.Tmpfs

`tmpfs.c`: directories of at most `MAX_DIR_ENTRY` entries, and files of one
page.  `tmpfs_create` and `tmpfs_mkdir` differ in the type of the new node
only.

A lookup that fails returns -1 and leaves `*target` alone; here it is `none`.
-/

namespace RpiKernel

open Bytes

namespace Vfs

/-! ## directories -/

/-- `tmpfs_create_vnode`. -/
def tmpfsCreateVnode (type : FsnodeType) (s : Vfs) : Nat × Vfs :=
  let (v, s) := s.kmalloc vnodeBytes
  let (inode, s) := s.kmalloc tmpfsInodeBytes
  let (data, s) := s.kmalloc 0x1000
  (v, { s with
    vnodes := Function.update s.vnodes v ⟨0, .tmpfs, .tmpfs, inode⟩
    inodes := Function.update s.inodes inode ⟨type, [], fun _ => 0, data, 0⟩ })

/-- `tmpfs_setup_mount`. -/
def tmpfsSetupMount (mount : Nat) (s : Vfs) : Vfs :=
  let (v, s) := s.tmpfsCreateVnode .dir
  { s with mounts := Function.update s.mounts mount ⟨v, .tmpfs⟩ }

/-- `tmpfs_lookup`. -/
def tmpfsLookup (s : Vfs) (dirNode : Nat) (componentName : List Char) : Option Nat :=
  findEntry (s.inode dirNode).entry (fun v => componentName = (s.inode v).name)
    (List.range maxDirEntry)

/-- The loop with which `tmpfs_create` and `tmpfs_mkdir` look for a free entry,
over the indices that are left; `none` when the name is taken. -/
def tmpfsFree (s : Vfs) (dirInode : TmpfsInode) (componentName : List Char) :
    List Nat → Option Nat
  | [] => some maxDirEntry
  | i :: is =>
      let vnode := dirInode.entry i
      if vnode = 0 then some i
      else if (s.inode vnode).name = componentName then none
      else tmpfsFree s dirInode componentName is

/-- The end of `tmpfs_create` and `tmpfs_mkdir`: a new node in entry `childIdx`. -/
def tmpfsAdd (type : FsnodeType) (dirNode childIdx : Nat) (componentName : List Char) (s : Vfs) :
    Nat × Vfs :=
  let (vnode, s) := s.tmpfsCreateVnode type
  let dirInode := (s.vnodes dirNode).internal
  let inodes := Function.update s.inodes dirInode
    { s.inodes dirInode with entry := Function.update (s.inodes dirInode).entry childIdx vnode }
  let newinode := (s.vnodes vnode).internal
  (vnode, { s with
    inodes := Function.update inodes newinode { inodes newinode with name := componentName } })

/-- The common body of `tmpfs_create` and `tmpfs_mkdir`: the value returned,
`*target` and the state. -/
def tmpfsMake (type : FsnodeType) (dirNode target : Nat) (componentName : List Char) (s : Vfs) :
    Int × Nat × Vfs :=
  let dirInode := s.inode dirNode
  if dirInode.type ≠ .dir then (-1, target, s)
  else
    match s.tmpfsFree dirInode componentName (List.range maxDirEntry) with
    | none => (-1, target, s)
    | some childIdx =>
        if childIdx = maxDirEntry then (-1, target, s)
        else if componentName.length > maxFileName then (-1, target, s)
        else (0, s.tmpfsAdd type dirNode childIdx componentName)

/-- `tmpfs_create`. -/
def tmpfsCreate (dirNode target : Nat) (componentName : List Char) (s : Vfs) : Int × Nat × Vfs :=
  s.tmpfsMake .file dirNode target componentName

/-- `tmpfs_mkdir`. -/
def tmpfsMkdir (dirNode target : Nat) (componentName : List Char) (s : Vfs) : Int × Nat × Vfs :=
  s.tmpfsMake .dir dirNode target componentName

/-! ## file contents -/

/-- `tmpfs_write`. -/
def tmpfsWrite (file : Nat) (buf : List UInt8) (s : Vfs) : Int × Vfs :=
  let f := s.files file
  let i := (s.vnodes f.vnode).internal
  let inode := s.inodes i
  let fPos := (f.fPos + buf.length) % 2 ^ 64
  (toInt buf.length, { s with
    mem := storeBytes (inode.data + f.fPos) buf s.mem
    files := Function.update s.files file { f with fPos := fPos }
    inodes := Function.update s.inodes i
      (if inode.datasize < fPos then { inode with datasize := fPos } else inode) })

/-- The length that a read of `len` bytes at `fPos` is cut to, in `tmpfs_read`
and `initramfs_read`. -/
def readLength (len fPos datasize : Nat) : Nat :=
  if (len + fPos) % 2 ^ 64 > datasize then (datasize + (2 ^ 64 - fPos)) % 2 ^ 64 else len

/-- `tmpfs_read`: the value returned, what is stored at `buf`, and the state. -/
def tmpfsRead (file len : Nat) (s : Vfs) : Int × List UInt8 × Vfs :=
  let f := s.files file
  let inode := s.inode f.vnode
  let n := readLength len f.fPos inode.datasize
  (toInt n, loadBytes (inode.data + f.fPos) n s.mem,
    { s with files := Function.update s.files file { f with fPos := (f.fPos + n) % 2 ^ 64 } })

/-- `tmpfs_getsize`. -/
def tmpfsGetsize (vd : Nat) (s : Vfs) : Nat := (s.inode vd).datasize

end Vfs

end RpiKernel
