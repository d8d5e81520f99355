import RpiKernel.Vfs.File
import Mathlib.Data.List.SplitOn

/-!
# RpiKernel.Vfs.Path

`vfs.c`: from paths to vnodes (`vfs_lookup`), the calls that take a path
(`vfs_open`, `vfs_mkdir`, `vfs_mount`, `vfs_mknod`), what happens at boot
(`init_rootfs`), and `get_absolute_path`.

A string is the list of its characters.  Redirections at mounts are followed at
most `n` times; a call that needs more, that writes past one of its buffers or
that reads an uninitialised variable is not followed (`none`).
-/

namespace RpiKernel

namespace Vfs

/-! ## operations of a vnode -/

/-- `v_ops->lookup`; `none` is its return value -1. -/
def lookup (s : Vfs) (dirNode : Nat) (componentName : List Char) : Option Nat :=
  match (s.vnodes dirNode).vOps with
  | .tmpfs => s.tmpfsLookup dirNode componentName
  | .initramfs => s.initramfsLookup dirNode componentName

/-- `v_ops->create`; `initramfs_create` refuses. -/
def create (dirNode target : Nat) (componentName : List Char) (s : Vfs) : Int × Nat × Vfs :=
  match (s.vnodes dirNode).vOps with
  | .tmpfs => s.tmpfsCreate dirNode target componentName
  | .initramfs => (-1, target, s)

/-- `v_ops->mkdir`; `initramfs_mkdir` refuses. -/
def mkdir (dirNode target : Nat) (componentName : List Char) (s : Vfs) : Int × Nat × Vfs :=
  match (s.vnodes dirNode).vOps with
  | .tmpfs => s.tmpfsMkdir dirNode target componentName
  | .initramfs => (-1, target, s)

/-- `fs->setup_mount`. -/
def setupMount (n : Nat) (fs : VnodeOps) (mount : Nat) (s : Vfs) : Option Vfs :=
  match fs with
  | .tmpfs => some (s.tmpfsSetupMount mount)
  | .initramfs => s.initramfsSetupMount n mount

/-! ## lookup -/

/-- The loops of `vfs_lookup` that go into mounted file systems. -/
def redirect (s : Vfs) : Nat → Nat → Option Nat
  | 0, _ => none
  | n + 1, dirnode =>
      if (s.vnodes dirnode).mount = 0 then some dirnode
      else redirect s n (s.mounts (s.vnodes dirnode).mount).root

/-- What `vfs_lookup` does at the end of a component; `some none` is its return
value -1. -/
def lookupComponent (n : Nat) (s : Vfs) (dirnode : Nat) (componentName : List Char) :
    Option (Option Nat) :=
  if componentName.length > maxFileName then none
  else
    match s.lookup dirnode componentName with
    | none => some none
    | some v => (s.redirect n v).map some

/-- The loop of `vfs_lookup`: the characters left, those of the component so
far, and `dirnode`. -/
def lookupLoop (n : Nat) (s : Vfs) : List Char → List Char → Nat → Option (Option Nat)
  | [], componentName, dirnode => lookupComponent n s dirnode componentName
  | c :: cs, componentName, dirnode =>
      if c = '/' then
        match lookupComponent n s dirnode componentName with
        | some (some dirnode) => lookupLoop n s cs [] dirnode
        | r => r
      else lookupLoop n s cs (componentName ++ [c]) dirnode

/-- `vfs_lookup`; `some none` is its return value -1. -/
def vfsLookup (n : Nat) (pathname : List Char) (s : Vfs) : Option (Option Nat) :=
  if pathname = [] then some (some s.root)
  else lookupLoop n s (pathname.drop 1) [] s.root

/-! ## calls with a path -/

/-- The loop that looks for the last slash: the characters left, the index, and
`last_slash_idx`. -/
def lastSlashLoop : List Char → Nat → Nat → Nat
  | [], _, lastSlashIdx => lastSlashIdx
  | c :: cs, i, lastSlashIdx => lastSlashLoop cs (i + 1) (if c = '/' then i else lastSlashIdx)

/-- `last_slash_idx`. -/
def lastSlashIdx (pathname : List Char) : Nat := lastSlashLoop pathname 0 0

/-- `vfs_open`, with a handle at `handle`; the value returned and the state. -/
def vfsOpen (n : Nat) (pathname : List Char) (flags handle : Nat) (s : Vfs) :
    Option (Int × Vfs) :=
  match s.vfsLookup n pathname with
  | none => none
  | some (some node) => some (0, s.openNode node handle flags)
  | some none =>
      -- `node` is not initialised without `O_CREAT`
      if flags &&& oCreat = 0 ∨ pathname.length > maxPathName then none
      else
        match s.vfsLookup n (pathname.take (lastSlashIdx pathname)) with
        | none => none
        | some none => some (-1, s)
        | some (some node) =>
            let r := s.create node node (pathname.drop (lastSlashIdx pathname + 1))
            some (0, r.2.2.openNode r.2.1 handle flags)

/-- `vfs_mkdir`. -/
def vfsMkdir (n : Nat) (pathname : List Char) (s : Vfs) : Option (Int × Vfs) :=
  let dirname := pathname.take (lastSlashIdx pathname)
  let newdirname := pathname.drop (lastSlashIdx pathname + 1)
  if dirname.length ≥ maxPathName ∨ newdirname.length ≥ maxPathName then none
  else
    match s.vfsLookup n dirname with
    | none => none
    | some none => some (-1, s)
    | some (some node) => some (0, (s.mkdir node node newdirname).2.2)

/-- `find_filesystem`, after boot; the search for another name reads through
the `NULL` of an empty place. -/
def findFilesystem (fsName : List Char) : Option VnodeOps :=
  if fsName = ['t', 'm', 'p', 'f', 's'] then some .tmpfs
  else if fsName = ['i', 'n', 'i', 't', 'r', 'a', 'm', 'f', 's'] then some .initramfs
  else none

/-- `vfs_mount`. -/
def vfsMount (n : Nat) (target filesystem : List Char) (s : Vfs) : Option (Int × Vfs) :=
  match findFilesystem filesystem with
  | none => none
  | some fs =>
      match s.vfsLookup n target with
      | none => none
      | some none => some (-1, s)
      | some (some dirnode) =>
          let (mount, s) := s.kmalloc mountBytes
          let s := { s with
            vnodes := Function.update s.vnodes dirnode { s.vnodes dirnode with mount := mount } }
          (s.setupMount n fs mount).map fun s => (0, s)

/-- `vfs_mknod`, for one of the devices. -/
def vfsMknod (n : Nat) (pathname : List Char) (dev : FileOps) (handle : Nat) (s : Vfs) :
    Option Vfs :=
  match s.vfsOpen n pathname oCreat handle with
  | some (0, s) =>
      let v := (s.files handle).vnode
      some { s with vnodes := Function.update s.vnodes v { s.vnodes v with fOps := dev } }
  | _ => none

/-- The first lines of `init_rootfs`: a tmpfs as the root. -/
def initRoot (s : Vfs) : Vfs :=
  let (rootfs, s) := s.kmalloc mountBytes
  { s.tmpfsSetupMount rootfs with rootfs := rootfs }

/-- `init_rootfs`. -/
def initRootfs (n handle : Nat) (s : Vfs) : Option Vfs := do
  let s := s.initRoot
  let (_, s) ← s.vfsMkdir n "/initramfs".toList
  let (_, s) ← s.vfsMount n "/initramfs".toList "initramfs".toList
  let (_, s) ← s.vfsMkdir n "/dev".toList
  let s ← s.vfsMknod n "/dev/uart".toList .uart handle
  s.vfsMknod n "/dev/framebuffer".toList .framebuffer handle

end Vfs

/-! ## absolute paths -/

/-- Going back over `absolute_path` to the slash at or before index `idx`. -/
def backToSlash (absolutePath : List Char) : Nat → Nat
  | 0 => 0
  | idx + 1 => if absolutePath[idx + 1]? = some '/' then idx + 1 else backToSlash absolutePath idx

/-- `absolute_path` without its last component. -/
def parentPath (absolutePath : List Char) : List Char :=
  absolutePath.take (backToSlash absolutePath (absolutePath.length - 1))

/-- The loop of `get_absolute_path`: the characters left of `temp_path`, how
many of them to skip, and `absolute_path`. -/
def resolveDots : List Char → Nat → List Char → List Char
  | [], _, absolutePath => absolutePath
  | _ :: cs, k + 1, absolutePath => resolveDots cs k absolutePath
  | c :: cs, 0, absolutePath =>
      if c = '/' ∧ cs.take 2 = ['.', '/'] then resolveDots cs 1 absolutePath
      else if c = '/' ∧ cs = ['.'] then resolveDots cs 1 absolutePath
      else if c = '/' ∧ cs.take 3 = ['.', '.', '/'] then resolveDots cs 2 (parentPath absolutePath)
      else if c = '/' ∧ cs = ['.', '.'] then resolveDots cs 2 (parentPath absolutePath)
      else if absolutePath.length < maxPathName then resolveDots cs 0 (absolutePath ++ [c])
      else resolveDots cs 0 absolutePath

/-- The second step of `get_absolute_path`. -/
def resolvePath (tempPath : List Char) : List Char :=
  let absolutePath := resolveDots tempPath 0 []
  if absolutePath = [] then ['/'] else absolutePath

/-- `get_absolute_path`. -/
def getAbsolutePath (path currWorkingDir : List Char) : List Char :=
  if path.head? ≠ some '/' then
    if currWorkingDir.length + path.length + 2 > maxPathName then path
    else if currWorkingDir ≠ ['/'] ∧ currWorkingDir.getLast? ≠ some '/' then
      resolvePath (currWorkingDir ++ ['/'] ++ path)
    else resolvePath (currWorkingDir ++ path)
  else if path.length > maxPathName then path
  else resolvePath path

example : getAbsolutePath "b/../c/.".toList "/a".toList = "/a/c".toList := by decide

example : getAbsolutePath "../..".toList "/a".toList = "/".toList := by decide

end RpiKernel
