import RpiKernel.Vfs.Cpio
import RpiKernel.Vfs.Directory

/-!
# RpiKernel.Vfs.Initramfs

`initramfs.c`: one flat directory over the archive in memory.

* `Loaded` — what the loop of `initramfs_setup_mount` changes, whatever is in
  memory;
* `initramfsSetupMount_archive` — over an archive, every file is there, in
  order, under its name, with its bytes and its length.
-/

namespace RpiKernel

open Bytes

/-- A byte as a character. -/
def byteChar (b : UInt8) : Char := Char.ofUInt8 b

namespace Vfs

/-! ## the code -/

/-- `strcmp(s1, s2) == 0`, where `s2` is an address. -/
def sameString (mem : Nat → UInt8) : List Char → Nat → Bool
  | [], s2 => mem s2 == 0
  | c1 :: s1, s2 => c1 == byteChar (mem s2) && sameString mem s1 (s2 + 1)

/-- `initramfs_create_vnode`. -/
def initramfsCreateVnode (mount : Nat) (type : FsnodeType) (s : Vfs) : Nat × Vfs :=
  let (v, s) := s.kmalloc vnodeBytes
  let (inode, s) := s.kmalloc initramfsInodeBytes
  let (data, s) := s.kmalloc 0x1000
  (v, { s with
    vnodes := Function.update s.vnodes v ⟨mount, .initramfs, .initramfs, inode⟩
    ramInodes := Function.update s.ramInodes inode ⟨type, 0, fun _ => 0, data, 0⟩ })

/-- The body of the loop of `initramfs_setup_mount`: a node for the file whose
header was read, in entry `idx`. -/
def initramfsAdd (ramdirInode idx : Nat) (h : ParsedHeader) (s : Vfs) : Vfs :=
  let (filevnode, s) := s.initramfsCreateVnode 0 .file
  let fileinode := (s.vnodes filevnode).internal
  let inodes := Function.update s.ramInodes fileinode { s.ramInodes fileinode with
    data := h.data
    datasize := h.filesize
    name := h.pathname }
  { s with ramInodes := Function.update inodes ramdirInode { inodes ramdirInode with
      entry := Function.update (inodes ramdirInode).entry idx filevnode } }

/-- The loop of `initramfs_setup_mount`, at most `n` times; `none` also when
there is no entry left. -/
def initramfsLoop (ramdirInode : Nat) : Nat → Nat → Nat → Vfs → Option Vfs
  | 0, _, _, _ => none
  | n + 1, idx, headerPointer, s =>
      if headerPointer = 0 then some s
      else
        match cpioNewcParseHeader s.mem headerPointer with
        | none => some s
        | some h =>
            if h.nextHeader = 0 then initramfsLoop ramdirInode n idx 0 s
            else if idx < initramfsMaxDirEntry then
              initramfsLoop ramdirInode n (idx + 1) h.nextHeader (s.initramfsAdd ramdirInode idx h)
            else none

/-- `initramfs_setup_mount` up to its loop: the root. -/
def initramfsRoot (mount : Nat) (s : Vfs) : Vfs :=
  let (v, s) := s.initramfsCreateVnode 0 .dir
  { s with mounts := Function.update s.mounts mount ⟨v, .initramfs⟩ }

/-- `initramfs_setup_mount`. -/
def initramfsSetupMount (n mount : Nat) (s : Vfs) : Option Vfs :=
  let s := s.initramfsRoot mount
  let ramdirInode := (s.vnodes (s.mounts mount).root).internal
  initramfsLoop ramdirInode n 0 s.cpioDefaultStart s

/-- `initramfs_lookup`; `none` is its return value -1. -/
def initramfsLookup (s : Vfs) (dirNode : Nat) (componentName : List Char) : Option Nat :=
  findEntry (s.ramInode dirNode).entry
    (fun v => sameString s.mem componentName (s.ramInode v).name) (List.range initramfsMaxDirEntry)

/-- `initramfs_read`: the value returned, what is stored at `buf`, and the
state. -/
def initramfsRead (file len : Nat) (s : Vfs) : Int × List UInt8 × Vfs :=
  let f := s.files file
  let inode := s.ramInode f.vnode
  let n := readLength len f.fPos inode.datasize
  (toInt n, loadBytes (inode.data + f.fPos) n s.mem,
    { s with files := Function.update s.files file { f with fPos := (f.fPos + n) % 2 ^ 64 } })

/-- `initramfs_getsize`. -/
def initramfsGetsize (vd : Nat) (s : Vfs) : Nat := (s.ramInode vd).datasize

/-! ## what loading changes -/

variable {s s₁ s' : Vfs} {ramdir idx : Nat} {vs : List Nat}

/-- From `s` to `s'` the nodes `vs` were made and put into the entries of
`ramdir` from `idx` on; nothing else that was there has changed. -/
structure Loaded (s s' : Vfs) (ramdir idx : Nat) (vs : List Nat) : Prop where
  next_le : s.next ≤ s'.next
  vnodes : ∀ v < s.next, s'.vnodes v = s.vnodes v
  ramInodes : ∀ i < s.next, i ≠ ramdir → s'.ramInodes i = s.ramInodes i
  ramdir : s'.ramInodes ramdir = { s.ramInodes ramdir with
    entry := fun i => if idx ≤ i ∧ i < idx + vs.length then vs.getD (i - idx) 0
      else (s.ramInodes ramdir).entry i }
  inodes : s'.inodes = s.inodes
  mounts : s'.mounts = s.mounts
  files : s'.files = s.files
  mem : s'.mem = s.mem
  rootfs : s'.rootfs = s.rootfs
  cpioDefaultStart : s'.cpioDefaultStart = s.cpioDefaultStart
  new : ∀ v ∈ vs, s.next ≤ v ∧ v + vnodeBytes < s'.next ∧
    s'.vnodes v = ⟨0, .initramfs, .initramfs, v + vnodeBytes⟩ ∧
    (s'.ramInodes (v + vnodeBytes)).entry = fun _ => 0
  sorted : vs.Pairwise (· < ·)

/-- Nothing was loaded. -/
theorem Loaded.refl (s : Vfs) (ramdir idx : Nat) : Loaded s s ramdir idx [] where
  next_le := Nat.le_refl _
  vnodes _ _ := rfl
  ramInodes _ _ _ := rfl
  ramdir := by simp [show ∀ i, ¬ (idx ≤ i ∧ i < idx) by omega]
  inodes := rfl
  mounts := rfl
  files := rfl
  mem := rfl
  rootfs := rfl
  cpioDefaultStart := rfl
  new := by simp
  sorted := List.Pairwise.nil

@[simp] theorem initramfsAdd_next (ramdir idx : Nat) (h : ParsedHeader) (s : Vfs) :
    (s.initramfsAdd ramdir idx h).next = s.next + vnodeBytes + initramfsInodeBytes + 0x1000 := rfl

@[simp] theorem initramfsAdd_mem (ramdir idx : Nat) (h : ParsedHeader) (s : Vfs) :
    (s.initramfsAdd ramdir idx h).mem = s.mem := rfl

@[simp] theorem initramfsAdd_vnodes (ramdir idx : Nat) (h : ParsedHeader) (s : Vfs) :
    (s.initramfsAdd ramdir idx h).vnodes = Function.update s.vnodes s.next
      ⟨0, .initramfs, .initramfs, s.next + vnodeBytes⟩ := rfl

/-- The inodes after a file was added. -/
theorem initramfsAdd_ramInodes (h : ParsedHeader) (hr : ramdir < s.next) (i : Nat) :
    (s.initramfsAdd ramdir idx h).ramInodes i =
      if i = ramdir then { s.ramInodes ramdir with
        entry := Function.update (s.ramInodes ramdir).entry idx s.next }
      else if i = s.next + vnodeBytes then
        ⟨.file, h.pathname, fun _ => 0, h.data, h.filesize⟩
      else s.ramInodes i := by
  have hne : ramdir ≠ s.next + vnodeBytes := by omega
  simp only [initramfsAdd, initramfsCreateVnode, kmalloc, Function.update_self,
    Function.update_of_ne hne]
  by_cases hi : i = ramdir
  · rw [if_pos hi, hi, Function.update_self]
  · rw [if_neg hi, Function.update_of_ne hi]
    by_cases hn : i = s.next + vnodeBytes
    · rw [if_pos hn, hn, Function.update_self]
    · rw [if_neg hn, Function.update_of_ne hn, Function.update_of_ne hn]

/-- One file, and the rest of the loop. -/
theorem Loaded.add {h : ParsedHeader} (hr : ramdir < s.next)
    (hl : Loaded (s.initramfsAdd ramdir idx h) s' ramdir (idx + 1) vs) :
    Loaded s s' ramdir idx (s.next :: vs) ∧
      s'.ramInodes (s.next + vnodeBytes) = ⟨.file, h.pathname, fun _ => 0, h.data, h.filesize⟩ := by
  have hnext := initramfsAdd_next ramdir idx h s
  have hib : initramfsInodeBytes = 832 := rfl
  have hvb : vnodeBytes = 32 := rfl
  have hle := hl.next_le
  have hnew : s'.ramInodes (s.next + vnodeBytes) =
      ⟨.file, h.pathname, fun _ => 0, h.data, h.filesize⟩ := by
    rw [hl.ramInodes _ (by omega) (by omega), initramfsAdd_ramInodes h hr, if_neg (by omega),
      if_pos rfl]
  refine ⟨⟨?_, ?_, ?_, ?_, hl.inodes, hl.mounts, hl.files, hl.mem, hl.rootfs,
    hl.cpioDefaultStart, ?_, ?_⟩, hnew⟩
  case refine_1 => omega
  case refine_2 =>
    intro v hv
    rw [hl.vnodes v (by omega), initramfsAdd_vnodes, Function.update_of_ne (by omega)]
  case refine_3 =>
    intro i hi hne
    rw [hl.ramInodes i (by omega) hne, initramfsAdd_ramInodes h hr, if_neg hne, if_neg (by omega)]
  case refine_4 =>
    rw [hl.ramdir, initramfsAdd_ramInodes h hr, if_pos rfl]
    simp only [InitramfsInode.mk.injEq, true_and, and_true]
    funext i
    by_cases hi : i = idx
    · subst hi
      rw [if_neg (by omega), Function.update_self, if_pos (by simp), Nat.sub_self, List.getD_cons_zero]
    · rw [Function.update_of_ne hi, List.length_cons]
      by_cases hin : idx + 1 ≤ i ∧ i < idx + 1 + vs.length
      · obtain ⟨k, rfl⟩ := Nat.exists_eq_add_of_le hin.1
        rw [if_pos hin, if_pos (by omega), show idx + 1 + k - idx = k + 1 by omega,
          show idx + 1 + k - (idx + 1) = k by omega, List.getD_cons_succ]
      · rw [if_neg hin, if_neg (by omega)]
  case refine_5 =>
    intro v hv
    rcases List.mem_cons.1 hv with rfl | hv
    · refine ⟨Nat.le_refl _, by omega, ?_, by rw [hnew]⟩
      rw [hl.vnodes _ (by omega), initramfsAdd_vnodes, Function.update_self]
    · obtain ⟨hv₁, hv₂, hv₃, hv₄⟩ := hl.new v hv
      exact ⟨by omega, hv₂, hv₃, hv₄⟩
  case refine_6 =>
    refine List.pairwise_cons.2 ⟨fun v hv => ?_, hl.sorted⟩
    have hv' := (hl.new v hv).1
    omega

/-- What a run of the loop that ends has changed. -/
theorem initramfsLoop_loaded (n : Nat) {headerPointer : Nat} (hr : ramdir < s.next)
    (hidx : idx ≤ initramfsMaxDirEntry)
    (h : initramfsLoop ramdir n idx headerPointer s = some s') :
    ∃ vs, Loaded s s' ramdir idx vs ∧ idx + vs.length ≤ initramfsMaxDirEntry := by
  induction n generalizing idx headerPointer s with
  | zero => contradiction
  | succ n ih =>
      unfold initramfsLoop at h
      split at h
      next =>
        obtain rfl := Option.some.inj h
        exact ⟨[], Loaded.refl _ _ _, hidx⟩
      next =>
        split at h
        next =>
          obtain rfl := Option.some.inj h
          exact ⟨[], Loaded.refl _ _ _, hidx⟩
        next ph _ =>
          split at h
          next => exact ih hr hidx h
          next =>
            split at h
            next hlt =>
              have hnext := initramfsAdd_next ramdir idx ph s
              obtain ⟨vs, hl, hlen⟩ := ih (by omega) hlt h
              refine ⟨_, (hl.add hr).1, ?_⟩
              rw [List.length_cons]
              omega
            next => contradiction

/-! ## the root -/

@[simp] theorem initramfsRoot_next (mount : Nat) (s : Vfs) : (s.initramfsRoot mount).next =
    s.next + vnodeBytes + initramfsInodeBytes + 0x1000 := rfl

@[simp] theorem initramfsRoot_vnodes (mount : Nat) (s : Vfs) : (s.initramfsRoot mount).vnodes =
    Function.update s.vnodes s.next ⟨0, .initramfs, .initramfs, s.next + vnodeBytes⟩ := rfl

@[simp] theorem initramfsRoot_mounts (mount : Nat) (s : Vfs) : (s.initramfsRoot mount).mounts =
    Function.update s.mounts mount ⟨s.next, .initramfs⟩ := rfl

@[simp] theorem initramfsRoot_ramInodes (mount : Nat) (s : Vfs) :
    (s.initramfsRoot mount).ramInodes = Function.update s.ramInodes (s.next + vnodeBytes)
      ⟨.dir, 0, fun _ => 0, s.next + vnodeBytes + initramfsInodeBytes, 0⟩ := rfl

/-- The loop starts with the root's inode. -/
theorem initramfsSetupMount_eq (n mount : Nat) (s : Vfs) : s.initramfsSetupMount n mount =
    initramfsLoop (s.next + vnodeBytes) n 0 s.cpioDefaultStart (s.initramfsRoot mount) := by
  simp [initramfsSetupMount, initramfsRoot, initramfsCreateVnode, kmalloc]

/-- The root of what was loaded has the new nodes as its entries. -/
theorem Loaded.root {mount : Nat}
    (hl : Loaded (s.initramfsRoot mount) s' (s.next + vnodeBytes) 0 vs)
    (hlen : vs.length ≤ initramfsMaxDirEntry) :
    (s'.mounts mount).root = s.next ∧
      s'.vnodes s.next = ⟨0, .initramfs, .initramfs, s.next + vnodeBytes⟩ ∧
      (s'.ramInode s.next).type = .dir ∧
      Occupied (s'.ramInode s.next).entry initramfsMaxDirEntry vs := by
  have hpos := s.next_pos
  have hnext := initramfsRoot_next mount s
  have hv : s'.vnodes s.next = ⟨0, .initramfs, .initramfs, s.next + vnodeBytes⟩ := by
    rw [hl.vnodes _ (by omega), initramfsRoot_vnodes, Function.update_self]
  have hi : s'.ramInode s.next = s'.ramInodes (s.next + vnodeBytes) := by rw [ramInode, hv]
  rw [hl.ramdir, initramfsRoot_ramInodes, Function.update_self] at hi
  refine ⟨?_, hv, by rw [hi], hlen, fun v hmem => ?_, fun i _ => ?_⟩
  · rw [hl.mounts, initramfsRoot_mounts, Function.update_self]
  · have hle := (hl.new v hmem).1
    omega
  · rw [hi]
    by_cases hlt : i < vs.length
    · simp [hlt]
    · simp [hlt, List.getD_eq_getElem?_getD]

/-! ## loading an archive -/

/-- Distinct bytes are distinct characters. -/
theorem byteChar_inj {b c : UInt8} : byteChar b = byteChar c ↔ b = c := by
  constructor
  case mp =>
    intro h
    have hv : b.toUInt32 = c.toUInt32 := congrArg Char.val h
    exact UInt8.toUInt32_inj.1 hv
  case mpr => exact fun h => h ▸ rfl

/-- Comparing a name with a name in memory. -/
theorem sameString_iff {mem : Nat → UInt8} {p : Nat} {name name' : List UInt8} (h : 0 ∉ name)
    (h' : 0 ∉ name') (hm : HoldsAt mem p (name' ++ [0])) :
    sameString mem (name.map byteChar) p = true ↔ name = name' := by
  induction name generalizing name' p with
  | nil =>
      cases name' with
      | nil =>
          have hc := holdsAt_cons.1 hm
          simp [sameString, hc.1]
      | cons c name' =>
          have hc := holdsAt_cons.1 hm
          simp only [List.mem_cons, not_or] at h'
          simp [sameString, hc.1, Ne.symm h'.1]
  | cons b name ih =>
      simp only [List.mem_cons, not_or] at h
      cases name' with
      | nil =>
          have hc := holdsAt_cons.1 hm
          simp [sameString, hc.1, byteChar_inj, Ne.symm h.1]
      | cons c name' =>
          have hc := holdsAt_cons.1 hm
          simp only [List.mem_cons, not_or] at h'
          simp [sameString, hc.1, byteChar_inj, ih h.2 h'.2 hc.2]

/-- The node `v` is the file `f` of the archive: its name, its bytes and its
length. -/
structure IsFile (s : Vfs) (v : Nat) (f : List UInt8 × List UInt8) : Prop where
  name : HoldsAt s.mem (s.ramInode v).name (f.1 ++ [0])
  data : HoldsAt s.mem (s.ramInode v).data f.2
  datasize : (s.ramInode v).datasize = f.2.length

/-- A file that the readers of an archive can take up: its name has no `NUL` and is
not the trailer's, and the sizes fit an `int`. -/
def FileOk (f : List UInt8 × List UInt8) : Prop :=
  0 ∉ f.1 ∧ f.1 ≠ trailerName ∧ f.1.length < 2 ^ 31 ∧ f.2.length < 2 ^ 31

/-- The node `v` is the file `f` of an archive whose header is at `a`. -/
structure IsNode (s : Vfs) (v a : Nat) (f : List UInt8 × List UInt8) : Prop where
  name : (s.ramInode v).name = a + cpioHeaderBytes
  data : (s.ramInode v).data = a + dataOffset f.1
  datasize : (s.ramInode v).datasize = f.2.length

/-- The files of an archive with the addresses of their headers, the first one at `p`. -/
def placed : Nat → List (List UInt8 × List UInt8) → List (Nat × List UInt8 × List UInt8)
  | _, [] => []
  | p, f :: files => (p, f) :: placed (p + entryBytes f.1 f.2) files

@[simp] theorem length_placed (p : Nat) (files : List (List UInt8 × List UInt8)) :
    (placed p files).length = files.length := by
  induction files generalizing p with
  | nil => rfl
  | cons f files ih => rw [placed, List.length_cons, List.length_cons, ih]

/-- A name without `NUL` other than the trailer's, and sizes whose multiples of four
are `unsigned int`s. -/
def FileFits (f : List UInt8 × List UInt8) : Prop :=
  0 ∉ f.1 ∧ f.1 ≠ trailerName ∧ dataOffset f.1 < 2 ^ 32 ∧ upToFour f.2.length < 2 ^ 32

theorem FileOk.fits {f : List UInt8 × List UInt8} (h : FileOk f) : FileFits f := by
  obtain ⟨hnul, htrailer, hname, hdata⟩ := h
  refine ⟨hnul, htrailer, ?_, ?_⟩
  · unfold dataOffset upToFour cpioHeaderBytes
    omega
  · unfold upToFour
    omega

/-- The loop over an archive, from entry `idx` on: it ends, and makes a node
for every file. -/
theorem initramfsLoop_placed {files : List (List UInt8 × List UInt8)} {headerPointer : Nat}
    (ha : ArchiveAt s.mem headerPointer files) (hp : headerPointer ≠ 0) (hf : ∀ f ∈ files, FileFits f)
    (hidx : idx + files.length ≤ initramfsMaxDirEntry) (hr : ramdir < s.next) :
    ∃ s' vs, initramfsLoop ramdir (files.length + 2) idx headerPointer s = some s' ∧
      Loaded s s' ramdir idx vs ∧
      List.Forall₂ (fun v af => IsNode s' v af.1 af.2) vs (placed headerPointer files) := by
  generalize hmem : s.mem = mem at ha
  induction ha generalizing idx s with
  | trailer he =>
      subst hmem
      have hparse := cpioNewcParseHeader_entry he (by decide) (by decide) (by decide)
      rw [if_pos rfl] at hparse
      refine ⟨s, [], ?_, Loaded.refl _ _ _, .nil⟩
      simp [initramfsLoop, hp, hparse]
  | @file p name data files he _ ih =>
      subst hmem
      obtain ⟨⟨hnul, htrailer, hname, hdata⟩, hfiles⟩ := List.forall_mem_cons.1 hf
      have hparse := cpioNewcParseHeader_entry he hnul hname hdata
      rw [if_neg htrailer] at hparse
      rw [List.length_cons] at hidx
      let ph : ParsedHeader :=
        ⟨p + cpioHeaderBytes, data.length, p + dataOffset name, p + entryBytes name data⟩
      have hgrow := initramfsAdd_next ramdir idx ph s
      obtain ⟨s', vs, hloop, hl, hall⟩ := ih (s := s.initramfsAdd ramdir idx ph)
        (show p + entryBytes name data ≠ 0 by omega) hfiles
        (show idx + 1 + files.length ≤ initramfsMaxDirEntry by omega) (by omega) rfl
      obtain ⟨hl', hnode⟩ := hl.add hr
      have hv : s'.ramInode s.next = s'.ramInodes (s.next + vnodeBytes) := by
        rw [ramInode, (hl'.new _ List.mem_cons_self).2.2.1]
      rw [hnode] at hv
      refine ⟨s', s.next :: vs, ?_, hl', .cons ⟨?_, ?_, ?_⟩ hall⟩
      · rw [List.length_cons, show files.length + 1 + 2 = files.length + 2 + 1 by omega,
          initramfsLoop, if_neg hp, hparse]
        simp only
        rw [if_neg (by omega), if_pos (by omega)]
        exact hloop
      · rw [hv]
      · rw [hv]
      · rw [hv]

/-- Such a node has the name, the bytes and the length of its file. -/
theorem isFile_of_placed {mem : Nat → UInt8} {files : List (List UInt8 × List UInt8)} {p : Nat}
    (ha : ArchiveAt mem p files) (hmem : s.mem = mem)
    (hall : List.Forall₂ (fun v af => IsNode s v af.1 af.2) vs (placed p files)) :
    List.Forall₂ (IsFile s) vs files := by
  induction ha generalizing vs with
  | trailer _ =>
      cases hall
      exact .nil
  | file he _ ih =>
      cases hall with
      | cons hv hall =>
          refine .cons ⟨?_, ?_, hv.datasize⟩ (ih hall)
          · rw [hmem, hv.name]
            exact he.pathname
          · rw [hmem, hv.data]
            exact he.data

theorem initramfsLoop_archive {files : List (List UInt8 × List UInt8)} {bytes : List UInt8}
    (ha : CpioArchive files bytes) {headerPointer : Nat} (hp : headerPointer ≠ 0)
    (hm : HoldsAt s.mem headerPointer bytes) (hf : ∀ f ∈ files, FileOk f)
    (hidx : idx + files.length ≤ initramfsMaxDirEntry) (hr : ramdir < s.next) :
    ∃ s' vs, initramfsLoop ramdir (files.length + 2) idx headerPointer s = some s' ∧
      Loaded s s' ramdir idx vs ∧ List.Forall₂ (IsFile s') vs files := by
  have hat := ha.archiveAt hm
  obtain ⟨s', vs, hloop, hl, hall⟩ := initramfsLoop_placed hat hp (fun f h => (hf f h).fits) hidx hr
  exact ⟨s', vs, hloop, hl, isFile_of_placed hat hl.mem hall⟩

/-- The nodes of an archive with distinct names are found under their names. -/
theorem find_file {files : List (List UInt8 × List UInt8)} (hall : List.Forall₂ (IsFile s) vs files)
    (hnul : ∀ f ∈ files, 0 ∉ f.1) (hd : (files.map Prod.fst).Nodup) {f : List UInt8 × List UInt8}
    (hf : f ∈ files) :
    ∃ v, (vs.find? fun v => sameString s.mem (f.1.map byteChar) (s.ramInode v).name) = some v ∧
      IsFile s v f := by
  induction hall with
  | nil => contradiction
  | @cons v g vs files hv _ ih =>
      obtain ⟨hg, hnul'⟩ := List.forall_mem_cons.1 hnul
      rw [List.map_cons, List.nodup_cons] at hd
      have hsame := sameString_iff (hnul f hf) hg hv.name
      rcases List.mem_cons.1 hf with rfl | hf
      · exact ⟨v, by rw [List.find?_cons, hsame.2 rfl], hv⟩
      · have hne : f.1 ≠ g.1 := fun he => hd.1 (he ▸ List.mem_map_of_mem hf)
        obtain ⟨w, hw, hfile⟩ := ih hnul' hd.2 hf
        refine ⟨w, ?_, hfile⟩
        rw [List.find?_cons, Bool.eq_false_iff.2 (fun h => hne (hsame.1 h)), hw]

/-- Reading a file from the start. -/
theorem IsFile.read {v : Nat} {f : List UInt8 × List UInt8} (h : IsFile s v f)
    (hops : (s.vnodes v).fOps = .initramfs) (hlen : f.2.length < 2 ^ 31) (handle flags : Nat)
    {len : Nat} (hl : len < 2 ^ 64) :
    ((s.openNode v handle flags).initramfsRead handle len).1 = min len f.2.length ∧
      ((s.openNode v handle flags).initramfsRead handle len).2.1 = f.2.take len := by
  have hread : readLength len 0 f.2.length = min len f.2.length := by
    unfold readLength
    rw [Nat.add_zero, Nat.mod_eq_of_lt hl]
    split <;> omega
  have hint : toInt (min len f.2.length) = min len f.2.length := by
    unfold toInt
    rw [Int.bmod_eq_of_le] <;> omega
  have hinode : (s.openNode v handle flags).ramInode v = s.ramInode v := rfl
  have hfile : (s.openNode v handle flags).files handle = ⟨v, 0, .initramfs, flags⟩ := by
    simp [openNode, openHandle, hops]
  simp only [initramfsRead, hfile, hinode, h.datasize, hread, Nat.add_zero]
  refine ⟨hint, ?_⟩
  have hmem : (s.openNode v handle flags).mem = s.mem := rfl
  rw [hmem, h.data.take (Nat.min_le_right _ _)]
  rcases Nat.le_total len f.2.length with hle | hle
  · rw [Nat.min_eq_left hle]
  · rw [Nat.min_eq_right hle, List.take_of_length_le (Nat.le_refl _), List.take_of_length_le hle]

end Vfs

open Vfs in
/-- Over a newc archive of at most `INITRAMFS_MAX_DIR_ENTRY` files,
`initramfs_setup_mount` ends with a directory whose occupied entries are the
files, in order: the entry of file `i` has its name, its exact length and its
bytes.  A lookup of a name finds that file, whose size is exact and from which
a read of `len` bytes returns the first `len` bytes, so all of them when `len`
is not below the size.  Where the archive starts is not `NULL`; its alignment
does not matter. -/
theorem initramfsSetupMount_archive (s : Vfs) (mount : Nat)
    {files : List (List UInt8 × List UInt8)} {bytes : List UInt8}
    (hcount : files.length ≤ initramfsMaxDirEntry) (hdistinct : (files.map Prod.fst).Nodup)
    (hfiles : ∀ f ∈ files, FileOk f) (harchive : CpioArchive files bytes)
    (hstart : s.cpioDefaultStart ≠ 0) (hmem : HoldsAt s.mem s.cpioDefaultStart bytes) :
    ∃ n s', s.initramfsSetupMount n mount = some s' ∧
      (s'.ramInode (s'.mounts mount).root).type = .dir ∧
      (∀ i < initramfsMaxDirEntry,
        (s'.ramInode (s'.mounts mount).root).entry i = 0 ↔ files.length ≤ i) ∧
      (∀ (i : Nat) (hi : i < files.length),
        IsFile s' ((s'.ramInode (s'.mounts mount).root).entry i) files[i]) ∧
      ∀ f ∈ files, ∃ v, s'.initramfsLookup (s'.mounts mount).root (f.1.map byteChar) = some v ∧
        s'.initramfsGetsize v = f.2.length ∧
        ∀ handle flags len, len < 2 ^ 64 →
          ((s'.openNode v handle flags).initramfsRead handle len).1 = min len f.2.length ∧
          ((s'.openNode v handle flags).initramfsRead handle len).2.1 = f.2.take len := by
  have hnext := initramfsRoot_next mount s
  obtain ⟨s', vs, hloop, hl, hall⟩ := initramfsLoop_archive (s := s.initramfsRoot mount)
    harchive hstart hmem hfiles (show 0 + files.length ≤ initramfsMaxDirEntry by omega)
    (show s.next + vnodeBytes < _ by
      rw [hnext]
      omega)
  have hlen : vs.length = files.length := hall.length_eq
  obtain ⟨hroot, hv, htype, hocc⟩ := hl.root (hlen ▸ hcount)
  have hinternal : s'.ramInode s.next = s'.ramInodes (s.next + vnodeBytes) := by rw [ramInode, hv]
  refine ⟨files.length + 2, s', by rw [initramfsSetupMount_eq, hloop], ?_⟩
  rw [hroot]
  refine ⟨htype, fun i hi => ?_, fun i hi => ?_, fun f hf => ?_⟩
  · rw [hocc.entry_eq_zero_iff hi, hlen]
  · rw [hocc.entry_getElem (by omega)]
    exact hall.get (by omega) hi
  · have hnul : ∀ f ∈ files, 0 ∉ f.1 := fun f hf => (hfiles f hf).1
    obtain ⟨v, hfind, hfile⟩ := find_file hall hnul hdistinct hf
    have hops : (s'.vnodes v).fOps = .initramfs := by
      rw [(hl.new v (List.mem_of_find?_eq_some hfind)).2.2.1]
    refine ⟨v, by rw [initramfsLookup, hocc.find_eq, hfind], hfile.datasize, ?_⟩
    exact fun handle flags len hlt => hfile.read hops (hfiles f hf).2.2.2 handle flags hlt

/-- A header whose other fields are 0. -/
def plainHeader (namesize filesize : List UInt8) : CpioHeader :=
  let zero := List.replicate 8 48
  ⟨zero, zero, zero, zero, zero, zero, filesize, zero, zero, zero, zero, namesize, zero⟩

theorem plainHeader_ok {n m : Nat} {namesize filesize : List UInt8} (hn : IsHexField n namesize)
    (hm : IsHexField m filesize) : (plainHeader namesize filesize).Ok n m where
  fields f hf := by
    have hzero : IsHexField 0 (List.replicate 8 48) :=
      ⟨List.replicate 8 0, rfl, by simp [List.replicate, IsHexDigit], rfl⟩
    simp only [plainHeader, List.mem_cons, List.not_mem_nil, or_false, or_self] at hf
    exact ⟨0, hf ▸ hzero⟩
  filesize := hm
  namesize := hn

/-- The archive of a file `a` with the bytes 7 and 8. -/
def smallArchive : List UInt8 :=
  let field (d : UInt8) : List UInt8 := List.replicate 7 48 ++ [d]
  ((plainHeader (field 50) (field 50)).bytes ++ ([97] ++ [0]) ++ [] ++ [7, 8] ++ [0, 0]) ++
    ((plainHeader (field 66) (field 48)).bytes ++ (trailerName ++ [0]) ++ [0, 0, 0] ++ [] ++ [])

/-- A field of one digit. -/
theorem isHexField_digit {d : Nat} {c : UInt8} (h : IsHexDigit d c) :
    IsHexField d (List.replicate 7 48 ++ [c]) :=
  ⟨List.replicate 7 0 ++ [d], by simp, by simpa [List.replicate, IsHexDigit] using h, by simp [List.replicate]⟩

theorem smallArchive_archive : CpioArchive [([97], [7, 8])] smallArchive := by
  have h₂ : IsHexField 2 (List.replicate 7 48 ++ [50]) := isHexField_digit (by decide)
  have h₀ : IsHexField 0 (List.replicate 7 48 ++ [48]) := isHexField_digit (by decide)
  have h₁₁ : IsHexField 11 (List.replicate 7 48 ++ [66]) := isHexField_digit (by decide)
  exact .file ⟨_, [], [0, 0], plainHeader_ok h₂ h₂, rfl, by decide, by decide, by decide, by decide⟩
    (.trailer ⟨_, [0, 0, 0], [], plainHeader_ok h₁₁ h₀, rfl, by decide, by decide, by decide,
      by decide⟩)

/-- Memory with that archive at 0x1000. -/
def smallArchiveVfs : Vfs where
  __ := zeroVfs
  cpioDefaultStart := 0x1000
  mem x := smallArchive.getD (x - 0x1000) 0

/-- The file is found. -/
theorem initramfsSetupMount_archive_small : ∃ n s', smallArchiveVfs.initramfsSetupMount n 8 = some s' ∧
    ∃ v, s'.initramfsLookup (s'.mounts 8).root ['a'] = some v ∧ s'.initramfsGetsize v = 2 := by
  obtain ⟨n, s', h, -, -, -, hl⟩ := initramfsSetupMount_archive smallArchiveVfs 8
    (by decide) (by decide) (by simp [Vfs.FileOk, trailerName]) smallArchive_archive (by decide)
    (by decide +kernel)
  obtain ⟨v, hv, hsize, -⟩ := hl _ List.mem_cons_self
  exact ⟨n, s', h, v, hv, hsize⟩

end RpiKernel
