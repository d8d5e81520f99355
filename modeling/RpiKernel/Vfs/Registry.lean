import RpiKernel.Vfs.NameBuffers

/-!
# RpiKernel.Vfs.Registry

The registered file systems: `register_filesystem`, `find_filesystem`, and `vfs_mount` over
any of their registries.

Entries are taken from the front, and an empty one has no name.  `find_filesystem` compares
names without asking whether there is one, so it comes back just when the name is registered
(`registerAll_find`); `vfs_mount` refuses what it should under the same condition
(`vfsMount_refuses`).
-/

namespace RpiKernel

/-- `MAX_FS_REG`. -/
def maxFsReg : Nat := 0x50

/-- A registered `struct filesystem`; `setup_mount` gets a bound for its loop, the mount and
the state. -/
structure Filesystem where
  name : List Char
  setupMount : Nat → Nat → Vfs → Option Vfs

/-- `reg_fs`; an entry whose name is `NULL` is `none`. -/
abbrev Registry := Nat → Option Filesystem

namespace Registry

/-! ## the code -/

/-- The loop of `register_filesystem`, over the indices that are left. -/
def registerLoop (regFs : Registry) (fs : Filesystem) : List Nat → Int × Registry
  | [] => (-1, regFs)
  | i :: is =>
      match regFs i with
      | none => (i, Function.update regFs i (some fs))
      | some _ => registerLoop regFs fs is

/-- `register_filesystem`: the value returned and the registry. -/
def registerFilesystem (regFs : Registry) (fs : Filesystem) : Int × Registry :=
  registerLoop regFs fs (List.range maxFsReg)

/-- The loop of `find_filesystem`, over the indices that are left: the entries whose names it
reads, and its answer; there is none when it reads through `NULL`. -/
def findLoop (regFs : Registry) (fsName : List Char) : List Nat → List Nat × Option (Option Filesystem)
  | [] => ([], some none)
  | i :: is =>
      match regFs i with
      | none => ([i], none)
      | some fs =>
          if fs.name = fsName then ([i], some (some fs))
          else
            let r := findLoop regFs fsName is
            (i :: r.1, r.2)

/-- `find_filesystem`. -/
def findFilesystem (regFs : Registry) (fsName : List Char) : List Nat × Option (Option Filesystem) :=
  findLoop regFs fsName (List.range maxFsReg)

/-- `vfs_mount` before it changes anything: the entries whose names are read, and the file system
and the vnode that it goes on with; `some none` is the return value -1. -/
def mountArguments (regFs : Registry) (n : Nat) (target filesystem : List Char) (s : Vfs) :
    List Nat × Option (Option (Filesystem × Nat)) :=
  let (names, found) := regFs.findFilesystem filesystem
  (names, match found with
    | none => none
    | some none => some none
    | some (some fs) => (s.vfsLookup n target).map fun r => r.map fun dirnode => (fs, dirnode))

/-- `vfs_mount`: the entries whose names are read, and the value returned with the state. -/
def vfsMount (regFs : Registry) (n : Nat) (target filesystem : List Char) (s : Vfs) :
    List Nat × Option (Int × Vfs) :=
  let (names, arguments) := regFs.mountArguments n target filesystem s
  (names, match arguments with
    | none => none
    | some none => some (-1, s)
    | some (some (fs, dirnode)) =>
        let (mount, s) := s.kmalloc mountBytes
        let s := { s with
          vnodes := Function.update s.vnodes dirnode { s.vnodes dirnode with mount := mount } }
        (fs.setupMount n mount s).map fun s => (0, s))

/-- The registry after file systems were registered, one after the other. -/
def registerAll (fss : List Filesystem) : Registry :=
  fss.foldl (fun regFs fs => (regFs.registerFilesystem fs).2) fun _ => none

/-- `register_tmpfs` and `register_initramfs`, in the order of `init_rootfs`. -/
def bootFilesystems : List Filesystem :=
  [⟨"tmpfs".toList, fun _ mount s => some (s.tmpfsSetupMount mount)⟩,
    ⟨"initramfs".toList, fun n mount s => s.initramfsSetupMount n mount⟩]

/-! ## registering -/

variable {fss : List Filesystem} {fs : Filesystem}

/-- The first empty entry is taken. -/
theorem registerLoop_eq (k a : Nat) (ha : a ≤ fss.length) (hk : fss.length < a + k) :
    registerLoop (fun i => fss[i]?) fs (List.range' a k) =
      ((fss.length : Int), fun i => (fss ++ [fs])[i]?) := by
  induction k generalizing a with
  | zero => omega
  | succ k ih =>
      rw [List.range'_succ, registerLoop]
      by_cases hlt : a < fss.length
      · rw [List.getElem?_eq_getElem hlt]
        exact ih (a + 1) hlt (by omega)
      · have he : a = fss.length := by omega
        rw [List.getElem?_eq_none (by omega), he]
        refine congrArg (Prod.mk _) (funext fun i => ?_)
        by_cases hi : i = fss.length
        · rw [hi, Function.update_self]
          simp
        · rw [Function.update_of_ne hi]
          grind

/-- Registering goes on behind what is there. -/
theorem registerAll_from (fss : List Filesystem) {pre : List Filesystem}
    (hle : pre.length + fss.length ≤ maxFsReg) :
    fss.foldl (fun regFs fs => (registerFilesystem regFs fs).2) (fun i => pre[i]?) =
      fun i => (pre ++ fss)[i]? := by
  induction fss generalizing pre with
  | nil => simp
  | cons fs fss ih =>
      rw [List.length_cons] at hle
      have hnext : (registerFilesystem (fun i => pre[i]?) fs).2 = fun i => (pre ++ [fs])[i]? := by
        rw [registerFilesystem, List.range_eq_range', registerLoop_eq maxFsReg 0 (Nat.zero_le _) (by omega)]
      rw [List.foldl_cons, hnext, ih (by simp; omega), List.append_assoc, List.singleton_append]

/-- The file systems are in the first entries, in order. -/
theorem registerAll_eq (hle : fss.length ≤ maxFsReg) : registerAll fss = fun i => fss[i]? := by
  have hfrom := registerAll_from fss
    (show ([] : List Filesystem).length + fss.length ≤ maxFsReg by simpa using hle)
  simpa [registerAll] using hfrom

/-! ## finding -/

variable {fsName : List Char}

/-- The first file system of a name. -/
def named (fss : List Filesystem) (fsName : List Char) : Option Filesystem :=
  fss.find? fun fs => fs.name = fsName

/-- The search finds the first file system of the name; without one it comes to an entry that
is empty. -/
theorem findLoop_eq (k a : Nat) (ha : a ≤ fss.length) (hk : fss.length < a + k) :
    ∃ names, findLoop (fun i => fss[i]?) fsName (List.range' a k) =
        (names, (named (fss.drop a) fsName).map some) ∧
      ((∀ i ∈ names, i < fss.length) ↔ named (fss.drop a) fsName ≠ none) := by
  induction k generalizing a with
  | zero => omega
  | succ k ih =>
      rw [List.range'_succ, findLoop]
      by_cases hlt : a < fss.length
      · have hnamed : named (fss.drop a) fsName =
            if fss[a].name = fsName then some fss[a] else named (fss.drop (a + 1)) fsName := by
          rw [named, List.drop_eq_getElem_cons hlt, List.find?_cons]
          by_cases hname : fss[a].name = fsName <;> simp [hname, named]
        rw [hnamed, List.getElem?_eq_getElem hlt]
        by_cases hname : fss[a].name = fsName
        · refine ⟨[a], ?_, ?_⟩ <;> simp [hname, hlt]
        · obtain ⟨names, hfind, hin⟩ := ih (a + 1) hlt (by omega)
          refine ⟨a :: names, ?_, ?_⟩
          · simp [hname, hfind]
          · rw [if_neg hname, ← hin]
            simp [hlt]
      · rw [List.getElem?_eq_none (by omega), List.drop_eq_nil_of_le (by omega)]
        refine ⟨[a], ?_, ?_⟩ <;> simp [named]
        omega

/-- `find_filesystem` over a registry with room left. -/
theorem registerAll_find (hlt : fss.length < maxFsReg) (fsName : List Char) :
    ∃ names, findFilesystem (registerAll fss) fsName = (names, (named fss fsName).map some) ∧
      ((∀ i ∈ names, i < fss.length) ↔ named fss fsName ≠ none) := by
  rw [findFilesystem, registerAll_eq (Nat.le_of_lt hlt), List.range_eq_range']
  exact findLoop_eq maxFsReg 0 (Nat.zero_le _) (by omega)

/-! ## mounting -/

variable {s : Vfs} {n : Nat} {target filesystem : List Char}

/-- After boot, the registry is that of `Vfs.vfsMount`. -/
theorem vfsMount_boot :
    (vfsMount (registerAll bootFilesystems) n target filesystem s).2 = s.vfsMount n target filesystem := by
  obtain ⟨names, hfind, -⟩ := registerAll_find (show bootFilesystems.length < maxFsReg by decide) filesystem
  unfold vfsMount mountArguments Vfs.vfsMount Vfs.findFilesystem
  simp only [hfind]
  unfold bootFilesystems named
  by_cases htmpfs : filesystem = "tmpfs".toList
  · subst htmpfs
    cases hl : s.vfsLookup n target with
    | none => rfl
    | some r => cases r <;> rfl
  · by_cases hram : filesystem = "initramfs".toList
    · subst hram
      cases hl : s.vfsLookup n target with
      | none => rfl
      | some r => cases r <;> rfl
    · have htmpfs' : ¬ filesystem = ['t', 'm', 'p', 'f', 's'] := htmpfs
      have hram' : ¬ filesystem = ['i', 'n', 'i', 't', 'r', 'a', 'm', 'f', 's'] := hram
      simp [eq_comm, htmpfs', hram']

/-- `vfs_mount` reads names of registered file systems only; it returns -1 and changes nothing
when the name is not registered or the target leads nowhere, and else it uses the
`setup_mount` of the file system of that name. -/
def MountsNamed (fss : List Filesystem) (n : Nat) (target filesystem : List Char) (s : Vfs) : Prop :=
  let r := vfsMount (registerAll fss) n target filesystem s
  (∀ i ∈ r.1, i < fss.length) ∧
    ((named fss filesystem = none ∨ ∀ w, ¬ Vfs.Resolves s s.root (Vfs.components target) w) →
      r.2 = some (-1, s)) ∧
    ∀ fs w, named fss filesystem = some fs → Vfs.Resolves s s.root (Vfs.components target) w →
      (mountArguments (registerAll fss) n target filesystem s).2 = some (some (fs, w)) ∧
      r.2 = (fs.setupMount n s.next (s.withMount w)).map fun s => (0, s)

/-- **A refused mount.**  Over every registry with room left, `vfs_mount` refuses what it should
if and only if the name is registered and `vfs_lookup` comes back from the target, which
it does in a well formed tree just when the target fits its buffer. -/
theorem vfsMount_refuses (hlt : fss.length < maxFsReg) (n : Nat) (target filesystem : List Char)
    (s : Vfs) :
    (MountsNamed fss n target filesystem s ↔
      named fss filesystem ≠ none ∧ ∃ r, s.vfsLookup n target = some r) ∧
    ∀ g, Vfs.WellFormed s g → s.next ≤ n →
      ((∃ r, s.vfsLookup n target = some r) ↔ s.FitsBuffer target) := by
  refine ⟨?_, fun g hs hn => hs.vfsLookup_some hn⟩
  obtain ⟨names, hfind, hnames⟩ := registerAll_find hlt filesystem
  unfold MountsNamed vfsMount mountArguments
  simp only [hfind, hnames]
  refine and_congr_right fun hnamed => ?_
  obtain ⟨fs, hfs⟩ := Option.ne_none_iff_exists'.1 hnamed
  have hwalk : ∀ r, s.vfsLookup n target = some r → ∀ w, r = some w ↔
      Vfs.Resolves s s.root (Vfs.components target) w := by
    intro r hr w
    rw [Vfs.vfsLookup_eq] at hr
    exact Vfs.walkComponents_iff hr w
  simp only [hfs, Option.map_some, reduceCtorEq, false_or, Option.some.injEq]
  cases hl : s.vfsLookup n target with
  | none =>
      refine iff_of_false (fun h => ?_) (by simp)
      by_cases hres : ∃ w, Vfs.Resolves s s.root (Vfs.components target) w
      · obtain ⟨w, hw⟩ := hres
        exact absurd (h.2 fs w rfl hw).1 (by simp)
      · exact absurd (h.1 fun w hw => hres ⟨w, hw⟩) (by simp)
  | some r =>
      refine iff_of_true ⟨fun hres => ?_, fun fs' w hfs' hres => ?_⟩ ⟨r, rfl⟩
      · cases r with
        | none => rfl
        | some w => exact absurd ((hwalk _ hl w).1 rfl) (hres w)
      · obtain rfl := (hwalk _ hl w).2 hres
        subst hfs'
        exact ⟨rfl, rfl⟩

/-- The two file systems that are registered at boot, a target that is found and one that is
not. -/
theorem vfsMount_refuses_boot :
    MountsNamed bootFilesystems 1 [] "initramfs".toList zeroVfs.initRoot ∧
      MountsNamed bootFilesystems 1 "/a".toList "tmpfs".toList zeroVfs.initRoot :=
  ⟨(vfsMount_refuses (by decide) 1 [] "initramfs".toList zeroVfs.initRoot).1.2 ⟨by decide, _, rfl⟩,
    (vfsMount_refuses (by decide) 1 "/a".toList "tmpfs".toList zeroVfs.initRoot).1.2
      ⟨by decide, _, rfl⟩⟩

/-- **An unknown file system**: the search goes on behind the two that are registered, and reads
the name of an empty entry. -/
theorem vfsMount_unknown :
    vfsMount (registerAll bootFilesystems) 1 "/".toList "ext2".toList zeroVfs.initRoot = ([0, 1, 2], none) ∧
      ¬ MountsNamed bootFilesystems 1 "/".toList "ext2".toList zeroVfs.initRoot := by
  have hmount : vfsMount (registerAll bootFilesystems) 1 "/".toList "ext2".toList zeroVfs.initRoot =
      ([0, 1, 2], none) := rfl
  refine ⟨hmount, fun h => ?_⟩
  have hread := h.1
  simp only [hmount] at hread
  exact absurd (hread 2 (by decide)) (by decide)

end Registry

end RpiKernel
