import RpiKernel.Vfs.Grow
import RpiKernel.Lib.Runs

/-!
# RpiKernel.Vfs.VfsRun

The file systems under any sequence of `vfs_mkdir`, `vfs_open`, `vfs_mount` and
`vfs_mknod` calls, from the moment there is a root.  The tree of vnodes is well
formed in every state (`vfsReach_wellFormed`).
-/

namespace RpiKernel

open Bytes Runs

/-- A string whose components fit the buffer of `vfs_lookup`. -/
structure PathOk (p : List Char) : Prop where
  nul : '\x00' ∉ p
  short : ∀ c ∈ p.splitOn '/', c.length ≤ maxFileName

namespace Vfs

variable {s s' : Vfs} {g : Shape} {d w n : Nat} {p : List Char}

/-- The characters of the components are those of the string. -/
theorem mem_of_mem_splitOn {c : List Char} {a : Char} (hc : c ∈ p.splitOn '/') (ha : a ∈ c) :
    a ∈ p := by
  induction p generalizing c with
  | nil =>
      rw [List.splitOn_nil, List.mem_singleton] at hc
      rwa [hc] at ha
  | cons b p ih =>
      rw [List.splitOn, List.splitOnP_cons_eq_if_modifyHead] at hc
      split at hc
      next =>
        rcases List.mem_cons.1 hc with rfl | hc
        · contradiction
        · exact List.mem_cons_of_mem b (ih hc ha)
      next =>
        obtain ⟨q, qs, hq⟩ := List.exists_cons_of_ne_nil (List.splitOnP_ne_nil (· == '/') p)
        rw [hq, List.modifyHead_cons] at hc
        have hmem : ∀ c' ∈ q :: qs, c' ∈ p.splitOn '/' := fun c' hc' => by
          rw [List.splitOn, hq]
          exact hc'
        rcases List.mem_cons.1 hc with rfl | hc
        · rcases List.mem_cons.1 ha with rfl | ha
          · exact List.mem_cons_self
          · exact List.mem_cons_of_mem b (ih (hmem q List.mem_cons_self) ha)
        · exact List.mem_cons_of_mem b (ih (hmem c (List.mem_cons_of_mem q hc)) ha)

/-- The components that `vfs_lookup` uses are parts of those of the string. -/
theorem components_part {c : List Char} (hc : c ∈ components p) :
    ∃ c' ∈ p.splitOn '/', c.length ≤ c'.length ∧ ∀ a ∈ c, a ∈ p := by
  cases p with
  | nil => contradiction
  | cons b p =>
      simp only [components, List.drop_one, List.tail_cons, reduceCtorEq, if_false] at hc
      have hchars : ∀ a ∈ c, a ∈ b :: p := fun a ha =>
        List.mem_cons_of_mem b (mem_of_mem_splitOn hc ha)
      rw [List.splitOn, List.splitOnP_cons_eq_if_modifyHead]
      split
      next => exact ⟨c, List.mem_cons_of_mem _ hc, Nat.le_refl _, hchars⟩
      next =>
        obtain ⟨q, qs, hq⟩ := List.exists_cons_of_ne_nil (List.splitOnP_ne_nil (· == '/') p)
        rw [List.splitOn, hq] at hc
        rw [hq, List.modifyHead_cons]
        rcases List.mem_cons.1 hc with rfl | hc
        · exact ⟨b :: c, List.mem_cons_self, Nat.le_succ _, hchars⟩
        · exact ⟨c, List.mem_cons_of_mem _ hc, Nat.le_refl _, hchars⟩

end Vfs

/-- The components that `vfs_lookup` uses fit its buffer. -/
theorem PathOk.components_short (h : PathOk p) :
    ∀ c ∈ Vfs.components p, c.length ≤ maxFileName := fun c hc => by
  obtain ⟨c', hc', hle, -⟩ := Vfs.components_part hc
  exact Nat.le_trans hle (h.short c' hc')

/-- The components that `vfs_lookup` uses have no `NUL`. -/
theorem PathOk.components_nul (h : PathOk p) : ∀ c ∈ Vfs.components p, '\x00' ∉ c :=
  fun _ hc hn => by
    obtain ⟨-, -, -, hmem⟩ := Vfs.components_part hc
    exact h.nul (hmem _ hn)

namespace Vfs

/-! ## what the calls do to the tree -/

/-- A vnode that `vfs_lookup` finds is in the tree. -/
theorem WellFormed.lookup_mem (hs : WellFormed s g) (h : s.vfsLookup n p = some (some w)) :
    w ∈ g.nodes := by
  rw [vfsLookup_eq] at h
  exact hs.resolves_mem hs.root_mem ((walkComponents_iff h w).1 rfl)

/-- `tmpfs_create` and `tmpfs_mkdir` keep the tree well formed. -/
theorem WellFormed.make (hs : WellFormed s g) (hd : d ∈ g.nodes) (hops : (s.vnodes d).vOps = .tmpfs)
    (type : FsnodeType) (target : Nat) (name : List Char) :
    ∃ g', WellFormed (s.tmpfsMake type d target name).2.2 g' := by
  rcases tmpfsMake_cases (hs.children hd hops) target with h | ⟨h, -, -, hlt, -⟩
  · exact ⟨g, by rw [h]; exact hs⟩
  · exact ⟨_, by rw [h]; exact hs.add hd hops hlt type name⟩

/-- Opening keeps the tree well formed. -/
theorem WellFormed.openNode (hs : WellFormed s g) (node handle flags : Nat) :
    WellFormed (s.openNode node handle flags) g :=
  hs.congr rfl rfl rfl rfl rfl (fun _ => rfl) (fun _ => rfl) (fun _ => rfl)

/-- `vfs_mkdir` keeps the tree well formed. -/
theorem WellFormed.vfsMkdir (hs : WellFormed s g) {r : Int × Vfs} (h : s.vfsMkdir n p = some r) :
    ∃ g', WellFormed r.2 g' := by
  unfold Vfs.vfsMkdir at h
  dsimp only at h
  split at h
  next => contradiction
  next =>
    split at h
    next => contradiction
    next =>
      obtain rfl := Option.some.inj h
      exact ⟨g, hs⟩
    next node hl =>
      obtain rfl := Option.some.inj h
      have hmem := hs.lookup_mem hl
      unfold mkdir
      split
      next hops => exact hs.make hmem hops .dir node _
      next => exact ⟨g, hs⟩

/-- `vfs_open` keeps the tree well formed. -/
theorem WellFormed.vfsOpen (hs : WellFormed s g) {flags handle : Nat} {r : Int × Vfs}
    (h : s.vfsOpen n p flags handle = some r) : ∃ g', WellFormed r.2 g' := by
  unfold Vfs.vfsOpen at h
  split at h
  next => contradiction
  next =>
    obtain rfl := Option.some.inj h
    exact ⟨g, hs.openNode _ _ _⟩
  next =>
    split at h
    next => contradiction
    next =>
      split at h
      next => contradiction
      next =>
        obtain rfl := Option.some.inj h
        exact ⟨g, hs⟩
      next node hl =>
        obtain rfl := Option.some.inj h
        have hmem := hs.lookup_mem hl
        have hcreate : ∃ g',
            WellFormed (s.create node node (p.drop (lastSlashIdx p + 1))).2.2 g' := by
          unfold create
          split
          next hops => exact hs.make hmem hops .file node _
          next => exact ⟨g, hs⟩
        obtain ⟨g', hg'⟩ := hcreate
        exact ⟨g', hg'.openNode _ _ _⟩

/-- `vfs_mknod` keeps the tree well formed. -/
theorem WellFormed.vfsMknod (hs : WellFormed s g) {dev : FileOps} {handle : Nat}
    (h : s.vfsMknod n p dev handle = some s') : ∃ g', WellFormed s' g' := by
  unfold Vfs.vfsMknod at h
  split at h
  next s₁ ho =>
    obtain rfl := Option.some.inj h
    obtain ⟨g', hg'⟩ := hs.vfsOpen ho
    refine ⟨g', hg'.congr rfl rfl rfl rfl rfl (fun v => ?_) (fun v => ?_) fun v => ?_⟩
    all_goals
      dsimp only
      by_cases hv : v = (s₁.files handle).vnode
      · rw [hv, Function.update_self]
      · rw [Function.update_of_ne hv]
  next => contradiction

/-- What `vfs_mount` does: nothing when the target is not found, and else a new
file system at it. -/
theorem vfsMount_cases {target filesystem : List Char} {r : Int}
    (h : s.vfsMount n target filesystem = some (r, s')) :
    (r = -1 ∧ s' = s ∧ s.vfsLookup n target = some none) ∨
      ∃ w fs vs, r = 0 ∧ s.vfsLookup n target = some (some w) ∧
        findFilesystem filesystem = some fs ∧
        Grafted s s' w s.next (s.next + mountBytes) fs vs := by
  unfold vfsMount at h
  split at h
  next => contradiction
  next fs hfs =>
    split at h
    next => contradiction
    next hl =>
      obtain ⟨rfl, rfl⟩ := Prod.mk.inj (Option.some.inj h)
      exact .inl ⟨rfl, rfl, hl⟩
    next w hl =>
      right
      obtain ⟨s₁, hs₁, he⟩ := Option.map_eq_some_iff.1 h
      obtain ⟨rfl, rfl⟩ := Prod.mk.inj he
      cases fs with
      | tmpfs =>
          obtain rfl := Option.some.inj hs₁
          exact ⟨w, _, [], rfl, hl, hfs, grafted_tmpfs s w⟩
      | initramfs =>
          obtain ⟨vs, hg⟩ := grafted_initramfs (w := w) hs₁
          exact ⟨w, _, vs, rfl, hl, hfs, hg⟩

/-- `vfs_mount` keeps the tree well formed. -/
theorem WellFormed.vfsMount (hs : WellFormed s g) {target filesystem : List Char} {r : Int × Vfs}
    (h : s.vfsMount n target filesystem = some r) : ∃ g', WellFormed r.2 g' := by
  obtain ⟨r, s'⟩ := r
  rcases vfsMount_cases h with ⟨-, hr, -⟩ | ⟨w, fs, vs, -, hl, -, hg⟩
  · exact ⟨g, hr ▸ hs⟩
  · exact ⟨_, hs.graft hg (hs.lookup_mem hl)⟩

/-- The tree with a fresh root. -/
theorem initRoot_wellFormed (s : Vfs) : ∃ g, WellFormed s.initRoot g := by
  generalize hs' : s.initRoot = s'
  have hmb : mountBytes = 16 := rfl
  have hvb : vnodeBytes = 32 := rfl
  have htb : tmpfsInodeBytes = 168 := rfl
  have hnext : s'.next = s.next + mountBytes + vnodeBytes + tmpfsInodeBytes + 0x1000 := by
    rw [← hs']
    rfl
  have hrootfs : s'.rootfs = s.next := by
    rw [← hs']
    rfl
  have hroot : s'.root = s.next + mountBytes := by
    rw [root, hrootfs, ← hs']
    exact congrArg Mount.root (Function.update_self s.next ⟨s.next + mountBytes, .tmpfs⟩ s.mounts)
  have hv : s'.vnodes (s.next + mountBytes) =
      ⟨0, .tmpfs, .tmpfs, s.next + mountBytes + vnodeBytes⟩ := by
    rw [← hs']
    exact Function.update_self _ _ _
  have hinode : s'.inode (s.next + mountBytes) =
      ⟨.dir, [], fun _ => 0, s.next + mountBytes + vnodeBytes + tmpfsInodeBytes, 0⟩ := by
    rw [inode, hv, ← hs']
    exact Function.update_self _ _ _
  refine ⟨⟨[s.next + mountBytes], fun _ => [], fun v => (v, false)⟩, ?_⟩
  have hentries : s'.entries (s.next + mountBytes) = fun _ => 0 := by
    rw [entries, hv, hinode]
  constructor
  case root_mem => exact List.mem_singleton.2 hroot
  case rootfs_lt => omega
  all_goals simp only [List.mem_singleton, forall_eq, hroot, hv]
  case root_le => exact Nat.le_refl _
  case lt_next => omega
  case internal_lt => omega
  case internal_inj => exact fun _ => trivial
  case mount_lt => omega
  case occupied =>
    rw [hentries]
    exact ⟨Nat.zero_le _, by simp, fun _ _ => rfl⟩
  case kid => exact fun _ h => absurd h List.not_mem_nil
  case mounted => exact fun h => absurd rfl h

end Vfs

/-! ## runs -/

/-- A call with a path. -/
inductive VfsCall where
  | mkdir (pathname : List Char)
  | open (pathname : List Char) (flags handle : Nat)
  | mount (target filesystem : List Char)
  | mknod (pathname : List Char) (dev : FileOps) (handle : Nat)

namespace VfsCall

/-- The path. -/
def path : VfsCall → List Char
  | mkdir p | .open p _ _ | mount p _ | mknod p _ _ => p

/-- The state after the call, with at most `n` redirections at a time. -/
def step (s : Vfs) : Nat × VfsCall → Option Vfs
  | (n, mkdir p) => (s.vfsMkdir n p).map Prod.snd
  | (n, .open p flags handle) => (s.vfsOpen n p flags handle).map Prod.snd
  | (n, mount target filesystem) => (s.vfsMount n target filesystem).map Prod.snd
  | (n, mknod p dev handle) => s.vfsMknod n p dev handle

/-- The path starts with a slash and has short components. -/
def Good (_ : Vfs) (c : Nat × VfsCall) : Prop := PathOk c.2.path ∧ c.2.path.head? = some '/'

end VfsCall

namespace Vfs

variable {s₀ s : Vfs} {n handle : Nat}

/-- Every call keeps the tree well formed. -/
theorem WellFormed.step {g : Shape} (hs : WellFormed s g) {c : Nat × VfsCall} {s' : Vfs}
    (h : VfsCall.step s c = some s') : ∃ g', WellFormed s' g' := by
  obtain ⟨n, c⟩ := c
  cases c with
  | mkdir p =>
      obtain ⟨r, hr, rfl⟩ := Option.map_eq_some_iff.1 h
      exact hs.vfsMkdir hr
  | «open» p flags handle =>
      obtain ⟨r, hr, rfl⟩ := Option.map_eq_some_iff.1 h
      exact hs.vfsOpen hr
  | mount target filesystem =>
      obtain ⟨r, hr, rfl⟩ := Option.map_eq_some_iff.1 h
      exact hs.vfsMount hr
  | mknod p dev handle => exact hs.vfsMknod h

/-- The tree is well formed in every state that is reached. -/
theorem vfsReach_wellFormed {good : Vfs → Nat × VfsCall → Prop}
    (hr : Reach VfsCall.step good s₀.initRoot s) : ∃ g, WellFormed s g :=
  hr.inv (I := fun s => ∃ g, WellFormed s g) (initRoot_wellFormed s₀)
    fun _ _ _ ⟨_, hs⟩ _ h => hs.step h

end Vfs

end RpiKernel
