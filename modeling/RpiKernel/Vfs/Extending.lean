import RpiKernel.Vfs.Create
import RpiKernel.Vfs.Mount

/-!
# RpiKernel.Vfs.Extending

What `vfs_mkdir`, `vfs_open` and `vfs_mount` leave alone.

* `Stored` — the data pages of all tmpfs vnodes, in whatever mount they are, are apart;
* `Grows` — the vnodes that were there keep their pages, and new ones get new pages;
* `TmpfsWalk` — the walk along a path through directories of tmpfs, which only a mount on the way changes.
-/

namespace RpiKernel

open Bytes

/-- The occupied entries are determined by the entries. -/
theorem Occupied.subset {entry : Nat → Nat} {n : Nat} {cs cs' : List Nat} (h : Occupied entry n cs)
    (h' : Occupied entry n cs') : cs ⊆ cs' := by
  intro c hc
  obtain ⟨i, hi, rfl⟩ := List.getElem_of_mem hc
  have hne := h.ne_zero _ hc
  have hn : i < n := Nat.lt_of_lt_of_le hi h.length_le
  rw [← h.entry_getElem hi] at hne ⊢
  have hi' : i < cs'.length := Nat.lt_of_not_le fun hle => hne ((h'.entry_eq_zero_iff hn).2 hle)
  rw [h'.entry_getElem hi']
  exact List.getElem_mem hi'

namespace Vfs

variable {s s' : Vfs} {g g' : Shape} {d u v w n : Nat} {p name : List Char} {cs : List (List Char)}
  {type : FsnodeType}

/-! ## data pages -/

/-- The bytes of a tmpfs file. -/
def contents (s : Vfs) (v : Nat) : List UInt8 := loadBytes (s.inode v).data (s.inode v).datasize s.mem

/-- A page of its own for every vnode of a tmpfs, and the operations of tmpfs on no other vnode. -/
structure Stored (s : Vfs) (g : Shape) : Prop where
  ops : ∀ v ∈ g.nodes, (s.vnodes v).fOps = .tmpfs → (s.vnodes v).vOps = .tmpfs
  page : ∀ v ∈ g.nodes, (s.vnodes v).vOps = .tmpfs → (s.inode v).data + maxFileSize ≤ s.next
  size : ∀ v ∈ g.nodes, (s.vnodes v).vOps = .tmpfs → (s.inode v).datasize ≤ maxFileSize
  apart : ∀ u ∈ g.nodes, ∀ v ∈ g.nodes, (s.vnodes u).vOps = .tmpfs → (s.vnodes v).vOps = .tmpfs → u ≠ v →
    (s.inode u).data + maxFileSize ≤ (s.inode v).data ∨ (s.inode v).data + maxFileSize ≤ (s.inode u).data

/-- What a call with a path leaves alone: the vnodes that were there, with their pages and sizes; of the
new ones one at most is of a tmpfs, and it has a new page. -/
structure Grows (s s' : Vfs) (g g' : Shape) : Prop where
  root : s'.root = s.root
  mem : s'.mem = s.mem
  next : s.next ≤ s'.next
  nodes : g.nodes ⊆ g'.nodes
  data : ∀ v ∈ g.nodes, (s'.inode v).data = (s.inode v).data
  datasize : ∀ v ∈ g.nodes, (s'.inode v).datasize = (s.inode v).datasize
  vOps : ∀ v ∈ g.nodes, (s'.vnodes v).vOps = (s.vnodes v).vOps
  fOps : ∀ v ∈ g.nodes, (s'.vnodes v).fOps = (s.vnodes v).fOps
  new : ∀ v ∈ g'.nodes, v ∉ g.nodes → (s'.vnodes v).vOps = .tmpfs → s.next ≤ (s'.inode v).data ∧
    (s'.inode v).data + maxFileSize ≤ s'.next ∧ (s'.inode v).datasize = 0
  newOps : ∀ v ∈ g'.nodes, v ∉ g.nodes → (s'.vnodes v).fOps = .tmpfs → (s'.vnodes v).vOps = .tmpfs
  single : ∀ u ∈ g'.nodes, ∀ v ∈ g'.nodes, u ∉ g.nodes → v ∉ g.nodes → (s'.vnodes u).vOps = .tmpfs →
    (s'.vnodes v).vOps = .tmpfs → u = v

theorem Grows.refl (s : Vfs) (g : Shape) : Grows s s g g where
  root := rfl
  mem := rfl
  next := Nat.le_refl _
  nodes := fun _ h => h
  data := fun _ _ => rfl
  datasize := fun _ _ => rfl
  vOps := fun _ _ => rfl
  fOps := fun _ _ => rfl
  new := fun _ h h' => absurd h h'
  newOps := fun _ h h' => absurd h h'
  single := fun _ h _ _ h' => absurd h h'

/-- A handle is no part of it. -/
theorem Grows.openNode (h : Grows s s' g g') (node handle flags : Nat) :
    Grows s (s'.openNode node handle flags) g g' :=
  ⟨h.root, h.mem, h.next, h.nodes, h.data, h.datasize, h.vOps, h.fOps, h.new, h.newOps, h.single⟩

/-- The contents of the files that were there. -/
theorem Grows.contents (h : Grows s s' g g') (hv : v ∈ g.nodes) : s'.contents v = s.contents v := by
  unfold Vfs.contents
  rw [h.mem, h.data v hv, h.datasize v hv]

/-- New pages are apart from the old ones. -/
theorem Stored.grow (hs : Stored s g) (h : Grows s s' g g') : Stored s' g' where
  ops v hv hf := by
    by_cases hold : v ∈ g.nodes
    · rw [h.vOps v hold]
      exact hs.ops v hold (h.fOps v hold ▸ hf)
    · exact h.newOps v hv hold hf
  page v hv ho := by
    by_cases hold : v ∈ g.nodes
    · rw [h.data v hold]
      exact Nat.le_trans (hs.page v hold (h.vOps v hold ▸ ho)) h.next
    · exact (h.new v hv hold ho).2.1
  size v hv ho := by
    by_cases hold : v ∈ g.nodes
    · rw [h.datasize v hold]
      exact hs.size v hold (h.vOps v hold ▸ ho)
    · rw [(h.new v hv hold ho).2.2]
      exact Nat.zero_le _
  apart u hu v hv hou hov hne := by
    by_cases hu' : u ∈ g.nodes <;> by_cases hv' : v ∈ g.nodes
    · rw [h.data u hu', h.data v hv']
      exact hs.apart u hu' v hv' (h.vOps u hu' ▸ hou) (h.vOps v hv' ▸ hov) hne
    · have hpage := hs.page u hu' (h.vOps u hu' ▸ hou)
      have hnew := h.new v hv hv' hov
      rw [h.data u hu']
      omega
    · have hpage := hs.page v hv' (h.vOps v hv' ▸ hov)
      have hnew := h.new u hu hu' hou
      rw [h.data v hv']
      omega
    · exact absurd (h.single u hu v hv hu' hv' hou hov) hne

/-! ## calls with a path -/

/-- A new entry of a tmpfs directory. -/
theorem WellFormed.grows_add (hs : WellFormed s g) (hd : d ∈ g.nodes) (idx : Nat) :
    Grows s (s.tmpfsAdd type d idx name).2 g (g.add d s.next) := by
  have hinode : ∀ u ∈ g.nodes, (s.tmpfsAdd type d idx name).2.inode u =
      if (s.vnodes u).internal = (s.vnodes d).internal then
        { s.inode u with entry := Function.update (s.inode u).entry idx s.next }
      else s.inode u := fun u hu =>
    tmpfsAdd_inode (hs.lt_next d hd) (hs.lt_next u hu) (hs.internal_lt d hd) (hs.internal_lt u hu)
  have hnew : ∀ v ∈ (g.add d s.next).nodes, v ∉ g.nodes → v = s.next := fun v hv hn => by
    simpa [Shape.add, hn] using hv
  have hnext : (s.tmpfsAdd type d idx name).2.vnodes s.next = ⟨0, .tmpfs, .tmpfs, s.next + vnodeBytes⟩ := by
    rw [tmpfsAdd_vnodes, Function.update_self]
  constructor
  case root => rfl
  case mem => rfl
  case next =>
    rw [tmpfsAdd_next]
    omega
  case nodes => exact fun v hv => List.mem_append_left _ hv
  case data =>
    intro v hv
    rw [hinode v hv]
    split <;> rfl
  case datasize =>
    intro v hv
    rw [hinode v hv]
    split <;> rfl
  case vOps => exact fun v hv => by rw [hs.created_vnodes hv]
  case fOps => exact fun v hv => by rw [hs.created_vnodes hv]
  case new =>
    intro v hv hn _
    have hmax : maxFileSize = 0x1000 := rfl
    rw [hnew v hv hn, tmpfsAdd_inode_new (hs.lt_next d hd) (hs.internal_lt d hd), tmpfsAdd_next, hmax]
    dsimp only
    exact ⟨by omega, Nat.le_refl _, rfl⟩
  case newOps =>
    intro v hv hn _
    rw [hnew v hv hn, hnext]
  case single => exact fun u hu v hv hnu hnv _ _ => (hnew u hu hnu).trans (hnew v hv hnv).symm

/-- A new file system: a tmpfs has its root only, with an empty page. -/
theorem Grafted.grows {m r : Nat} {fs : VnodeOps} {vs : List Nat} (h : Grafted s s' w m r fs vs)
    (hs : WellFormed s g) (hops : ∀ v ∈ r :: vs, (s'.vnodes v).fOps = .tmpfs → (s'.vnodes v).vOps = .tmpfs)
    (hroot : fs = .tmpfs → vs = [] ∧ s.next ≤ (s'.inode r).data ∧
      (s'.inode r).data + maxFileSize ≤ s'.next ∧ (s'.inode r).datasize = 0) :
    Grows s s' g (g.graft w r vs) := by
  have hnew : ∀ v ∈ (g.graft w r vs).nodes, v ∉ g.nodes → v ∈ r :: vs := fun v hv hn =>
    (List.mem_append.1 hv).resolve_left hn
  have hone : ∀ v ∈ (g.graft w r vs).nodes, v ∉ g.nodes → (s'.vnodes v).vOps = .tmpfs →
      fs = .tmpfs ∧ v = r := fun v hv hn ho => by
    have hm := hnew v hv hn
    have hfs : fs = .tmpfs := (h.root_mount v hm).2.1.symm.trans ho
    rw [(hroot hfs).1, List.mem_singleton] at hm
    exact ⟨hfs, hm⟩
  constructor
  case root => exact h.root_eq hs
  case mem => exact h.mem
  case next => exact Nat.le_of_lt h.next_lt
  case nodes => exact fun v hv => List.mem_append_left _ hv
  case data => exact fun v hv => by rw [(h.inode_old hs hv).1]
  case datasize => exact fun v hv => by rw [(h.inode_old hs hv).1]
  case vOps => exact fun v hv => (h.vnode_old hs hv).1
  case fOps =>
    intro v hv
    rw [h.vnodes v (hs.lt_next v hv)]
    split
    next hvw => rw [hvw]
    next => rfl
  case new =>
    intro v hv hn ho
    obtain ⟨hfs, rfl⟩ := hone v hv hn ho
    exact (hroot hfs).2
  case newOps => exact fun v hv hn => hops v (hnew v hv hn)
  case single =>
    intro u hu v hv hnu hnv hou hov
    rw [(hone u hu hnu hou).2, (hone v hv hnv hov).2]

/-- A mounted tmpfs. -/
theorem grows_tmpfs (hs : WellFormed s g) (w : Nat) :
    Grows s ((s.withMount w).tmpfsSetupMount s.next) g (g.graft w (s.next + mountBytes) []) := by
  have hg := grafted_tmpfs s w
  have hv : ((s.withMount w).tmpfsSetupMount s.next).vnodes (s.next + mountBytes) =
      ⟨0, .tmpfs, .tmpfs, s.next + mountBytes + vnodeBytes⟩ := Function.update_self _ _ _
  have hi : ((s.withMount w).tmpfsSetupMount s.next).inode (s.next + mountBytes) =
      ⟨.dir, [], fun _ => 0, s.next + mountBytes + vnodeBytes + tmpfsInodeBytes, 0⟩ := by
    rw [inode, hv]
    exact Function.update_self _ _ _
  have hnext : ((s.withMount w).tmpfsSetupMount s.next).next =
      s.next + mountBytes + vnodeBytes + tmpfsInodeBytes + 0x1000 := rfl
  have hmax : maxFileSize = 0x1000 := rfl
  refine hg.grows hs (fun v hm _ => ?_) fun _ => ⟨rfl, ?_⟩
  · rw [List.mem_singleton.1 hm, hv]
  · rw [hi, hnext, hmax]
    dsimp only
    exact ⟨by omega, Nat.le_refl _, rfl⟩

/-- A mounted initramfs. -/
theorem grows_initramfs (hs : WellFormed s g) (h : (s.withMount w).initramfsSetupMount n s.next = some s')
    {vs : List Nat} (hg : Grafted s s' w s.next (s.next + mountBytes) .initramfs vs) :
    Grows s s' g (g.graft w (s.next + mountBytes) vs) ∧ s'.files = s.files := by
  rw [initramfsSetupMount_eq] at h
  have hnext' : (s.withMount w).next = s.next + mountBytes := rfl
  have hlt : s.next + mountBytes + vnodeBytes < ((s.withMount w).initramfsRoot s.next).next := by
    rw [initramfsRoot_next, hnext']
    unfold initramfsInodeBytes
    omega
  obtain ⟨vs', hl, hlen⟩ := initramfsLoop_loaded n hlt (Nat.zero_le _) h
  rw [Nat.zero_add] at hlen
  obtain ⟨-, hv, -, hocc⟩ := hl.root hlen
  rw [hnext'] at hv hocc
  have hcount : Occupied (s'.entries (s.next + mountBytes)) (entryCount .initramfs) vs' := by
    simp only [entries, hv]
    exact hocc
  have hsame : vs ⊆ vs' := hg.occupied.subset hcount
  refine ⟨hg.grows hs (fun v hm hf => ?_) fun he => VnodeOps.noConfusion he, hl.files⟩
  have hram : (s'.vnodes v).fOps = .initramfs := by
    rcases List.mem_cons.1 hm with rfl | hm
    · rw [hv]
    · rw [(hl.new v (hsame hm)).2.2.1]
  rw [hram] at hf
  contradiction

/-! ## paths -/

/-- The walk along components through directories of tmpfs. -/
inductive TmpfsWalk (s : Vfs) : Nat → List (List Char) → Nat → Prop
  | here {d : Nat} : TmpfsWalk s d [] d
  | into {d v w x : Nat} {c : List Char} {cs : List (List Char)} : (s.vnodes d).vOps = .tmpfs →
      s.lookup d c = some v → Crosses s v w → TmpfsWalk s w cs x → TmpfsWalk s d (c :: cs) x

theorem TmpfsWalk.resolves (h : TmpfsWalk s d cs w) : Resolves s d cs w := by
  induction h with
  | here => exact .here
  | into _ hl hc _ ih => exact .into hl hc ih

theorem Crosses.congr (hmounts : s'.mounts = s.mounts) (hmount : ∀ v, (s'.vnodes v).mount = (s.vnodes v).mount)
    (h : Crosses s v w) : Crosses s' v w := by
  induction h with
  | stay h0 => exact .stay (by rwa [hmount])
  | enter hne _ ih => exact .enter (by rwa [hmount]) (by rwa [hmounts, hmount])

/-- What does not change a walk: the contents of files, handles, and what is outside of the tmpfs's. -/
theorem TmpfsWalk.congr (hmounts : s'.mounts = s.mounts)
    (hmount : ∀ v, (s'.vnodes v).mount = (s.vnodes v).mount) (hops : ∀ v, (s'.vnodes v).vOps = (s.vnodes v).vOps)
    (hentry : ∀ v, (s'.inode v).entry = (s.inode v).entry) (hname : ∀ v, (s'.inode v).name = (s.inode v).name)
    (h : TmpfsWalk s d cs w) : TmpfsWalk s' d cs w := by
  induction h with
  | here => exact .here
  | into ho hl hc _ ih =>
      refine .into (by rwa [hops]) ?_ (hc.congr hmounts hmount) ih
      simp only [lookup, ho, hops] at hl ⊢
      simpa only [tmpfsLookup, hentry, hname] using hl

/-- A vnode that a path leads to is behind the mounts. -/
theorem Resolves.mount_eq_zero (h : Resolves s d cs w) (hne : cs ≠ []) : (s.vnodes w).mount = 0 := by
  obtain ⟨pre, c, rfl⟩ := List.eq_nil_or_concat' cs |>.resolve_left hne
  obtain ⟨y, -, hlast⟩ := resolves_append.1 h
  obtain ⟨v, z, -, hcross, hnil⟩ := resolves_cons.1 hlast
  exact resolves_nil.1 hnil ▸ hcross.mount_eq_zero

theorem components_ne_nil (hp : p.head? = some '/') : components p ≠ [] := by
  cases p with
  | nil => contradiction
  | cons a q => exact List.splitOnP_ne_nil (· == '/') q

/-- A new entry. -/
theorem WellFormed.created_walk (hs : WellFormed s g) (hd : d ∈ g.nodes) (ha : s.Accepts d name)
    (hu : u ∈ g.nodes) (h : TmpfsWalk s u cs w) :
    TmpfsWalk (s.tmpfsAdd type d (g.kids d).length name).2 u cs w := by
  induction h with
  | here => exact .here
  | into ho hl hc _ ih =>
      have hv := (hs.kid _ hu _ (hs.lookup_kid hu hl).1).1
      exact .into (by rwa [hs.created_vnodes hu]) (hs.created_lookup hd ha hu hl) (hs.created_crosses hv hc)
        (ih (hs.crosses_mem hv hc))

/-- A mount that is not on the way. -/
theorem Grafted.walk {m r : Nat} {fs : VnodeOps} {vs : List Nat} (h : Grafted s s' w m r fs vs)
    (hs : WellFormed s g) (hw : w ∈ g.nodes) (h0 : (s.vnodes w).mount = 0) (hd : d ∈ g.nodes)
    (hp : ∀ pre, pre <+: cs → ¬ Resolves s d pre w) (ht : TmpfsWalk s d cs v) : TmpfsWalk s' d cs v := by
  induction ht with
  | here => exact .here
  | @into d u y x c cs ho hl hc _ ih =>
      have hmem := (hs.kid d hd u (hs.lookup_kid hd hl).1).1
      have hyw : y ≠ w := fun he => hp [c] ⟨cs, rfl⟩ (.into hl (he ▸ hc) .here)
      have hc' := h.crosses_old hs hw h0 hmem hc
      rw [if_neg hyw] at hc'
      refine .into ?_ (by rw [h.lookup_old hs hd, hl]) hc' (ih (hs.crosses_mem hmem hc) fun pre hpre hr => ?_)
      · rwa [(h.vnode_old hs hd).1]
      · exact hp (c :: pre) (List.cons_prefix_cons.2 ⟨rfl, hpre⟩) (.into hl hc hr)

/-- What is found by components goes on to be found by them, from `s` to `s'`, but for the components
that a mount covers. -/
def KeepsWalks (s s' : Vfs) (covered : List (List Char) → Prop) : Prop :=
  ∀ cs x, (∀ c ∈ cs, '\x00' ∉ c) → ¬ covered cs → TmpfsWalk s s.root cs x → TmpfsWalk s' s'.root cs x

/-- What a call with a path comes to. -/
structure Extends (s s' : Vfs) (covered : List (List Char) → Prop) (g g' : Shape) : Prop where
  tree : WellFormed s' g'
  grows : Grows s s' g g'
  walks : KeepsWalks s s' covered

theorem WellFormed.extends_refl (hs : WellFormed s g) (covered : List (List Char) → Prop) :
    Extends s s covered g g := ⟨hs, .refl s g, fun _ _ _ _ h => h⟩

theorem Extends.openNode {covered : List (List Char) → Prop} (h : Extends s s' covered g g')
    (node handle flags : Nat) : Extends s (s'.openNode node handle flags) covered g g' where
  tree := h.tree.openNode _ _ _
  grows := h.grows.openNode _ _ _
  walks cs x hc hn ht := by
    have hw := h.walks cs x hc hn ht
    show TmpfsWalk (s'.openNode node handle flags) s'.root cs x
    exact TmpfsWalk.congr (s := s') rfl (fun _ => rfl) (fun _ => rfl) (fun _ => rfl) (fun _ => rfl) hw

/-- A node made in a directory, or refused. -/
theorem WellFormed.extends_make (hs : WellFormed s g) (type : FsnodeType) (name : List Char) (hd : d ∈ g.nodes)
    (covered : List (List Char) → Prop) :
    ∃ g', Extends s (s.make type d d name).2.2 covered g g' ∧ (s.make type d d name).2.1 ∈ g'.nodes ∧
      (s.make type d d name).2.2.files = s.files := by
  rw [hs.make_eq hd]
  by_cases ha : s.Accepts d name
  · rw [if_pos ha]
    exact ⟨_, ⟨hs.created hd ha, hs.grows_add hd _, fun cs x _ _ ht => hs.created_walk hd ha hs.root_mem ht⟩,
      List.mem_append_right _ List.mem_cons_self, rfl⟩
  · rw [if_neg ha]
    exact ⟨g, hs.extends_refl covered, hd, rfl⟩

/-- `vfs_mkdir`. -/
theorem WellFormed.extends_mkdir (hs : WellFormed s g) {r : Int} (h : s.vfsMkdir n p = some (r, s')) :
    ∃ g', Extends s s' (fun _ => False) g g' ∧ s'.files = s.files := by
  unfold Vfs.vfsMkdir at h
  dsimp only at h
  split at h
  next => contradiction
  next =>
    split at h
    next => contradiction
    next =>
      obtain ⟨rfl, rfl⟩ := Prod.mk.inj (Option.some.inj h)
      exact ⟨g, hs.extends_refl _, rfl⟩
    next node hl =>
      obtain ⟨rfl, rfl⟩ := Prod.mk.inj (Option.some.inj h)
      obtain ⟨g', he, -, hf⟩ := hs.extends_make .dir _ (hs.lookup_mem hl) fun _ => False
      exact ⟨g', he, hf⟩

/-- `vfs_open`: a handle for a vnode of the tree, or a failure that changes nothing. -/
theorem WellFormed.extends_open (hs : WellFormed s g) {flags handle : Nat} {r : Int}
    (h : s.vfsOpen n p flags handle = some (r, s')) : ∃ g', Extends s s' (fun _ => False) g g' ∧
      (r ≠ 0 ∧ s' = s ∨ r = 0 ∧ ∃ (node : Nat) (s₁ : Vfs), node ∈ g'.nodes ∧ s₁.files = s.files ∧
        s' = s₁.openNode node handle flags) := by
  unfold Vfs.vfsOpen at h
  split at h
  next => contradiction
  next node hl =>
    obtain ⟨rfl, rfl⟩ := Prod.mk.inj (Option.some.inj h)
    exact ⟨g, (hs.extends_refl _).openNode _ _ _, .inr ⟨rfl, node, s, hs.lookup_mem hl, rfl, rfl⟩⟩
  next =>
    split at h
    next => contradiction
    next =>
      split at h
      next => contradiction
      next =>
        obtain ⟨rfl, rfl⟩ := Prod.mk.inj (Option.some.inj h)
        exact ⟨g, hs.extends_refl _, .inl ⟨by decide, rfl⟩⟩
      next node hl =>
        obtain ⟨rfl, rfl⟩ := Prod.mk.inj (Option.some.inj h)
        obtain ⟨g', he, hm, hf⟩ := hs.extends_make .file (p.drop (lastSlashIdx p + 1)) (hs.lookup_mem hl)
          fun _ => False
        exact ⟨g', he.openNode _ _ _, .inr ⟨rfl, _, _, hm, hf, rfl⟩⟩

/-- `vfs_mount`: paths through the target are covered. -/
theorem WellFormed.extends_mount (hs : WellFormed s g) {target filesystem : List Char} {r : Int}
    (htarget : PathOk target) (hslash : target.head? = some '/')
    (h : s.vfsMount n target filesystem = some (r, s')) :
    ∃ g', Extends s s' (components target <+: ·) g g' ∧ s'.files = s.files := by
  have hlookup : ∀ w, s.vfsLookup n target = some (some w) → Resolves s s.root (components target) w :=
    fun w hl => by
      rw [vfsLookup_eq] at hl
      exact (walkComponents_iff hl w).1 rfl
  have hgraft : ∀ w fs vs, s.vfsLookup n target = some (some w) →
      Grafted s s' w s.next (s.next + mountBytes) fs vs → Grows s s' g (g.graft w (s.next + mountBytes) vs) →
      Extends s s' (components target <+: ·) g (g.graft w (s.next + mountBytes) vs) :=
    fun w fs vs hl hg hgrows => by
      have hw := hs.lookup_mem hl
      have htc := hlookup w hl
      refine ⟨hs.graft hg hw, hgrows, fun cs x hcs hn ht => ?_⟩
      rw [hg.root_eq hs]
      refine hg.walk hs hw (htc.mount_eq_zero (components_ne_nil hslash)) hs.root_mem (fun pre hpre hr => hn ?_) ht
      rw [← hs.components_unique (fun c hc => hcs c (hpre.subset hc)) htarget.components_nul hr htc]
      exact hpre
  unfold Vfs.vfsMount at h
  split at h
  next => contradiction
  next fs hfs =>
    split at h
    next => contradiction
    next hl =>
      obtain ⟨rfl, rfl⟩ := Prod.mk.inj (Option.some.inj h)
      exact ⟨g, hs.extends_refl _, rfl⟩
    next w hl =>
      obtain ⟨s₁, hs₁, he⟩ := Option.map_eq_some_iff.1 h
      obtain ⟨rfl, rfl⟩ := Prod.mk.inj he
      cases fs with
      | tmpfs =>
          obtain rfl := Option.some.inj hs₁
          exact ⟨_, hgraft w _ _ hl (grafted_tmpfs s w) (grows_tmpfs hs w), rfl⟩
      | initramfs =>
          obtain ⟨vs, hg⟩ := grafted_initramfs (w := w) hs₁
          obtain ⟨hgrows, hfiles⟩ := grows_initramfs hs hs₁ hg
          exact ⟨_, hgraft w _ _ hl hg hgrows, hfiles⟩

end Vfs

end RpiKernel
