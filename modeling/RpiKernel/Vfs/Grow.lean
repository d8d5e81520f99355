import RpiKernel.Vfs.Tree
import Mathlib.Data.List.Find

/-!
# RpiKernel.Vfs.Grow

What changes the tree of vnodes keeps it well formed: a new entry
(`WellFormed.add`), and a new file system at a vnode (`WellFormed.graft`).
`Grafted` is all that the two `setup_mount`s have in common.
-/

namespace RpiKernel

open Bytes

namespace Vfs

variable {s s' : Vfs} {g : Shape} {d u v w m : Nat} {vs : List Nat}

/-- Fields that are no part of the tree. -/
theorem WellFormed.congr (hs : WellFormed s g) (hnext : s'.next = s.next)
    (hrootfs : s'.rootfs = s.rootfs) (hmounts : s'.mounts = s.mounts)
    (hinodes : s'.inodes = s.inodes) (hram : s'.ramInodes = s.ramInodes)
    (hmount : ∀ v, (s'.vnodes v).mount = (s.vnodes v).mount)
    (hops : ∀ v, (s'.vnodes v).vOps = (s.vnodes v).vOps)
    (hinternal : ∀ v, (s'.vnodes v).internal = (s.vnodes v).internal) : WellFormed s' g := by
  have hroot : s'.root = s.root := by rw [root, root, hrootfs, hmounts]
  have hentries : ∀ d, s'.entries d = s.entries d := fun d => by
    simp only [entries, inode, ramInode, hinodes, hram, hops, hinternal]
  constructor <;> simp only [hroot, hrootfs, hnext, hmounts, hmount, hops, hinternal, hentries]
  case root_mem => exact hs.root_mem
  case root_le => exact hs.root_le
  case rootfs_lt => exact hs.rootfs_lt
  case lt_next => exact hs.lt_next
  case internal_lt => exact hs.internal_lt
  case internal_inj => exact hs.internal_inj
  case mount_lt => exact hs.mount_lt
  case occupied => exact hs.occupied
  case kid => exact hs.kid
  case mounted => exact hs.mounted

/-- The tree with a new entry `v` in `d`. -/
def Shape.add (g : Shape) (d v : Nat) : Shape where
  nodes := g.nodes ++ [v]
  kids := Function.update (Function.update g.kids d (g.kids d ++ [v])) v []
  up := Function.update g.up v (d, false)

/-- Vnodes that were there stay. -/
theorem WellFormed.created_vnodes (hs : WellFormed s g) {type : FsnodeType} {idx : Nat}
    {name : List Char} (hu : u ∈ g.nodes) :
    (s.tmpfsAdd type d idx name).2.vnodes u = s.vnodes u := by
  rw [tmpfsAdd_vnodes, Function.update_of_ne (Nat.ne_of_lt (hs.lt_next u hu))]

/-- The kids of the vnodes that were there. -/
theorem WellFormed.created_kids (hs : WellFormed s g) (hu : u ∈ g.nodes) :
    (g.add d s.next).kids u = if u = d then g.kids d ++ [s.next] else g.kids u := by
  have hne : u ≠ s.next := Nat.ne_of_lt (hs.lt_next u hu)
  by_cases hud : u = d
  · simp [Shape.add, hud]
    rw [Function.update_of_ne (hud ▸ hne), Function.update_self]
  · simp [Shape.add, Function.update_of_ne hne, hud]

/-- A new entry of a tmpfs directory. -/
theorem WellFormed.add (hs : WellFormed s g) (hd : d ∈ g.nodes)
    (hops : (s.vnodes d).vOps = .tmpfs) (hlt : (g.kids d).length < maxDirEntry) (type : FsnodeType)
    (name : List Char) :
    WellFormed (s.tmpfsAdd type d (g.kids d).length name).2 (g.add d s.next) := by
  generalize hs' : (s.tmpfsAdd type d (g.kids d).length name).2 = s'
  have hnext : s'.next = s.next + vnodeBytes + tmpfsInodeBytes + 0x1000 := by rw [← hs']; rfl
  have hmounts : s'.mounts = s.mounts := by rw [← hs']; rfl
  have hram : s'.ramInodes = s.ramInodes := by rw [← hs']; rfl
  have hrootfs : s'.rootfs = s.rootfs := by rw [← hs']; rfl
  have hroot : s'.root = s.root := by rw [root, root, hrootfs, hmounts]
  have hne : ∀ u ∈ g.nodes, u ≠ s.next := fun u hu => Nat.ne_of_lt (hs.lt_next u hu)
  have hold : ∀ u ∈ g.nodes, s'.vnodes u = s.vnodes u := fun u hu => hs' ▸ hs.created_vnodes hu
  have hnew : s'.vnodes s.next = ⟨0, .tmpfs, .tmpfs, s.next + vnodeBytes⟩ := by
    rw [← hs', tmpfsAdd_vnodes, Function.update_self]
  have hinode : ∀ u ∈ g.nodes, s'.inode u = if u = d then
      { s.inode u with entry := Function.update (s.inode u).entry (g.kids d).length s.next }
      else s.inode u := fun u hu => by
    rw [← hs', tmpfsAdd_inode (hs.lt_next d hd) (hs.lt_next u hu) (hs.internal_lt d hd)
      (hs.internal_lt u hu)]
    by_cases hud : u = d
    · rw [if_pos hud, if_pos (by rw [hud])]
    · rw [if_neg hud, if_neg fun he => hud (hs.internal_inj u hu d hd he)]
  have hentries : ∀ u ∈ g.nodes, u ≠ d → s'.entries u = s.entries u := fun u hu hud => by
    simp only [entries, hold u hu, hinode u hu, if_neg hud, ramInode, hram]
  have hmem : ∀ u, u ∈ (g.add d s.next).nodes ↔ u ∈ g.nodes ∨ u = s.next := fun u => by
    simp [Shape.add]
  have hkids : ∀ u ∈ g.nodes, (g.add d s.next).kids u =
      if u = d then g.kids d ++ [s.next] else g.kids u := fun u hu => hs.created_kids hu
  have hkidsNew : (g.add d s.next).kids s.next = [] := by simp [Shape.add]
  have hup : ∀ u ∈ g.nodes, (g.add d s.next).up u = g.up u := fun u hu => by
    simp [Shape.add, Function.update_of_ne (hne u hu)]
  have hupNew : (g.add d s.next).up s.next = (d, false) := by simp [Shape.add]
  have hvb : vnodeBytes = 32 := rfl
  have htb : tmpfsInodeBytes = 168 := rfl
  constructor
  case root_mem =>
    rw [hroot]
    exact (hmem _).2 (.inl hs.root_mem)
  case root_le =>
    have hle := hs.root_le
    have hlt := hs.lt_next _ hs.root_mem
    grind
  case rootfs_lt =>
    have hlt := hs.rootfs_lt
    omega
  case lt_next =>
    have hlt := hs.lt_next
    grind
  case internal_lt =>
    have hlt := hs.internal_lt
    grind
  case internal_inj =>
    have hinj := hs.internal_inj
    have hlt := hs.internal_lt
    grind
  case mount_lt =>
    have hlt := hs.mount_lt
    have hpos := s.next_pos
    grind
  case occupied =>
    intro u hu
    rcases (hmem u).1 hu with hu | rfl
    · rw [hold u hu, hkids u hu]
      by_cases hud : u = d
      · subst hud
        have hc := hs.children hd hops
        rw [if_pos rfl]
        simp only [entries, hold u hd, hops]
        rw [← hs']
        exact Children.add hc hlt (hs.lt_next u hd) (hs.internal_lt u hd)
      · rw [if_neg hud, hentries u hu hud]
        exact hs.occupied u hu
    · rw [hkidsNew, hnew]
      refine ⟨Nat.zero_le _, by simp, fun i _ => ?_⟩
      simp only [entries, hnew]
      rw [← hs', tmpfsAdd_inode_new (hs.lt_next d hd) (hs.internal_lt d hd)]
      rfl
  case kid =>
    intro u hu k hk
    rcases (hmem u).1 hu with hu | rfl
    · rw [hkids u hu] at hk
      have hcase : k ∈ g.kids u ∨ (u = d ∧ k = s.next) := by
        split at hk
        next hud =>
          subst hud
          rcases List.mem_append.1 hk with hk | hk
          · exact .inl hk
          · exact .inr ⟨rfl, List.mem_singleton.1 hk⟩
        next => exact .inl hk
      rcases hcase with hk | ⟨rfl, rfl⟩
      · obtain ⟨hkm, hlt, hko, hku⟩ := hs.kid u hu k hk
        rw [hold k hkm, hold u hu, hup k hkm]
        exact ⟨(hmem k).2 (.inl hkm), hlt, hko, hku⟩
      · rw [hnew, hold u hd, hops, hupNew]
        exact ⟨(hmem _).2 (.inr rfl), hs.lt_next u hd, rfl, rfl⟩
    · rw [hkidsNew] at hk
      contradiction
  case mounted =>
    intro u hu h0
    rcases (hmem u).1 hu with hu | rfl
    · rw [hold u hu] at h0 ⊢
      obtain ⟨hr, hlt, hru⟩ := hs.mounted u hu h0
      rw [hmounts, hup _ hr]
      exact ⟨(hmem _).2 (.inl hr), hlt, hru⟩
    · rw [hnew] at h0
      contradiction

/-! ## mounting -/

/-- From `s` to `s'` the file system `fs` was mounted at `w`: the mount `m`, whose
root `r` has the entries `vs`. -/
structure Grafted (s s' : Vfs) (w m r : Nat) (fs : VnodeOps) (vs : List Nat) : Prop where
  mount_new : s.next ≤ m ∧ m < s'.next
  root_new : s.next ≤ r ∧ r < s'.next
  kids_new : ∀ v ∈ vs, r < v ∧ v < s'.next
  nodup : vs.Nodup
  vnodes : ∀ u < s.next, s'.vnodes u = if u = w then { s.vnodes w with mount := m } else s.vnodes u
  root_mount : ∀ v ∈ r :: vs, (s'.vnodes v).mount = 0 ∧ (s'.vnodes v).vOps = fs ∧
    (s'.vnodes v).internal = v + vnodeBytes ∧ v + vnodeBytes < s'.next
  mounts : ∀ i, i ≠ m → s'.mounts i = s.mounts i
  mount : s'.mounts m = ⟨r, fs⟩
  inodes : ∀ i < s.next, s'.inodes i = s.inodes i
  ramInodes : ∀ i < s.next, s'.ramInodes i = s.ramInodes i
  mem : s'.mem = s.mem
  rootfs : s'.rootfs = s.rootfs
  occupied : Occupied (s'.entries r) (entryCount fs) vs
  empty : ∀ v ∈ vs, Occupied (s'.entries v) (entryCount fs) []

/-- The tree with a file system mounted at `w`. -/
def Shape.graft (g : Shape) (w r : Nat) (vs : List Nat) : Shape where
  nodes := g.nodes ++ r :: vs
  kids u := if u ∈ g.nodes then g.kids u else if u = r then vs else []
  up u := if u ∈ g.nodes then g.up u else if u = r then (w, true) else (r, false)

namespace Grafted

variable {r : Nat} {fs : VnodeOps} (h : Grafted s s' w m r fs vs) (hs : WellFormed s g)
include h

theorem next_lt : s.next < s'.next := by
  have h₁ := h.mount_new
  omega

theorem new_le {v : Nat} (hv : v ∈ r :: vs) : s.next ≤ v := by
  have hr := h.root_new
  rcases List.mem_cons.1 hv with rfl | hv
  · exact hr.1
  · have hk := h.kids_new v hv
    omega

include hs

/-- New vnodes are new. -/
theorem not_mem {v : Nat} (hv : v ∈ r :: vs) : v ∉ g.nodes := fun hm => by
  have hlt := hs.lt_next v hm
  have hle := h.new_le hv
  omega

/-- What does not change in the vnodes that were there. -/
theorem vnode_old (hu : u ∈ g.nodes) : (s'.vnodes u).vOps = (s.vnodes u).vOps ∧
    (s'.vnodes u).internal = (s.vnodes u).internal ∧
    (u ≠ w → (s'.vnodes u).mount = (s.vnodes u).mount) := by
  rw [h.vnodes u (hs.lt_next u hu)]
  split
  next huw => exact ⟨by rw [huw], by rw [huw], fun hne => absurd huw hne⟩
  next => exact ⟨rfl, rfl, fun _ => rfl⟩

theorem mount_w (hw : w ∈ g.nodes) : (s'.vnodes w).mount = m := by
  rw [h.vnodes w (hs.lt_next w hw), if_pos rfl]

theorem inode_old (hu : u ∈ g.nodes) : s'.inode u = s.inode u ∧ s'.ramInode u = s.ramInode u := by
  have hi := (h.vnode_old hs hu).2.1
  have hlt := hs.internal_lt u hu
  exact ⟨by rw [inode, hi, h.inodes _ hlt, inode], by rw [ramInode, hi, h.ramInodes _ hlt, ramInode]⟩

theorem entries_old (hu : u ∈ g.nodes) : s'.entries u = s.entries u := by
  simp only [entries, (h.vnode_old hs hu).1, h.inode_old hs hu]

/-- Lookups in the vnodes that were there. -/
theorem lookup_old (hu : u ∈ g.nodes) (c : List Char) : s'.lookup u c = s.lookup u c := by
  rw [hs.lookup_eq hu, lookup_eq_find, h.entries_old hs hu, (h.vnode_old hs hu).1,
    (hs.occupied u hu).find_eq]
  refine List.find?_congr fun v hv => ?_
  have hi := h.inode_old hs (hs.kid u hu v hv).1
  cases (s.vnodes u).vOps <;> simp only [hasName, hi, h.mem]

/-- The root of the tree stays. -/
theorem root_eq : s'.root = s.root := by
  have hlt := hs.rootfs_lt
  have hm := h.mount_new
  rw [root, h.rootfs, h.mounts _ (by omega), root]

/-- The mounts that were there stay. -/
theorem mounts_old (hu : u ∈ g.nodes) (hne : u ≠ w) :
    s'.mounts (s'.vnodes u).mount = s.mounts (s.vnodes u).mount := by
  have hlt := hs.mount_lt u hu
  have hm := h.mount_new
  rw [(h.vnode_old hs hu).2.2 hne, h.mounts _ (by omega)]

end Grafted

/-- A new file system at a vnode. -/
theorem WellFormed.graft {r : Nat} {fs : VnodeOps} (hs : WellFormed s g)
    (h : Grafted s s' w m r fs vs)
    (hw : w ∈ g.nodes) : WellFormed s' (g.graft w r vs) := by
  have hlt := h.next_lt
  have hmem : ∀ u, u ∈ (g.graft w r vs).nodes ↔ u ∈ g.nodes ∨ u ∈ r :: vs := fun u => by
    simp [Shape.graft]
  have hupOld : ∀ u ∈ g.nodes, (g.graft w r vs).up u = g.up u := fun u hu => if_pos hu
  have hkidsOld : ∀ u ∈ g.nodes, (g.graft w r vs).kids u = g.kids u := fun u hu => if_pos hu
  have hrm : r ∉ g.nodes := h.not_mem hs List.mem_cons_self
  have hroot : (g.graft w r vs).up r = (w, true) ∧ (g.graft w r vs).kids r = vs := by
    simp [Shape.graft, hrm]
  have hkid : ∀ v ∈ vs, (g.graft w r vs).up v = (r, false) ∧ (g.graft w r vs).kids v = [] :=
    fun v hv => by
      have hvm := h.not_mem hs (List.mem_cons_of_mem r hv)
      have hne : v ≠ r := Nat.ne_of_gt (h.kids_new v hv).1
      simp [Shape.graft, hvm, hne]
  have hnew : ∀ v ∈ r :: vs, s.next ≤ v ∧ v < s'.next := fun v hv => by
    refine ⟨h.new_le hv, ?_⟩
    rcases List.mem_cons.1 hv with rfl | hv
    · exact h.root_new.2
    · exact (h.kids_new v hv).2
  constructor
  case root_mem =>
    rw [h.root_eq hs]
    exact (hmem _).2 (.inl hs.root_mem)
  case root_le =>
    intro u hu
    rw [h.root_eq hs]
    rcases (hmem u).1 hu with hu | hu
    · exact hs.root_le u hu
    · have hr := hs.lt_next _ hs.root_mem
      have hu' := h.new_le hu
      omega
  case rootfs_lt =>
    rw [h.rootfs]
    exact Nat.lt_trans hs.rootfs_lt hlt
  case lt_next =>
    intro u hu
    rcases (hmem u).1 hu with hu | hu
    · exact Nat.lt_trans (hs.lt_next u hu) hlt
    · exact (hnew u hu).2
  case internal_lt =>
    intro u hu
    rcases (hmem u).1 hu with hu | hu
    · rw [(h.vnode_old hs hu).2.1]
      exact Nat.lt_trans (hs.internal_lt u hu) hlt
    · have hv := h.root_mount u hu
      omega
  case internal_inj =>
    have hold : ∀ u ∈ g.nodes, (s'.vnodes u).internal = (s.vnodes u).internal ∧
        (s.vnodes u).internal < s.next := fun u hu =>
      ⟨(h.vnode_old hs hu).2.1, hs.internal_lt u hu⟩
    intro u hu v hv he
    rcases (hmem u).1 hu with hu | hu <;> rcases (hmem v).1 hv with hv | hv
    · rw [(hold u hu).1, (hold v hv).1] at he
      exact hs.internal_inj u hu v hv he
    · have hu' := hold u hu
      have hv' := h.root_mount v hv
      have hle := h.new_le hv
      omega
    · have hu' := h.root_mount u hu
      have hv' := hold v hv
      have hle := h.new_le hu
      omega
    · have hu' := h.root_mount u hu
      have hv' := h.root_mount v hv
      omega
  case mount_lt =>
    intro u hu
    rcases (hmem u).1 hu with hu | hu
    · by_cases huw : u = w
      · rw [huw, h.mount_w hs hw]
        exact h.mount_new.2
      · rw [(h.vnode_old hs hu).2.2 huw]
        exact Nat.lt_trans (hs.mount_lt u hu) hlt
    · rw [(h.root_mount u hu).1]
      exact s'.next_pos
  case occupied =>
    intro u hu
    rcases (hmem u).1 hu with hu | hu
    · rw [h.entries_old hs hu, (h.vnode_old hs hu).1, hkidsOld u hu]
      exact hs.occupied u hu
    · rcases List.mem_cons.1 hu with rfl | hu
      · rw [hroot.2, (h.root_mount u List.mem_cons_self).2.1]
        exact h.occupied
      · rw [(hkid u hu).2, (h.root_mount u (List.mem_cons_of_mem r hu)).2.1]
        exact h.empty u hu
  case kid =>
    intro u hu v hv
    rcases (hmem u).1 hu with hu | hu
    · rw [hkidsOld u hu] at hv
      obtain ⟨hvm, hlt, hvo, hvu⟩ := hs.kid u hu v hv
      rw [(h.vnode_old hs hvm).1, (h.vnode_old hs hu).1, hupOld v hvm]
      exact ⟨(hmem v).2 (.inl hvm), hlt, hvo, hvu⟩
    · rcases List.mem_cons.1 hu with rfl | hu
      · rw [hroot.2] at hv
        exact ⟨(hmem v).2 (.inr (List.mem_cons_of_mem _ hv)), (h.kids_new v hv).1,
          (h.root_mount v (List.mem_cons_of_mem _ hv)).2.1.trans
            (h.root_mount u List.mem_cons_self).2.1.symm, (hkid v hv).1⟩
      · rw [(hkid u hu).2] at hv
        contradiction
  case mounted =>
    intro u hu h0
    rcases (hmem u).1 hu with hu | hu
    · by_cases huw : u = w
      · subst huw
        have hlu := hs.lt_next u hw
        rw [h.mount_w hs hw, h.mount]
        exact ⟨(hmem r).2 (.inr List.mem_cons_self), Nat.lt_of_lt_of_le hlu h.root_new.1, hroot.1⟩
      · rw [(h.vnode_old hs hu).2.2 huw] at h0
        obtain ⟨hrm, hlt, hru⟩ := hs.mounted u hu h0
        rw [h.mounts_old hs hu huw, hupOld _ hrm]
        exact ⟨(hmem _).2 (.inl hrm), hlt, hru⟩
    · exact absurd (h.root_mount u hu).1 h0

/-! ## the two `setup_mount`s -/

/-- The mount record, and `w` pointing to it: `vfs_mount` before `setup_mount`. -/
def withMount (s : Vfs) (w : Nat) : Vfs :=
  let s' := (s.kmalloc mountBytes).2
  { s' with vnodes := Function.update s'.vnodes w { s'.vnodes w with mount := s.next } }

theorem withMount_vnodes (s : Vfs) (w u : Nat) : (s.withMount w).vnodes u =
    if u = w then { s.vnodes w with mount := s.next } else s.vnodes u :=
  Function.update_apply _ _ _ _

/-- Mounting a tmpfs. -/
theorem grafted_tmpfs (s : Vfs) (w : Nat) :
    Grafted s ((s.withMount w).tmpfsSetupMount s.next) w s.next (s.next + mountBytes) .tmpfs [] := by
  generalize hs' : (s.withMount w).tmpfsSetupMount s.next = s'
  have hnext : s'.next = s.next + mountBytes + vnodeBytes + tmpfsInodeBytes + 0x1000 := by
    rw [← hs']
    rfl
  have hmb : mountBytes = 16 := rfl
  have hvb : vnodeBytes = 32 := rfl
  have htb : tmpfsInodeBytes = 168 := rfl
  have hroot : s'.vnodes (s.next + mountBytes) =
      ⟨0, .tmpfs, .tmpfs, s.next + mountBytes + vnodeBytes⟩ := by
    rw [← hs']
    exact Function.update_self _ _ _
  have hinode : s'.inode (s.next + mountBytes) =
      ⟨.dir, [], fun _ => 0, s.next + mountBytes + vnodeBytes + tmpfsInodeBytes, 0⟩ := by
    rw [inode, hroot, ← hs']
    exact Function.update_self _ _ _
  constructor
  case mount_new => omega
  case root_new => omega
  case kids_new => simp
  case nodup => exact List.nodup_nil
  case vnodes =>
    intro u hu
    rw [← hs']
    show Function.update (s.withMount w).vnodes (s.next + mountBytes) _ u = _
    rw [Function.update_of_ne (by omega)]
    exact s.withMount_vnodes w u
  case root_mount =>
    intro v hv
    rw [List.mem_singleton.1 hv, hroot]
    refine ⟨rfl, rfl, rfl, ?_⟩
    omega
  case mounts =>
    intro i hi
    rw [← hs']
    exact Function.update_of_ne hi _ _
  case mount =>
    rw [← hs']
    exact Function.update_self _ _ _
  case inodes =>
    intro i hi
    rw [← hs']
    exact Function.update_of_ne (by show i ≠ s.next + mountBytes + vnodeBytes; omega) _ _
  case ramInodes =>
    intro i _
    rw [← hs']
    rfl
  case mem =>
    rw [← hs']
    rfl
  case rootfs =>
    rw [← hs']
    rfl
  case occupied =>
    refine ⟨Nat.zero_le _, by simp, fun i _ => ?_⟩
    simp only [entries, hroot, hinode]
    rfl
  case empty => simp

/-- Mounting an initramfs. -/
theorem grafted_initramfs {n w : Nat}
    (h : (s.withMount w).initramfsSetupMount n s.next = some s') :
    ∃ vs, Grafted s s' w s.next (s.next + mountBytes) .initramfs vs := by
  rw [initramfsSetupMount_eq] at h
  have hnext := initramfsRoot_next s.next (s.withMount w)
  have hnext' : (s.withMount w).next = s.next + mountBytes := rfl
  have hmb : mountBytes = 16 := rfl
  have hvb : vnodeBytes = 32 := rfl
  have hib : initramfsInodeBytes = 832 := rfl
  obtain ⟨vs, hl, hlen⟩ := initramfsLoop_loaded n (by rw [hnext]; omega) (Nat.zero_le _) h
  rw [Nat.zero_add] at hlen
  obtain ⟨-, hv, -, hocc⟩ := hl.root hlen
  have hle := hl.next_le
  rw [hnext'] at hv hocc
  refine ⟨vs, ?_⟩
  constructor
  case mount_new => omega
  case root_new => omega
  case kids_new =>
    intro v hv
    have hvs := hl.new v hv
    omega
  case nodup => exact hl.sorted.imp fun hlt => Nat.ne_of_lt hlt
  case vnodes =>
    intro u hu
    rw [hl.vnodes u (by omega), initramfsRoot_vnodes, Function.update_of_ne (by omega)]
    exact s.withMount_vnodes w u
  case root_mount =>
    intro v hmem
    rcases List.mem_cons.1 hmem with rfl | hmem
    · rw [hv]
      refine ⟨rfl, rfl, rfl, ?_⟩
      omega
    · obtain ⟨-, hlt, hvv, -⟩ := hl.new v hmem
      rw [hvv]
      exact ⟨rfl, rfl, rfl, hlt⟩
  case mounts =>
    intro i hi
    rw [hl.mounts, initramfsRoot_mounts, Function.update_of_ne hi]
    rfl
  case mount =>
    rw [hl.mounts, initramfsRoot_mounts, Function.update_self]
    rfl
  case inodes =>
    intro i _
    rw [hl.inodes]
    rfl
  case ramInodes =>
    intro i hi
    rw [hl.ramInodes i (by omega) (by omega), initramfsRoot_ramInodes,
      Function.update_of_ne (by omega)]
    rfl
  case mem =>
    rw [hl.mem]
    rfl
  case rootfs =>
    rw [hl.rootfs]
    rfl
  case occupied =>
    simp only [entries, hv]
    exact hocc
  case empty =>
    intro v hmem
    obtain ⟨-, -, hvv, hempty⟩ := hl.new v hmem
    refine ⟨Nat.zero_le _, by simp, fun i _ => ?_⟩
    simp only [entries, hvv, ramInode, hempty]
    rfl

end Vfs

end RpiKernel
