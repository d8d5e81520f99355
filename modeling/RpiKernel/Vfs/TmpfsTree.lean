import RpiKernel.Vfs.Directory
import RpiKernel.Lib.Runs

/-!
# RpiKernel.Vfs.TmpfsTree

A tmpfs from its fresh root on, under any sequence of `tmpfs_create` and
`tmpfs_mkdir` calls on its vnodes.

* `TmpfsTree.Ok` — the invariant: the entries of every directory are the nodes
  that were made in it, in order, under distinct names;
* `tmpfsRun_directories` — what follows for directories, files, parents and
  lookups in every tree that is reached.
-/

namespace RpiKernel

open Runs

/-- A call of `tmpfs_create` (`type` is `file`) or `tmpfs_mkdir` (`dir`). -/
structure TmpfsCall where
  type : FsnodeType
  dirNode : Nat
  target : Nat
  componentName : List Char

/-- The call, and what it returns. -/
def TmpfsCall.run (c : TmpfsCall) (s : Vfs) : Int × Nat × Vfs :=
  match c.type with
  | .file => s.tmpfsCreate c.dirNode c.target c.componentName
  | .dir => s.tmpfsMkdir c.dirNode c.target c.componentName

/-- A tmpfs, with a record of what was made in it: the directory, the name and
the node of every call that returned 0. -/
structure TmpfsTree where
  fs : Vfs
  root : Nat
  made : List (Nat × List Char × Nat)

namespace TmpfsTree

/-- The vnodes of the tree. -/
def nodes (t : TmpfsTree) : List Nat := t.root :: t.made.map fun m => m.2.2

/-- What was made in `dir`, in order. -/
def childrenOf (t : TmpfsTree) (dir : Nat) : List Nat :=
  (t.made.filter fun m => m.1 = dir).map fun m => m.2.2

/-- The tree after `tmpfs_setup_mount`. -/
def fresh (s : Vfs) (mount : Nat) : TmpfsTree where
  fs := s.tmpfsSetupMount mount
  root := ((s.tmpfsSetupMount mount).mounts mount).root
  made := []

/-- A call on one of the vnodes of the tree. -/
def step (t : TmpfsTree) (c : TmpfsCall) : Option TmpfsTree :=
  if c.dirNode ∈ t.nodes then
    let r := c.run t.fs
    some { t with
      fs := r.2.2
      made := if r.1 = 0 then t.made ++ [(c.dirNode, c.componentName, r.2.1)] else t.made }
  else none

/-- The directory invariant of a whole tree. -/
structure Ok (t : TmpfsTree) : Prop where
  nodup : t.nodes.Nodup
  lt_next : ∀ v ∈ t.nodes, v < t.fs.next
  internal_lt : ∀ v ∈ t.nodes, (t.fs.vnodes v).internal < t.fs.next
  internal_inj : ∀ u ∈ t.nodes, ∀ v ∈ t.nodes,
    (t.fs.vnodes u).internal = (t.fs.vnodes v).internal → u = v
  made : ∀ m ∈ t.made, m.1 ∈ t.nodes ∧ t.fs.nameOf m.2.2 = m.2.1
  children : ∀ dir ∈ t.nodes, t.fs.Children dir (t.childrenOf dir)
  names : ∀ dir ∈ t.nodes, ((t.childrenOf dir).map t.fs.nameOf).Nodup
  file : ∀ v ∈ t.nodes, (t.fs.inode v).type = .file → t.childrenOf v = []

/-! ## the invariant holds -/

/-- The root is the only node of a fresh tree. -/
theorem fresh_nodes (s : Vfs) (mount : Nat) : (fresh s mount).nodes = [s.next] := by
  simp [nodes, fresh, Vfs.tmpfsSetupMount, Vfs.tmpfsCreateVnode, Vfs.kmalloc]

/-- The inode of a fresh root. -/
theorem fresh_inode (s : Vfs) (mount : Nat) : (fresh s mount).fs.inode s.next =
    ⟨.dir, [], fun _ => 0, s.next + vnodeBytes + tmpfsInodeBytes, 0⟩ := by
  simp [fresh, Vfs.tmpfsSetupMount, Vfs.tmpfsCreateVnode, Vfs.kmalloc, Vfs.inode]

/-- A fresh root is a directory without entries. -/
theorem fresh_ok (s : Vfs) (mount : Nat) : (fresh s mount).Ok := by
  have hinternal : ((fresh s mount).fs.vnodes s.next).internal = s.next + vnodeBytes := by
    simp [fresh, Vfs.tmpfsSetupMount, Vfs.tmpfsCreateVnode, Vfs.kmalloc]
  have hnext : (fresh s mount).fs.next = s.next + vnodeBytes + tmpfsInodeBytes + 0x1000 := rfl
  constructor <;> simp only [fresh_nodes, List.mem_singleton, forall_eq]
  case nodup => exact List.nodup_singleton _
  case lt_next =>
    rw [hnext]
    omega
  case internal_lt =>
    rw [hinternal, hnext]
    simp [tmpfsInodeBytes]
    omega
  case internal_inj => exact fun _ => trivial
  case made => simp [fresh]
  case children =>
    refine ⟨Nat.zero_le _, by simp [fresh, childrenOf], fun i _ => ?_⟩
    rw [fresh_inode]
    rfl
  case names => simp [fresh, childrenOf]
  case file => exact fun _ => rfl

variable {t t' : TmpfsTree} {c : TmpfsCall}

/-- Both calls run the common body. -/
theorem run_eq (c : TmpfsCall) (s : Vfs) :
    c.run s = s.tmpfsMake c.type c.dirNode c.target c.componentName := by
  cases h : c.type <;> simp [TmpfsCall.run, h, Vfs.tmpfsCreate, Vfs.tmpfsMkdir]

/-- The tree with a node more. -/
def add (t : TmpfsTree) (c : TmpfsCall) : TmpfsTree where
  fs := (t.fs.tmpfsAdd c.type c.dirNode (t.childrenOf c.dirNode).length c.componentName).2
  root := t.root
  made := t.made ++ [(c.dirNode, c.componentName, t.fs.next)]

theorem nodes_add : (t.add c).nodes = t.nodes ++ [t.fs.next] := by
  simp [add, nodes]

theorem childrenOf_add (dir : Nat) : (t.add c).childrenOf dir =
    if c.dirNode = dir then t.childrenOf dir ++ [t.fs.next] else t.childrenOf dir := by
  by_cases h : c.dirNode = dir <;> simp [add, childrenOf, List.filter_append, h]

/-- Children are nodes. -/
theorem mem_nodes_of_mem_childrenOf {dir v : Nat} (h : v ∈ t.childrenOf dir) : v ∈ t.nodes := by
  simp only [childrenOf, List.mem_map, List.mem_filter] at h
  obtain ⟨m, hm, rfl⟩ := h
  exact List.mem_cons_of_mem _ (List.mem_map_of_mem hm.1)

/-- A node that was never named as a directory has no children. -/
theorem Ok.childrenOf_next (ht : t.Ok) : t.childrenOf t.fs.next = [] := by
  simp only [childrenOf, List.map_eq_nil_iff, List.filter_eq_nil_iff, decide_eq_true_eq]
  intro m hm he
  have hlt := ht.lt_next _ (ht.made m hm).1
  omega

/-- What happens to the inode of a node that was there. -/
theorem Ok.inode_add (ht : t.Ok) (hd : c.dirNode ∈ t.nodes) {v : Nat} (hv : v ∈ t.nodes) :
    (t.add c).fs.inode v =
      if v = c.dirNode then
        { t.fs.inode v with
          entry := Function.update (t.fs.inode v).entry (t.childrenOf c.dirNode).length t.fs.next }
      else t.fs.inode v := by
  have h : (t.add c).fs.inode v = _ :=
    Vfs.tmpfsAdd_inode (ht.lt_next _ hd) (ht.lt_next _ hv) (ht.internal_lt _ hd) (ht.internal_lt _ hv)
  by_cases hvd : v = c.dirNode
  · rw [if_pos hvd]
    rw [if_pos (by rw [hvd])] at h
    exact h
  · rw [if_neg hvd]
    rw [if_neg fun he => hvd (ht.internal_inj _ hv _ hd he)] at h
    exact h

/-- The inode of the new node. -/
theorem Ok.inode_add_new (ht : t.Ok) (hd : c.dirNode ∈ t.nodes) :
    (t.add c).fs.inode t.fs.next = ⟨c.type, c.componentName, fun _ => 0,
      t.fs.next + vnodeBytes + tmpfsInodeBytes, 0⟩ :=
  Vfs.tmpfsAdd_inode_new (ht.lt_next _ hd) (ht.internal_lt _ hd)

/-- No name changes. -/
theorem Ok.nameOf_add (ht : t.Ok) (hd : c.dirNode ∈ t.nodes) {v : Nat} (hv : v ∈ t.nodes) :
    (t.add c).fs.nameOf v = t.fs.nameOf v := by
  rw [Vfs.nameOf, ht.inode_add hd hv, Vfs.nameOf]
  split <;> rfl

/-- No type changes. -/
theorem Ok.type_add (ht : t.Ok) (hd : c.dirNode ∈ t.nodes) {v : Nat} (hv : v ∈ t.nodes) :
    ((t.add c).fs.inode v).type = (t.fs.inode v).type := by
  rw [ht.inode_add hd hv]
  split <;> rfl

/-- The children that were there keep their names. -/
theorem Ok.names_add (ht : t.Ok) (hd : c.dirNode ∈ t.nodes) (dir : Nat) :
    (t.childrenOf dir).map (t.add c).fs.nameOf = (t.childrenOf dir).map t.fs.nameOf :=
  List.map_congr_left fun _ hv => ht.nameOf_add hd (mem_nodes_of_mem_childrenOf hv)

/-- Adding a node under a new name keeps the invariant. -/
theorem Ok.add (ht : t.Ok) (hd : c.dirNode ∈ t.nodes)
    (htype : (t.fs.inode c.dirNode).type = .dir)
    (hname : c.componentName ∉ (t.childrenOf c.dirNode).map t.fs.nameOf)
    (hlt : (t.childrenOf c.dirNode).length < maxDirEntry) : (t.add c).Ok := by
  have hne : ∀ v ∈ t.nodes, v ≠ t.fs.next := fun v hv => Nat.ne_of_lt (ht.lt_next v hv)
  have hnew : t.fs.next ∉ t.nodes := fun h => hne _ h rfl
  have hnext : (t.add c).fs.next = t.fs.next + vnodeBytes + tmpfsInodeBytes + 0x1000 := rfl
  have hold : ∀ v ∈ t.nodes, (t.add c).fs.vnodes v = t.fs.vnodes v := fun v hv =>
    Function.update_of_ne (hne v hv) _ _
  have hadded : (t.add c).fs.vnodes t.fs.next = ⟨0, .tmpfs, .tmpfs, t.fs.next + vnodeBytes⟩ :=
    Function.update_self _ _ _
  have hmem : ∀ v, v ∈ (t.add c).nodes ↔ v ∈ t.nodes ∨ v = t.fs.next := fun v => by
    rw [nodes_add, List.mem_append, List.mem_singleton]
  have hvb : vnodeBytes = 32 := rfl
  have htb : tmpfsInodeBytes = 168 := rfl
  constructor
  case nodup =>
    rw [nodes_add, List.nodup_append]
    exact ⟨ht.nodup, List.nodup_singleton _, fun a ha b hb he =>
      hnew (List.mem_singleton.1 hb ▸ he ▸ ha)⟩
  case lt_next =>
    have h := ht.lt_next
    grind
  case internal_lt =>
    have h := ht.internal_lt
    grind
  case internal_inj =>
    have h := ht.internal_inj
    have hl := ht.internal_lt
    grind
  case made =>
    intro m hm
    rcases List.mem_append.1 hm with hm | hm
    · have hv : m.2.2 ∈ t.nodes := List.mem_cons_of_mem _ (List.mem_map_of_mem hm)
      exact ⟨(hmem _).2 (.inl (ht.made m hm).1), (ht.nameOf_add hd hv).trans (ht.made m hm).2⟩
    · rw [List.mem_singleton.1 hm]
      exact ⟨(hmem _).2 (.inl hd), by rw [Vfs.nameOf, ht.inode_add_new hd]⟩
  case children =>
    intro dir hdir
    rw [childrenOf_add]
    rcases (hmem dir).1 hdir with hdir | rfl
    · by_cases he : c.dirNode = dir
      · subst he
        rw [if_pos rfl]
        exact (ht.children _ hd).add hlt (ht.lt_next _ hd) (ht.internal_lt _ hd)
      · rw [if_neg he]
        refine (ht.children _ hdir).of_inode ?_
        rw [ht.inode_add hd hdir, if_neg (Ne.symm he)]
    · rw [if_neg (hne _ hd), ht.childrenOf_next]
      refine ⟨Nat.zero_le _, by simp, fun i _ => ?_⟩
      rw [ht.inode_add_new hd]
      rfl
  case names =>
    intro dir hdir
    rw [childrenOf_add]
    have hold : ((t.childrenOf dir).map (t.add c).fs.nameOf).Nodup := by
      rcases (hmem dir).1 hdir with hdir | rfl
      · rw [ht.names_add hd]
        exact ht.names dir hdir
      · simp [ht.childrenOf_next]
    by_cases he : c.dirNode = dir
    · subst he
      have hadd : (t.add c).fs.nameOf t.fs.next = c.componentName := by
        rw [Vfs.nameOf, ht.inode_add_new hd]
      rw [if_pos rfl, List.map_append, List.map_singleton, hadd, ht.names_add hd]
      rw [ht.names_add hd] at hold
      refine List.nodup_append.2 ⟨hold, List.nodup_singleton _, fun a ha b hb he => hname ?_⟩
      rw [List.mem_singleton.1 hb] at he
      exact he ▸ ha
    · rwa [if_neg he]
  case file =>
    intro v hv hf
    rw [childrenOf_add]
    rcases (hmem v).1 hv with hv | rfl
    · rw [ht.type_add hd hv] at hf
      have hne : c.dirNode ≠ v := fun he => by
        rw [← he, htype] at hf
        contradiction
      rw [if_neg hne]
      exact ht.file v hv hf
    · rw [if_neg (hne _ hd), ht.childrenOf_next]

/-- A call refuses and changes nothing, or it adds a node. -/
theorem Ok.run_cases (ht : t.Ok) (hd : c.dirNode ∈ t.nodes) :
    c.run t.fs = (-1, c.target, t.fs) ∨
      (c.run t.fs = (0, t.fs.next, (t.add c).fs) ∧ (t.add c).Ok) := by
  rw [run_eq]
  rcases Vfs.tmpfsMake_cases (ht.children _ hd) c.target with h | ⟨h, htype, hname, hlt, -⟩
  · exact .inl h
  · exact .inr ⟨h, ht.add hd htype hname hlt⟩

/-- Every call keeps the invariant. -/
theorem Ok.step (ht : t.Ok) (h : step t c = some t') : t'.Ok := by
  unfold TmpfsTree.step at h
  split at h
  next hd =>
    obtain rfl := Option.some.inj h
    rcases ht.run_cases hd with hr | ⟨hr, hok⟩ <;> simp only [hr]
    · exact ht
    · exact hok
  next => contradiction

/-- The invariant holds in every tree that is reached. -/
theorem Ok.reach {s : Vfs} {mount : Nat} {good : TmpfsTree → TmpfsCall → Prop}
    (hr : Reach TmpfsTree.step good (fresh s mount) t) : t.Ok :=
  hr.inv (fresh_ok s mount) fun _ _ _ ht _ h => ht.step h

/-! ## what it says -/

/-- The occupied entries are the first ones. -/
theorem Ok.occupied (ht : t.Ok) {dir : Nat} (hd : dir ∈ t.nodes) {i : Nat} (hi : i < maxDirEntry) :
    (t.fs.inode dir).entry i ≠ 0 ↔ i < (t.childrenOf dir).length := by
  have h := (ht.children dir hd).entry_eq_zero_iff hi
  omega

/-- Entries with the same name are the same entry. -/
theorem Ok.name_inj (ht : t.Ok) {dir : Nat} (hd : dir ∈ t.nodes) {i j : Nat}
    (hi : i < (t.childrenOf dir).length) (hj : j < (t.childrenOf dir).length)
    (he : t.fs.nameOf ((t.fs.inode dir).entry i) = t.fs.nameOf ((t.fs.inode dir).entry j)) :
    i = j := by
  have hc := ht.children dir hd
  rw [hc.entry_getElem hi, hc.entry_getElem hj] at he
  have hn := ht.names dir hd
  have hi' : i < ((t.childrenOf dir).map t.fs.nameOf).length := by simpa using hi
  have hj' : j < ((t.childrenOf dir).map t.fs.nameOf).length := by simpa using hj
  have hx : ((t.childrenOf dir).map t.fs.nameOf)[i] = ((t.childrenOf dir).map t.fs.nameOf)[j] := by
    simpa using he
  exact hn.getElem_inj_iff.1 hx

/-- What a lookup finds is what was made under that name. -/
theorem Ok.lookup_iff (ht : t.Ok) {dir : Nat} (hd : dir ∈ t.nodes) (name : List Char) (v : Nat) :
    t.fs.tmpfsLookup dir name = some v ↔ (dir, name, v) ∈ t.made := by
  rw [Vfs.tmpfsLookup_eq (ht.children dir hd)]
  constructor
  case mp =>
    intro h
    have hv := List.mem_of_find?_eq_some h
    have hn := List.find?_some h
    simp only [childrenOf, List.mem_map, List.mem_filter, decide_eq_true_eq] at hv hn
    obtain ⟨⟨d, n, w⟩, ⟨hm, rfl⟩, rfl⟩ := hv
    rw [hn, (ht.made _ hm).2]
    exact hm
  case mpr =>
    intro hm
    have hv : v ∈ t.childrenOf dir :=
      List.mem_map.2 ⟨_, List.mem_filter.2 ⟨hm, by simp⟩, rfl⟩
    have hn : t.fs.nameOf v = name := (ht.made _ hm).2
    cases h : (t.childrenOf dir).find? fun c => name = t.fs.nameOf c with
    | none =>
        have hne := List.find?_eq_none.1 h v hv
        simp [hn] at hne
    | some w =>
        have hw := List.mem_of_find?_eq_some h
        have hwn := List.find?_some h
        rw [decide_eq_true_eq] at hwn
        have hinj := List.inj_on_of_nodup_map (ht.names dir hd) hw hv (by rw [← hwn, hn])
        rw [hinj]

/-- A node has one record. -/
theorem Ok.made_unique (ht : t.Ok) {m m' : Nat × List Char × Nat} (hm : m ∈ t.made)
    (hm' : m' ∈ t.made) (he : m.2.2 = m'.2.2) : m = m' :=
  List.inj_on_of_nodup_map (List.nodup_cons.1 ht.nodup).2 hm hm' he

/-- The entry of a directory that a child has. -/
theorem Ok.child_iff (ht : t.Ok) {dir v : Nat} (hd : dir ∈ t.nodes) :
    (∃ i < maxDirEntry, (t.fs.inode dir).entry i = v ∧ v ≠ 0) ↔ v ∈ t.childrenOf dir := by
  have hc := ht.children dir hd
  constructor
  case mp =>
    intro ⟨i, hi, he, hv⟩
    have hl : i < (t.childrenOf dir).length := (ht.occupied hd hi).1 (by rwa [he])
    rw [hc.entry_getElem hl] at he
    exact he ▸ List.getElem_mem hl
  case mpr =>
    intro hv
    obtain ⟨i, hi, he⟩ := List.getElem_of_mem hv
    exact ⟨i, Nat.lt_of_lt_of_le hi hc.length_le, by rw [hc.entry_getElem hi, he], hc.ne_zero v hv⟩

/-- Every node but the root is in one entry of one directory. -/
theorem Ok.parent (ht : t.Ok) {v : Nat} (hv : v ∈ t.nodes) (hne : v ≠ t.root) :
    ∃! p : Nat × Nat, p.1 ∈ t.nodes ∧ p.2 < maxDirEntry ∧ (t.fs.inode p.1).entry p.2 = v := by
  obtain ⟨m, hm, rfl⟩ : ∃ m ∈ t.made, m.2.2 = v := by
    rcases List.mem_cons.1 hv with h | h
    · exact absurd h hne
    · exact List.mem_map.1 h
  have hd := (ht.made m hm).1
  have hchild : m.2.2 ∈ t.childrenOf m.1 := List.mem_map.2 ⟨m, List.mem_filter.2 ⟨hm, by simp⟩, rfl⟩
  obtain ⟨i, hi, he, hzero⟩ := (ht.child_iff hd).2 hchild
  refine ⟨(m.1, i), ⟨hd, hi, he⟩, fun ⟨d, j⟩ ⟨hd', hj, he'⟩ => ?_⟩
  have hchild' := (ht.child_iff hd').1 ⟨j, hj, he', hzero⟩
  simp only [childrenOf, List.mem_map, List.mem_filter, decide_eq_true_eq] at hchild'
  obtain ⟨m', ⟨hm', rfl⟩, hvv⟩ := hchild'
  obtain rfl := ht.made_unique hm' hm hvv
  have hij := ht.name_inj hd ((ht.occupied hd hj).1 (by rwa [he']))
    ((ht.occupied hd hi).1 (by rwa [he])) (by rw [he, he'])
  exact congrArg _ hij

end TmpfsTree

open TmpfsTree in
/-- In every tree reached from a fresh tmpfs root by `tmpfs_create` and
`tmpfs_mkdir` calls on its vnodes, the occupied entries of every directory come
first and have distinct names, a file has no entries, every vnode but the root
has one parent, a lookup finds exactly what was made under that name in that
directory, and a call that does not return 0 returns -1 and changes neither the
file system nor `*target`. -/
theorem tmpfsRun_directories (s : Vfs) (mount : Nat) {t : TmpfsTree}
    (hr : Reach TmpfsTree.step (fun _ _ => True) (fresh s mount) t) :
    (∀ dir ∈ t.nodes, ∃ n ≤ maxDirEntry,
      (∀ i < maxDirEntry, (t.fs.inode dir).entry i ≠ 0 ↔ i < n) ∧
      ∀ i < n, ∀ j < n, t.fs.nameOf ((t.fs.inode dir).entry i) =
        t.fs.nameOf ((t.fs.inode dir).entry j) → i = j) ∧
    (∀ v ∈ t.nodes, (t.fs.inode v).type = .file → ∀ i < maxDirEntry, (t.fs.inode v).entry i = 0) ∧
    (∀ v ∈ t.nodes, v ≠ t.root →
      ∃! p : Nat × Nat, p.1 ∈ t.nodes ∧ p.2 < maxDirEntry ∧ (t.fs.inode p.1).entry p.2 = v) ∧
    (∀ dir ∈ t.nodes, ∀ name v, t.fs.tmpfsLookup dir name = some v ↔ (dir, name, v) ∈ t.made) ∧
    ∀ c : TmpfsCall, c.dirNode ∈ t.nodes →
      (c.run t.fs).1 = 0 ∨ c.run t.fs = (-1, c.target, t.fs) := by
  have ht := Ok.reach hr
  refine ⟨fun dir hd => ?_, fun v hv hf i hi => ?_, fun v hv hne => ht.parent hv hne,
    fun dir hd => ht.lookup_iff hd, fun c hd => ?_⟩
  · exact ⟨_, (ht.children dir hd).length_le, fun i hi => ht.occupied hd hi,
      fun i hi j hj => ht.name_inj hd hi hj⟩
  · rw [(ht.children v hv).entry_eq_zero_iff hi, ht.file v hv hf]
    exact Nat.zero_le _
  · rcases ht.run_cases hd with h | ⟨h, -⟩
    · exact .inr h
    · exact .inl (by rw [h])

/-- A directory `a`, and a second try to make it. -/
theorem tmpfsRun_directories_twice :
    ∃ t : TmpfsTree, t.made.length = 1 ∧
      ∀ name v, t.fs.tmpfsLookup t.root name = some v ↔ (t.root, name, v) ∈ t.made := by
  let t₀ := TmpfsTree.fresh zeroVfs 0
  let c : TmpfsCall := ⟨.dir, t₀.root, 0, ['a']⟩
  have hr : Reach TmpfsTree.step (fun _ _ => True) t₀ _ :=
    .step c (.step c .init trivial rfl) trivial rfl
  exact ⟨_, by decide, (tmpfsRun_directories zeroVfs 0 hr).2.2.2.1 _ List.mem_cons_self⟩

end RpiKernel
