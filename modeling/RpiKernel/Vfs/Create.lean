import RpiKernel.Vfs.NameBuffers

/-!
# RpiKernel.Vfs.Create

What `create` and `mkdir` accept, and that the path of a new node leads to it.

* `components_split` — the path up to the last slash, and the name behind it;
* `Accepts` — when the backend makes the node (`WellFormed.create_iff`);
* `WellFormed.resolves_created` — in the new tree, the path resolves to the new node.
-/

namespace RpiKernel

namespace Vfs

variable {s s' : Vfs} {g : Shape} {d u v w x n : Nat} {p c name : List Char} {cs : List (List Char)}
  {type : FsnodeType}

/-! ## the last slash -/

/-- What `vfs_open` and `vfs_mkdir` take for the path of the directory. -/
def dirPath (p : List Char) : List Char := p.take (lastSlashIdx p)

/-- What they take for the name of the new node. -/
def newName (p : List Char) : List Char := p.drop (lastSlashIdx p + 1)

theorem lastSlashLoop_append (a b : List Char) (i l : Nat) :
    lastSlashLoop (a ++ b) i l = lastSlashLoop b (i + a.length) (lastSlashLoop a i l) := by
  induction a generalizing i l with
  | nil => rfl
  | cons c a ih =>
      simp only [List.cons_append, lastSlashLoop, ih, List.length_cons]
      congr 1
      omega

/-- Without a slash, the index stays. -/
theorem lastSlashLoop_of_notMem {b : List Char} (h : '/' ∉ b) (i l : Nat) : lastSlashLoop b i l = l := by
  induction b generalizing i with
  | nil => rfl
  | cons c b ih =>
      simp only [List.mem_cons, not_or] at h
      rw [lastSlashLoop, if_neg (Ne.symm h.1), ih h.2]

/-- The index of the last slash. -/
theorem lastSlashIdx_eq (a : List Char) {b : List Char} (h : '/' ∉ b) :
    lastSlashIdx (a ++ '/' :: b) = a.length := by
  unfold lastSlashIdx
  rw [lastSlashLoop_append, lastSlashLoop, if_pos rfl, lastSlashLoop_of_notMem h, Nat.zero_add]

/-- A path is split at its last slash. -/
theorem exists_lastSlash (h : '/' ∈ p) : ∃ a b, p = a ++ '/' :: b ∧ '/' ∉ b := by
  obtain ⟨as, bs, he, has⟩ := List.eq_append_cons_of_mem (List.mem_reverse.2 h)
  refine ⟨bs.reverse, as.reverse, ?_, by simpa using has⟩
  rw [← List.reverse_reverse p, he]
  simp

/-- The components of a path are those of the directory and the name. -/
theorem components_split (hp : p ≠ []) : components p = components (dirPath p) ++ [newName p] := by
  unfold dirPath newName
  by_cases hslash : '/' ∈ p
  · obtain ⟨a, b, rfl, hb⟩ := exists_lastSlash hslash
    have hlast : b.splitOn '/' = [b] := List.splitOn_eq_singleton hb
    have hname : (a ++ '/' :: b).drop (a.length + 1) = b := by simp
    rw [lastSlashIdx_eq a hb, List.take_left, hname]
    cases a with
    | nil => simp [components, hlast]
    | cons c a => simp [components, List.splitOn_append_cons_self, hlast]
  · have hidx : lastSlashIdx p = 0 := lastSlashLoop_of_notMem hslash 0 0
    have hrest : (p.drop 1).splitOn '/' = [p.drop 1] :=
      List.splitOn_eq_singleton fun h => hslash (List.mem_of_mem_drop h)
    rw [hidx, components, if_neg hp, hrest]
    rfl

/-! ## what the backend accepts -/

/-- `create` and `mkdir` of the directory `d` make a node of this name: a directory of tmpfs
with an empty entry and no such name, which is short enough. -/
def Accepts (s : Vfs) (d : Nat) (name : List Char) : Prop :=
  (s.vnodes d).vOps = .tmpfs ∧ (s.inode d).type = .dir ∧
    (∃ i < maxDirEntry, (s.inode d).entry i = 0) ∧ s.lookup d name = none ∧ name.length ≤ maxFileName

instance (s : Vfs) (d : Nat) (name : List Char) : Decidable (s.Accepts d name) :=
  inferInstanceAs (Decidable (_ ∧ _ ∧ (∃ i < maxDirEntry, (s.inode d).entry i = 0) ∧ _ ∧ _))

/-- What is accepted, by the entries. -/
theorem WellFormed.accepts_iff (hs : WellFormed s g) (hd : d ∈ g.nodes) (hops : (s.vnodes d).vOps = .tmpfs) :
    s.Accepts d name ↔ (s.inode d).type = .dir ∧ (g.kids d).length < maxDirEntry ∧
      name ∉ (g.kids d).map s.nameOf ∧ name.length ≤ maxFileName := by
  have hc := hs.children hd hops
  have hfree : (∃ i < maxDirEntry, (s.inode d).entry i = 0) ↔ (g.kids d).length < maxDirEntry := by
    constructor
    · intro ⟨i, hi, hzero⟩
      have hle := (hc.entry_eq_zero_iff hi).1 hzero
      omega
    · exact fun hlt => ⟨_, hlt, (hc.entry_eq_zero_iff hlt).2 (Nat.le_refl _)⟩
  have hname : s.lookup d name = none ↔ name ∉ (g.kids d).map s.nameOf := by
    have hl : s.lookup d name = s.tmpfsLookup d name := by simp only [lookup, hops]
    rw [hl, tmpfsLookup_eq hc, List.find?_eq_none]
    simp [eq_comm]
  unfold Accepts
  rw [hfree, hname, and_iff_right hops]

/-- What `create` and `mkdir` answer. -/
theorem WellFormed.tmpfsMake_iff (hs : WellFormed s g) (hd : d ∈ g.nodes)
    (hops : (s.vnodes d).vOps = .tmpfs) (target : Nat) :
    s.tmpfsMake type d target name =
      if s.Accepts d name then (0, s.tmpfsAdd type d (g.kids d).length name) else (-1, target, s) := by
  have hc := hs.children hd hops
  by_cases ha : s.Accepts d name
  · obtain ⟨htype, hlt, hname, hshort⟩ := (hs.accepts_iff hd hops).1 ha
    have hfree := hc.free_range' name maxDirEntry 0 (Nat.zero_add _) (Nat.zero_le _)
    rw [List.drop_zero, if_neg hname, ← List.range_eq_range'] at hfree
    simp only [tmpfsMake, htype, hfree, ne_eq, not_true_eq_false, if_false, Nat.ne_of_lt hlt,
      Nat.not_lt.2 hshort, if_pos ha]
  · have hcases : s.tmpfsMake type d target name = (-1, target, s) ∨ _ := tmpfsMake_cases hc target
    cases hcases with
    | inl hrefused => rw [hrefused, if_neg ha]
    | inr hadded =>
        obtain ⟨-, htype, hname, hlt, hshort⟩ := hadded
        exact absurd ((hs.accepts_iff hd hops).2 ⟨htype, hlt, hname, hshort⟩) ha

/-- The node that `type` stands for, made in `d` by `create` or `mkdir`. -/
def make (type : FsnodeType) (dirNode target : Nat) (componentName : List Char) (s : Vfs) :
    Int × Nat × Vfs :=
  match type with
  | .file => s.create dirNode target componentName
  | .dir => s.mkdir dirNode target componentName

/-- What the operations of the directory answer. -/
theorem WellFormed.make_eq (hs : WellFormed s g) (hd : d ∈ g.nodes) (target : Nat) :
    s.make type d target name =
      if s.Accepts d name then (0, s.tmpfsAdd type d (g.kids d).length name) else (-1, target, s) := by
  cases hops : (s.vnodes d).vOps with
  | tmpfs =>
      rw [← hs.tmpfsMake_iff hd hops]
      cases type <;> simp only [Vfs.make, Vfs.create, Vfs.mkdir, hops, tmpfsCreate, tmpfsMkdir]
  | initramfs =>
      have ha : ¬ s.Accepts d name := fun ha => VnodeOps.noConfusion (hops.symm.trans ha.1)
      rw [if_neg ha]
      cases type <;> simp only [Vfs.make, Vfs.create, Vfs.mkdir, hops]

/-! ## the new tree -/

/-- The tree after a node was made. -/
theorem WellFormed.created (hs : WellFormed s g) (hd : d ∈ g.nodes) (ha : s.Accepts d name) :
    WellFormed (s.tmpfsAdd type d (g.kids d).length name).2 (g.add d s.next) := by
  obtain ⟨-, hlt, -, -⟩ := (hs.accepts_iff hd ha.1).1 ha
  exact hs.add hd ha.1 hlt type name

/-- Names that were there stay. -/
theorem WellFormed.created_hasName (hs : WellFormed s g) (hd : d ∈ g.nodes) {idx : Nat}
    (hu : u ∈ g.nodes) (ops : VnodeOps) (c : List Char) :
    (s.tmpfsAdd type d idx name).2.hasName ops c u = s.hasName ops c u := by
  cases ops with
  | tmpfs =>
      have hname : ((s.tmpfsAdd type d idx name).2.inode u).name = (s.inode u).name := by
        rw [tmpfsAdd_inode (hs.lt_next d hd) (hs.lt_next u hu) (hs.internal_lt d hd) (hs.internal_lt u hu)]
        split <;> rfl
      simp only [hasName, hname]
  | initramfs =>
      simp only [hasName, ramInode, hs.created_vnodes hu, tmpfsAdd_ramInodes, tmpfsAdd_mem]

/-- What was found is found. -/
theorem WellFormed.created_lookup (hs : WellFormed s g) (hd : d ∈ g.nodes) (ha : s.Accepts d name)
    (hu : u ∈ g.nodes) (hl : s.lookup u c = some v) :
    (s.tmpfsAdd type d (g.kids d).length name).2.lookup u c = some v := by
  have hu' : u ∈ (g.add d s.next).nodes := List.mem_append_left _ hu
  rw [hs.lookup_eq hu] at hl
  rw [(hs.created hd ha).lookup_eq hu', hs.created_kids hu, hs.created_vnodes hu]
  have hold : (g.kids u).find? ((s.tmpfsAdd type d (g.kids d).length name).2.hasName (s.vnodes u).vOps c) =
      some v := by
    rw [← hl]
    exact List.find?_congr fun k hk => hs.created_hasName hd (hs.kid u hu k hk).1 _ c
  split
  next hud =>
    subst hud
    rw [List.find?_append, hold]
    rfl
  next => exact hold

/-- The new node is found under its name. -/
theorem WellFormed.created_lookup_new (hs : WellFormed s g) (hd : d ∈ g.nodes) (ha : s.Accepts d name) :
    (s.tmpfsAdd type d (g.kids d).length name).2.lookup d name = some s.next := by
  have hd' : d ∈ (g.add d s.next).nodes := List.mem_append_left _ hd
  have hnone := ha.2.2.2.1
  rw [hs.lookup_eq hd] at hnone
  have hold : (g.kids d).find? ((s.tmpfsAdd type d (g.kids d).length name).2.hasName (s.vnodes d).vOps name) =
      none := by
    rw [← hnone]
    exact List.find?_congr fun k hk => hs.created_hasName hd (hs.kid d hd k hk).1 _ name
  have hnew : (s.tmpfsAdd type d (g.kids d).length name).2.hasName .tmpfs name s.next := by
    simp only [hasName, tmpfsAdd_inode_new (hs.lt_next d hd) (hs.internal_lt d hd), decide_true]
  rw [(hs.created hd ha).lookup_eq hd', hs.created_kids hd, hs.created_vnodes hd, if_pos rfl,
    List.find?_append, hold, ha.1]
  simp [hnew]

/-- Mounts lead where they led. -/
theorem WellFormed.created_crosses (hs : WellFormed s g) {idx : Nat} (hv : v ∈ g.nodes)
    (hc : Crosses s v w) : Crosses (s.tmpfsAdd type d idx name).2 v w := by
  induction hc with
  | stay h0 => exact .stay (by rwa [hs.created_vnodes hv])
  | enter hne _ ih =>
      refine .enter (by rwa [hs.created_vnodes hv]) ?_
      rw [hs.created_vnodes hv]
      exact ih (hs.mounted _ hv hne).1

/-- Walks lead where they led. -/
theorem WellFormed.created_resolves (hs : WellFormed s g) (hd : d ∈ g.nodes) (ha : s.Accepts d name)
    (hu : u ∈ g.nodes) (hr : Resolves s u cs x) :
    Resolves (s.tmpfsAdd type d (g.kids d).length name).2 u cs x := by
  induction hr with
  | here => exact .here
  | into hl hc _ ih =>
      have hv := (hs.kid _ hu _ (hs.lookup_kid hu hl).1).1
      exact .into (hs.created_lookup hd ha hu hl) (hs.created_crosses hv hc) (ih (hs.crosses_mem hv hc))

/-- The path of the new node leads to it. -/
theorem WellFormed.resolves_created (hs : WellFormed s g) (hp : p ≠ [])
    (hdir : Resolves s s.root (components (dirPath p)) d) (ha : s.Accepts d (newName p)) :
    Resolves (s.tmpfsAdd type d (g.kids d).length (newName p)).2
      (s.tmpfsAdd type d (g.kids d).length (newName p)).2.root (components p) s.next := by
  have hd := hs.resolves_mem hs.root_mem hdir
  rw [components_split hp, resolves_append]
  refine ⟨d, hs.created_resolves hd ha hs.root_mem hdir, ?_⟩
  refine .into (hs.created_lookup_new hd ha) (.stay ?_) .here
  rw [tmpfsAdd_vnodes, Function.update_self]

end Vfs

end RpiKernel
