import RpiKernel.Vfs.Tmpfs
import Mathlib.Data.List.Nodup
import Mathlib.Tactic.Common

/-!
# RpiKernel.Vfs.Directory

The directory invariant of tmpfs.  `Children s dir cs` says that the occupied
entries of `dir` are `cs`, from the front; what `tmpfs_lookup`, `tmpfs_create`
and `tmpfs_mkdir` do to a directory is said in terms of `cs`
(`tmpfsLookup_eq`, `tmpfsMake_cases`).
-/

namespace RpiKernel

/-! ## entry arrays -/

/-- The occupied ones of `n` entries are `cs`, in the first places. -/
structure Occupied (entry : Nat → Nat) (n : Nat) (cs : List Nat) : Prop where
  length_le : cs.length ≤ n
  ne_zero : ∀ c ∈ cs, c ≠ 0
  entry : ∀ i < n, entry i = cs.getD i 0

namespace Occupied

variable {entry : Nat → Nat} {n i : Nat} {cs : List Nat} {p : Nat → Bool}

/-- The entries behind are empty. -/
theorem entry_eq_zero_iff (h : Occupied entry n cs) (hi : i < n) : entry i = 0 ↔ cs.length ≤ i := by
  rw [h.entry i hi]
  by_cases hl : i < cs.length
  · have hne := h.ne_zero _ (List.getElem_mem hl)
    simp [List.getD_eq_getElem?_getD, hne, hl]
  · simp [List.getD_eq_getElem?_getD, List.getElem?_eq_none (Nat.le_of_not_lt hl)]
    omega

/-- The entry of an index below the length. -/
theorem entry_getElem (h : Occupied entry n cs) (hi : i < cs.length) : entry i = cs[i] := by
  rw [h.entry i (Nat.lt_of_lt_of_le hi h.length_le)]
  simp [List.getD_eq_getElem?_getD, hi]

/-- The loop of a lookup from index `a` on. -/
theorem find_range' (h : Occupied entry n cs) (k a : Nat) (ha : a + k = n) :
    findEntry entry p (List.range' a k) = (cs.drop a).find? p := by
  induction k generalizing a with
  | zero =>
      have hle := h.length_le
      simp [findEntry, List.drop_eq_nil_of_le (show cs.length ≤ a by omega)]
  | succ k ih =>
      rw [List.range'_succ, findEntry]
      by_cases hl : a < cs.length
      · have hne := h.ne_zero _ (List.getElem_mem hl)
        rw [h.entry_getElem hl, if_neg hne, List.drop_eq_getElem_cons hl, List.find?_cons,
          ih (a + 1) (by omega)]
        by_cases hn : p cs[a] <;> simp [hn]
      · have hz := (h.entry_eq_zero_iff (show a < n by omega)).2 (by omega)
        rw [if_pos hz, List.drop_eq_nil_of_le (by omega), List.find?_nil]

/-- What a lookup finds. -/
theorem find_eq (h : Occupied entry n cs) : findEntry entry p (List.range n) = cs.find? p := by
  have hf := h.find_range' n 0 (Nat.zero_add _) (p := p)
  rwa [List.drop_zero, ← List.range_eq_range'] at hf

end Occupied

/-! ## directories -/

namespace Vfs

variable {s : Vfs} {dir : Nat} {cs : List Nat} {name : List Char} {type : FsnodeType}

/-- The occupied entries of a directory are `cs`. -/
abbrev Children (s : Vfs) (dir : Nat) (cs : List Nat) : Prop :=
  Occupied (s.inode dir).entry maxDirEntry cs

/-- The name of a node. -/
def nameOf (s : Vfs) (v : Nat) : List Char := (s.inode v).name

/-- The search for a free entry from index `a` on. -/
theorem Children.free_range' (h : s.Children dir cs) (name : List Char) (n a : Nat)
    (ha : a + n = maxDirEntry) (hlow : a ≤ cs.length) :
    s.tmpfsFree (s.inode dir) name (List.range' a n) =
      if name ∈ (cs.drop a).map s.nameOf then none else some cs.length := by
  induction n generalizing a with
  | zero =>
      have hle := h.length_le
      have hlen : cs.length = maxDirEntry := by omega
      simp [tmpfsFree, List.drop_eq_nil_of_le (show cs.length ≤ a by omega), hlen]
  | succ n ih =>
      rw [List.range'_succ, tmpfsFree]
      by_cases hl : a < cs.length
      · have hne := h.ne_zero _ (List.getElem_mem hl)
        rw [h.entry_getElem hl, if_neg hne, List.drop_eq_getElem_cons hl,
          ih (a + 1) (by omega) hl]
        by_cases hn : s.nameOf cs[a] = name
        · have hn' : (s.inode cs[a]).name = name := hn
          rw [if_pos hn', List.map_cons, hn, if_pos List.mem_cons_self]
        · have hn' : ¬ (s.inode cs[a]).name = name := hn
          rw [if_neg hn', List.map_cons]
          simp only [List.mem_cons, Ne.symm hn, false_or]
      · have hz := (h.entry_eq_zero_iff (show a < maxDirEntry by omega)).2 (by omega)
        have hlen : a = cs.length := by omega
        rw [if_pos hz, List.drop_eq_nil_of_le (by omega)]
        simp [hlen]

/-- What `tmpfs_lookup` finds. -/
theorem tmpfsLookup_eq (h : s.Children dir cs) :
    s.tmpfsLookup dir name = cs.find? fun c => name = s.nameOf c :=
  h.find_eq

/-- What `tmpfs_create` and `tmpfs_mkdir` do: they refuse and change nothing,
or they add a node behind the entries that are there. -/
theorem tmpfsMake_cases (h : s.Children dir cs) (target : Nat) :
    s.tmpfsMake type dir target name = (-1, target, s) ∨
      (s.tmpfsMake type dir target name = (0, s.tmpfsAdd type dir cs.length name) ∧
        (s.inode dir).type = .dir ∧ name ∉ cs.map s.nameOf ∧ cs.length < maxDirEntry ∧
        name.length ≤ maxFileName) := by
  have hf := h.free_range' name maxDirEntry 0 (Nat.zero_add _) (Nat.zero_le _)
  rw [List.drop_zero, ← List.range_eq_range'] at hf
  unfold tmpfsMake
  by_cases ht : (s.inode dir).type = .dir
  · by_cases hn : name ∈ cs.map s.nameOf
    · rw [if_pos hn] at hf
      exact Or.inl (by simp [ht, hf])
    · rw [if_neg hn] at hf
      by_cases hfull : cs.length = maxDirEntry
      · exact Or.inl (by simp [ht, hf, hfull])
      · by_cases hlong : name.length > maxFileName
        · exact Or.inl (by simp [ht, hf, hfull, hlong])
        · have hlt : cs.length < maxDirEntry := Nat.lt_of_le_of_ne h.length_le hfull
          exact Or.inr ⟨by simp [ht, hf, hfull, hlong], ht, hn, hlt, Nat.le_of_not_lt hlong⟩
  · exact Or.inl (by simp [ht])

/-! ## the new node -/

variable {idx v : Nat}

/-- The new node is the next block. -/
@[simp] theorem tmpfsAdd_fst : (s.tmpfsAdd type dir idx name).1 = s.next := rfl

@[simp] theorem tmpfsAdd_vnodes : (s.tmpfsAdd type dir idx name).2.vnodes =
    Function.update s.vnodes s.next ⟨0, .tmpfs, .tmpfs, s.next + vnodeBytes⟩ := rfl

@[simp] theorem tmpfsAdd_next : (s.tmpfsAdd type dir idx name).2.next =
    s.next + vnodeBytes + tmpfsInodeBytes + 0x1000 := rfl

@[simp] theorem tmpfsAdd_mounts : (s.tmpfsAdd type dir idx name).2.mounts = s.mounts := rfl

@[simp] theorem tmpfsAdd_ramInodes :
    (s.tmpfsAdd type dir idx name).2.ramInodes = s.ramInodes := rfl

@[simp] theorem tmpfsAdd_files : (s.tmpfsAdd type dir idx name).2.files = s.files := rfl

@[simp] theorem tmpfsAdd_mem : (s.tmpfsAdd type dir idx name).2.mem = s.mem := rfl

@[simp] theorem tmpfsAdd_rootfs : (s.tmpfsAdd type dir idx name).2.rootfs = s.rootfs := rfl

/-- The inodes of the nodes that were there: the directory has one entry more. -/
theorem tmpfsAdd_inode (hd : dir < s.next) (hv : v < s.next)
    (hdi : (s.vnodes dir).internal < s.next) (hvi : (s.vnodes v).internal < s.next) :
    (s.tmpfsAdd type dir idx name).2.inode v =
      if (s.vnodes v).internal = (s.vnodes dir).internal then
        { s.inode v with entry := Function.update (s.inode v).entry idx s.next }
      else s.inode v := by
  have hne : (s.vnodes v).internal ≠ s.next + vnodeBytes := by omega
  have hne' : (s.vnodes dir).internal ≠ s.next + vnodeBytes := by omega
  have hvn : v ≠ s.next := by omega
  have hdn : dir ≠ s.next := by omega
  simp only [tmpfsAdd, tmpfsCreateVnode, kmalloc, inode, Function.update_of_ne hvn,
    Function.update_of_ne hdn, Function.update_self, Function.update_of_ne hne,
    Function.update_of_ne hne']
  by_cases h : (s.vnodes v).internal = (s.vnodes dir).internal
  · rw [if_pos h, h, Function.update_self]
  · rw [if_neg h, Function.update_of_ne h, Function.update_of_ne hne]

/-- The inode of the new node. -/
theorem tmpfsAdd_inode_new (hd : dir < s.next) (hdi : (s.vnodes dir).internal < s.next) :
    (s.tmpfsAdd type dir idx name).2.inode s.next =
      ⟨type, name, fun _ => 0, s.next + vnodeBytes + tmpfsInodeBytes, 0⟩ := by
  have hne' : (s.vnodes dir).internal ≠ s.next + vnodeBytes := by omega
  have hdn : dir ≠ s.next := by omega
  simp only [tmpfsAdd, tmpfsCreateVnode, kmalloc, inode, Function.update_of_ne hdn,
    Function.update_self, Function.update_of_ne hne'.symm]

/-- The directory after the new node was added. -/
theorem Children.add (h : s.Children dir cs) (hlt : cs.length < maxDirEntry) (hd : dir < s.next)
    (hdi : (s.vnodes dir).internal < s.next) :
    (s.tmpfsAdd type dir cs.length name).2.Children dir (cs ++ [s.next]) where
  length_le := by
    simp
    omega
  ne_zero c hc := by
    have hpos := s.next_pos
    have hne := h.ne_zero c
    grind
  entry i hi := by
    rw [tmpfsAdd_inode hd hd hdi hdi, if_pos rfl]
    show Function.update (s.inode dir).entry cs.length s.next i = _
    by_cases hc : i = cs.length
    · simp [hc, List.getD_eq_getElem?_getD]
    · rw [Function.update_of_ne hc, h.entry i hi]
      grind

/-- A directory that is left alone. -/
theorem Children.of_inode {s' : Vfs} (h : s.Children dir cs)
    (he : (s'.inode dir).entry = (s.inode dir).entry) : s'.Children dir cs where
  length_le := h.length_le
  ne_zero := h.ne_zero
  entry i hi := by rw [he, h.entry i hi]

end Vfs

end RpiKernel
