import RpiKernel.Vfs.Mount
import RpiKernel.Vfs.Resolve

/-!
# RpiKernel.Vfs.Lookup

`vfs_lookup` on the paths that `get_absolute_path` returns.

`vfs_lookup` takes every part between two slashes for a name, the empty ones
too; the root is the empty string for it, and `/` for `get_absolute_path`.
-/

namespace RpiKernel

open Runs

/-- The names in a path: its parts, less the empty ones. -/
def names (p : List Char) : List (List Char) := (p.splitOn '/').filter (· ≠ [])

/-! ## what `get_absolute_path` returns -/

/-- `get_absolute_path` gives a relative path that is too long back as it is. -/
theorem getAbsolutePath_long {path cwd : List Char} (hp : path.head? ≠ some '/')
    (hlong : maxPathName < cwd.length + path.length + 2) : getAbsolutePath path cwd = path := by
  rw [getAbsolutePath, if_pos hp, if_pos hlong]

/-- Any other path comes back with a slash in front. -/
theorem getAbsolutePath_head {path cwd : List Char} (hcwd : cwd.head? = some '/') :
    (getAbsolutePath path cwd).head? = some '/' ↔
      path.head? = some '/' ∨ cwd.length + path.length + 2 ≤ maxPathName := by
  by_cases hfits : FitsPath path cwd
  · rw [getAbsolutePath_eq hcwd hfits, iff_true_left absolute_head]
    unfold FitsPath at hfits
    grind
  · unfold FitsPath at hfits
    by_cases hp : path.head? = some '/'
    · simp only [hp, if_true, Nat.not_le] at hfits
      simp [getAbsolutePath, hp, hfits]
    · simp only [hp, if_false, Nat.not_le] at hfits
      rw [getAbsolutePath_long hp hfits]
      simp [hp, Nat.not_le.2 hfits]

/-! ## names and components -/

/-- The components of a path are its names when it begins with a slash and none
of them is empty. -/
theorem components_eq_names {p : List Char} (hp : p ≠ []) :
    Vfs.components p = names p ↔ p.head? = some '/' ∧ [] ∉ Vfs.components p := by
  obtain ⟨a, q, rfl⟩ := List.exists_cons_of_ne_nil hp
  have hcomp : Vfs.components (a :: q) = q.splitOn '/' := rfl
  have hnames : ∀ l : List (List Char), l = l.filter (· ≠ []) ↔ [] ∉ l := fun l => by
    rw [eq_comm, List.filter_eq_self]
    constructor
    case mp => exact fun h hm => absurd (h [] hm) (by simp)
    case mpr => exact fun h x hx => decide_eq_true fun he => h (he ▸ hx)
  rw [hcomp, names]
  by_cases ha : a = '/'
  · subst ha
    have hsplit : ('/' :: q).splitOn '/' = [] :: q.splitOn '/' := by
      rw [List.splitOn, List.splitOnP_cons_eq_if_modifyHead]
      rfl
    rw [hsplit, List.filter_cons_of_neg (by simp), hnames]
    simp
  · obtain ⟨c, cs, hc⟩ := List.exists_cons_of_ne_nil (List.splitOnP_ne_nil (· == '/') q)
    have hsplit : (a :: q).splitOn '/' = (a :: c) :: cs := by
      rw [List.splitOn, List.splitOnP_cons_eq_if_modifyHead, hc, if_neg (by simpa using ha),
        List.modifyHead_cons]
    rw [hsplit, List.filter_cons_of_pos (by simp), List.splitOn, hc]
    constructor
    case mp =>
      intro h
      have hlen := congrArg List.length (List.cons.inj h).1
      rw [List.length_cons] at hlen
      omega
    case mpr => exact fun h => absurd (Option.some.inj h.1) ha

/-- The components of what `get_absolute_path` returns are the names in it when no
component is empty and the path was not too long a relative one. -/
theorem getAbsolutePath_components {path cwd : List Char} (hcwd : cwd.head? = some '/') :
    Vfs.components (getAbsolutePath path cwd) = names (getAbsolutePath path cwd) ↔
      (path = [] ∨ path.head? = some '/' ∨ cwd.length + path.length + 2 ≤ maxPathName) ∧
        [] ∉ Vfs.components (getAbsolutePath path cwd) := by
  have hhead : (getAbsolutePath path cwd).head? = some '/' ↔ _ := getAbsolutePath_head hcwd
  by_cases hlong : path.head? = some '/' ∨ cwd.length + path.length + 2 ≤ maxPathName
  · have hne : getAbsolutePath path cwd ≠ [] := fun he => by
      rw [he] at hhead
      exact absurd (hhead.2 hlong) (by simp)
    rw [components_eq_names hne, hhead, or_iff_right_of_imp fun _ => hlong]
  · obtain ⟨hp, hlen⟩ := not_or.1 hlong
    rw [getAbsolutePath_long hp (Nat.not_le.1 hlen), or_iff_left hlong]
    by_cases hnil : path = []
    · subst hnil
      exact iff_of_true rfl ⟨rfl, List.not_mem_nil⟩
    · rw [components_eq_names hnil]
      exact iff_of_false (fun h => hp h.1) fun h => hnil h.1

namespace Vfs

variable {s₀ s : Vfs} {good : Vfs → Nat × VfsCall → Prop}

/-- In every state that is reached, `vfs_lookup` finds a path of
`get_absolute_path` where the walk along its names does, if and only if no
component of it is empty and it was not too long a relative one, or neither its
components nor its names lead to a vnode. -/
theorem vfsLookup_absolute {path cwd p : List Char} (hr : Reach VfsCall.step good s₀.initRoot s)
    (hcwd : cwd.head? = some '/') (hp : getAbsolutePath path cwd = p) (hok : PathOk p) :
    (∀ v, (∃ n, s.vfsLookup n p = some (some v)) ↔ Resolves s s.root (names p) v) ↔
      ((path = [] ∨ path.head? = some '/' ∨ cwd.length + path.length + 2 ≤ maxPathName) ∧
          [] ∉ components p) ∨
        ∀ v, ¬ Resolves s s.root (components p) v ∧ ¬ Resolves s s.root (names p) v := by
  obtain ⟨g, hs⟩ := vfsReach_wellFormed hr
  have hnul : ∀ c ∈ names p, '\x00' ∉ c := fun c hc hn =>
    hok.nul (mem_of_mem_splitOn (List.mem_filter.1 hc).1 hn)
  subst hp
  rw [← getAbsolutePath_components hcwd]
  simp only [hs.vfsLookup_iff hok.components_short]
  constructor
  case mp =>
    intro h
    refine or_iff_not_imp_left.2 fun hne v => ?_
    have hcomp : ¬ Resolves s s.root (components (getAbsolutePath path cwd)) v := fun hv =>
      hne (hs.components_unique hok.components_nul hnul hv ((h v).1 hv))
    exact ⟨hcomp, fun hv => hcomp ((h v).2 hv)⟩
  case mpr =>
    intro h v
    rcases h with h | h
    · rw [h]
    · exact iff_of_false (h v).1 (h v).2

/-- A directory in a file system that is mounted at `/a`. -/
def mountedDirectory : Vfs := ((oneMount.vfsMkdir 2 "/a/b".toList).getD (0, zeroVfs)).2

/-- `../a/b`, from `/a`. -/
theorem vfsLookup_absolute_mounted : getAbsolutePath "../a/b".toList "/a".toList = "/a/b".toList ∧
    ∃ v, mountedDirectory.vfsLookup 2 "/a/b".toList = some (some v) ∧
      Resolves mountedDirectory mountedDirectory.root (names "/a/b".toList) v := by
  have ha : PathOk "/a".toList := ⟨by decide, by decide⟩
  have hab : PathOk "/a/b".toList := ⟨by decide, by decide⟩
  have hr : Reach VfsCall.step VfsCall.Good zeroVfs.initRoot mountedDirectory :=
    .step (2, .mkdir "/a/b".toList)
      (.step (1, .mount "/a".toList "tmpfs".toList) (.step (1, .mkdir "/a".toList) .init ⟨ha, rfl⟩ rfl)
        ⟨ha, rfl⟩ rfl) ⟨hab, rfl⟩ rfl
  have hp : getAbsolutePath "../a/b".toList "/a".toList = "/a/b".toList := by decide
  have hfound : (mountedDirectory.vfsLookup 2 "/a/b".toList).join.isSome := by decide +kernel
  obtain ⟨v, hv⟩ := Option.isSome_iff_exists.1 hfound
  have hlookup : mountedDirectory.vfsLookup 2 "/a/b".toList = some (some v) := Option.join_eq_some_iff.1 hv
  have hiff := (vfsLookup_absolute hr rfl hp hab).2 (Or.inl ⟨by decide, by decide⟩)
  exact ⟨hp, v, hlookup, (hiff v).1 ⟨2, hlookup⟩⟩

/-- The root of the tree is not found under the path that `get_absolute_path`
has for it. -/
theorem vfsLookup_root_fails : getAbsolutePath ['/'] ['/'] = ['/'] ∧
    Resolves zeroVfs.initRoot zeroVfs.initRoot.root (names ['/']) zeroVfs.initRoot.root ∧
    ∀ n, zeroVfs.initRoot.vfsLookup n ['/'] = some none := by
  refine ⟨by decide, ?_, fun n => rfl⟩
  have hnames : names ['/'] = [] := by decide
  rw [hnames]
  exact .here

end Vfs

end RpiKernel
