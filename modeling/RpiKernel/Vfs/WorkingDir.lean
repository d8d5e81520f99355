import RpiKernel.Vfs.Lookup

/-!
# RpiKernel.Vfs.WorkingDir

Working directories: `get_absolute_path` leaves no component `.` or `..` in a path
that it resolves, and it resolves every path but a relative one that is too long
(`getAbsolutePath_workingDir`).
-/

namespace RpiKernel

open Components

/-- No component is `.` or `..`. -/
def NoDots (p : List Char) : Prop := ['.'] ∉ p.splitOn '/' ∧ ['.', '.'] ∉ p.splitOn '/'

instance (p : List Char) : Decidable (NoDots p) := inferInstanceAs (Decidable (_ ∧ _))

/-- What `curr_working_dir` should be. -/
structure WorkingDir (p : List Char) : Prop where
  head : p.head? = some '/'
  noDots : NoDots p
  short : p.length ≤ maxPathName

variable {p path cwd : List Char} {cs : List (List Char)}

/-- What is resolved has no component `.` or `..`. -/
theorem noDots_absolute (hcs : ∀ c ∈ cs, '/' ∉ c) : NoDots (absolute (resolveParts cs)) := by
  have hdots : ∀ c ∈ resolveParts cs, c ≠ ['.'] ∧ c ≠ ['.', '.'] := fun c hc => (mem_resolve hc).2
  have hslash : ∀ c ∈ resolveParts cs, '/' ∉ c := fun c hc => hcs c (mem_resolve hc).1
  unfold absolute
  split
  · decide
  · unfold NoDots
    rw [splitOn_render hslash]
    grind

/-- It is no longer than what was read. -/
theorem length_absolute (hp : p.head? = some '/') :
    (absolute (resolveParts (parts p))).length ≤ p.length := by
  obtain ⟨q, rfl⟩ := List.head?_eq_some_iff.1 hp
  have hq : render '/' (parts ('/' :: q)) = '/' :: q := render_splitOn q
  have hle : (render '/' (resolveParts (parts ('/' :: q)))).length ≤
      (render '/' []).length + (render '/' (parts ('/' :: q))).length := length_render_resolveFrom
  rw [hq] at hle
  unfold absolute
  split
  · simp
  · simpa using hle

/-- **Working directories.**  From a working directory `get_absolute_path` makes a
working directory of every path of less than 255 characters but a relative one that
does not fit behind it. -/
theorem getAbsolutePath_workingDir (hcwd : WorkingDir cwd) (hpath : path.length < maxPathName) :
    WorkingDir (getAbsolutePath path cwd) ↔
      path.head? = some '/' ∨ cwd.length + path.length + 2 ≤ maxPathName := by
  refine ⟨fun h => (getAbsolutePath_head hcwd.head).1 h.head, fun h => ?_⟩
  have hfits : FitsPath path cwd := by
    unfold FitsPath
    grind
  have hhead : (joinPath path cwd).head? = some '/' := joinPath_head hcwd.head
  have hlen := length_absolute hhead
  rw [getAbsolutePath_eq hcwd.head hfits]
  exact ⟨absolute_head, noDots_absolute fun c hc => notMem_of_mem_splitOn hc,
    Nat.le_trans hlen (length_joinPath hfits)⟩

end RpiKernel
