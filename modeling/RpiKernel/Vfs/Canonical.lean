import RpiKernel.Vfs.WorkingDir

/-!
# RpiKernel.Vfs.Canonical

What `get_absolute_path` returns, as a text: every path that it resolves is one that
it leaves alone (`getAbsolutePath_idempotent`), and it is the canonical one as far as
empty components, which are components for it, do not matter
(`getAbsolutePath_canonical`).
-/

namespace RpiKernel

open Components

variable {p r path cwd cwd' : List Char} {cs : List (List Char)}

/-! ## once more -/

/-- The components of an absolute path. -/
theorem parts_absolute (hcs : ∀ c ∈ cs, '/' ∉ c) : parts (absolute cs) = if cs = [] then [[]] else cs := by
  unfold absolute
  by_cases hnil : cs = []
  · subst hnil
    rfl
  · rw [if_neg hnil, if_neg hnil, render_eq_intercalate hnil]
    exact List.splitOn_intercalate '/' hcs hnil

/-- A path that was resolved is left alone. -/
theorem absolute_resolve (hcs : ∀ c ∈ cs, '/' ∉ c) :
    absolute (resolveParts (parts (absolute (resolveParts cs)))) = absolute (resolveParts cs) := by
  rw [parts_absolute fun c hc => hcs c (mem_resolve hc).1]
  by_cases hnil : resolveParts cs = []
  · rw [if_pos hnil, hnil]
    rfl
  · have hidem : resolveParts (resolveParts cs) = resolveParts cs := resolve_resolve
    rw [if_neg hnil, hidem]

/-- **Idempotence.**  What `get_absolute_path` returns begins with a slash, has no
component `.` or `..`, is no longer than what was read, and comes back from a second
call, whatever the working directory is then. -/
theorem getAbsolutePath_idempotent (hcwd : cwd.head? = some '/') (hcwd' : cwd'.head? = some '/')
    (hfits : FitsPath path cwd) :
    getAbsolutePath (getAbsolutePath path cwd) cwd' = getAbsolutePath path cwd ∧
      (getAbsolutePath path cwd).head? = some '/' ∧ NoDots (getAbsolutePath path cwd) ∧
      (getAbsolutePath path cwd).length ≤ (joinPath path cwd).length := by
  have hslash : ∀ c ∈ parts (joinPath path cwd), '/' ∉ c := fun c hc => notMem_of_mem_splitOn hc
  have hhead : (getAbsolutePath path cwd).head? = some '/' := by
    rw [getAbsolutePath_eq hcwd hfits]
    exact absolute_head
  have hlen : (getAbsolutePath path cwd).length ≤ (joinPath path cwd).length := by
    rw [getAbsolutePath_eq hcwd hfits]
    exact length_absolute (joinPath_head hcwd)
  have hshort : (getAbsolutePath path cwd).length ≤ maxPathName := Nat.le_trans hlen (length_joinPath hfits)
  refine ⟨?_, hhead, ?_, hlen⟩
  · have hfits' : FitsPath (getAbsolutePath path cwd) cwd' := by simp [FitsPath, hhead, hshort]
    have hjoin : joinPath (getAbsolutePath path cwd) cwd' = getAbsolutePath path cwd := if_pos hhead
    rw [getAbsolutePath_eq hcwd' hfits', hjoin, getAbsolutePath_eq hcwd hfits]
    exact absolute_resolve hslash
  · rw [getAbsolutePath_eq hcwd hfits]
    exact noDots_absolute hslash

/-- A relative path with a `..`. -/
theorem getAbsolutePath_idempotent_relative :
    getAbsolutePath (getAbsolutePath "../b".toList "/a".toList) "/c".toList =
      getAbsolutePath "../b".toList "/a".toList ∧
      (getAbsolutePath "../b".toList "/a".toList).head? = some '/' ∧
      NoDots (getAbsolutePath "../b".toList "/a".toList) ∧
      (getAbsolutePath "../b".toList "/a".toList).length ≤ (joinPath "../b".toList "/a".toList).length :=
  getAbsolutePath_idempotent (by decide) (by decide) (by decide)

/-! ## the canonical form -/

/-- What `.` and `..` leave of the components that are not empty. -/
def canonicalParts (p : List Char) : List (List Char) := resolveParts ((parts p).filter (· ≠ []))

/-- `r` is the canonical form of `p`, up to a slash at the end. -/
def IsCanonical (r p : List Char) : Prop :=
  r = absolute (canonicalParts p) ∨ r = render '/' (canonicalParts p) ++ ['/']

instance (r p : List Char) : Decidable (IsCanonical r p) := inferInstanceAs (Decidable (_ ∨ _))

/-- What is left has no slash, and in a canonical form no component is empty. -/
theorem mem_canonicalParts {c : List Char} (h : c ∈ canonicalParts p) : '/' ∉ c ∧ c ≠ [] := by
  obtain ⟨hmem, -⟩ := mem_resolve h
  obtain ⟨hpart, hne⟩ := List.mem_filter.1 hmem
  exact ⟨notMem_of_mem_splitOn hpart, by simpa using hne⟩

/-- Absolute paths are compared by their components. -/
theorem absolute_inj {cs' : List (List Char)} (hcs : ∀ c ∈ cs, '/' ∉ c) (hcs' : ∀ c ∈ cs', '/' ∉ c) :
    absolute cs = absolute cs' ↔ (if cs = [] then [[]] else cs) = if cs' = [] then [[]] else cs' := by
  constructor
  · intro h
    rw [← parts_absolute hcs, ← parts_absolute hcs', h]
  · intro h
    have habs : ∀ ds : List (List Char), absolute ds = render '/' (if ds = [] then [[]] else ds) := by
      intro ds
      unfold absolute
      split <;> rfl
    rw [habs, habs, h]

/-- A resolved path is canonical if its components are and at most one empty one
follows. -/
theorem isCanonical_iff (hcs : ∀ c ∈ cs, '/' ∉ c) : IsCanonical (absolute cs) p ↔
    cs = canonicalParts p ∨ cs = canonicalParts p ++ [[]] := by
  have hslash : ∀ c ∈ canonicalParts p, '/' ∉ c := fun c hc => (mem_canonicalParts hc).1
  have hempty : [] ∉ canonicalParts p := fun hc => (mem_canonicalParts hc).2 rfl
  have hend : render '/' (canonicalParts p) ++ ['/'] = absolute (canonicalParts p ++ [[]]) := by
    simp [absolute]
  have hslash' : ∀ c ∈ canonicalParts p ++ [[]], '/' ∉ c := by
    simpa [or_imp, forall_and] using hslash
  unfold IsCanonical
  rw [hend, absolute_inj hcs hslash, absolute_inj hcs hslash']
  generalize canonicalParts p = ks at *
  cases ks with
  | nil => by_cases hcs : cs = [] <;> simp [hcs]
  | cons k ks =>
      by_cases hcs : cs = []
      · simp only [List.mem_cons, not_or] at hempty
        simp [hcs, hempty]
      · simp [hcs]

/-- Nothing but the last component is empty. -/
theorem resolveParts_filter (h : [] ∉ cs.dropLast) :
    resolveParts cs = resolveParts (cs.filter (· ≠ [])) ∨
      resolveParts cs = resolveParts (cs.filter (· ≠ [])) ++ [[]] := by
  have hnames : ∀ ds : List (List Char), [] ∉ ds → ds.filter (· ≠ []) = ds := by
    intro ds hds
    rw [List.filter_eq_self]
    grind
  cases List.eq_nil_or_concat' cs with
  | inl hnil => simp [hnil]
  | inr hlast =>
      obtain ⟨init, last, rfl⟩ := hlast
      rw [List.dropLast_concat] at h
      rw [List.filter_append, hnames init h]
      by_cases he : last = []
      · subst he
        right
        simp [resolve, push]
      · left
        simp [he]

/-- **Canonical forms.**  `get_absolute_path` resolves the components of a path, the
empty ones too.  The result is canonical if and only if that leaves the canonical
components and at most an empty one at the end, which is so when no component but the
last one is empty. -/
theorem getAbsolutePath_canonical (hcwd : cwd.head? = some '/') (hfits : FitsPath path cwd) :
    getAbsolutePath path cwd = absolute (resolveParts (parts (joinPath path cwd))) ∧
      (IsCanonical (getAbsolutePath path cwd) (joinPath path cwd) ↔
        resolveParts (parts (joinPath path cwd)) = canonicalParts (joinPath path cwd) ∨
          resolveParts (parts (joinPath path cwd)) = canonicalParts (joinPath path cwd) ++ [[]]) ∧
      ([] ∉ (parts (joinPath path cwd)).dropLast →
        IsCanonical (getAbsolutePath path cwd) (joinPath path cwd)) := by
  have heq := getAbsolutePath_eq hcwd hfits
  have hslash : ∀ c ∈ resolveParts (parts (joinPath path cwd)), '/' ∉ c :=
    fun c hc => notMem_of_mem_splitOn (mem_resolve hc).1
  have hiff := isCanonical_iff (p := joinPath path cwd) hslash
  rw [← heq] at hiff
  exact ⟨heq, hiff, fun h => hiff.2 (resolveParts_filter h)⟩

/-- A `..` that is behind one slash. -/
theorem getAbsolutePath_canonical_parent :
    IsCanonical (getAbsolutePath "../b/./c/".toList "/a/d".toList) "/a/d/../b/./c/".toList := by
  have hjoin : joinPath "../b/./c/".toList "/a/d".toList = "/a/d/../b/./c/".toList := by decide
  have hfits : FitsPath "../b/./c/".toList "/a/d".toList := by decide
  have h := (getAbsolutePath_canonical (by decide) hfits).2.2
  rw [hjoin] at h
  exact h (by decide)

/-- **A repeated slash** stays in the path, and a `..` behind it takes the empty component
away. -/
theorem getAbsolutePath_slashes : getAbsolutePath "a//../b".toList "/".toList = "/a/b".toList ∧
    canonicalParts (joinPath "a//../b".toList "/".toList) = ["b".toList] ∧
    ¬ IsCanonical (getAbsolutePath "a//../b".toList "/".toList) (joinPath "a//../b".toList "/".toList) ∧
    ¬ IsCanonical (getAbsolutePath "a//b".toList "/".toList) (joinPath "a//b".toList "/".toList) := by
  decide

end RpiKernel
