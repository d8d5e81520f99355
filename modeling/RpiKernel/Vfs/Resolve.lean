import RpiKernel.Lib.Components
import RpiKernel.Vfs.Path

/-!
# RpiKernel.Vfs.Resolve

The second step of `get_absolute_path` component by component.  What stands between
two slashes is a component, the empty string too: the loop skips `.`, takes the
last component away for `..`, and copies every other one (`resolveDots_render`).
-/

namespace RpiKernel

open Components

variable {ap c p q rest : List Char} {k : Nat}

/-- The components of a path that begins with a slash. -/
def parts (p : List Char) : List (List Char) := (p.drop 1).splitOn '/'

/-- What `.` and `..` leave of components. -/
abbrev resolveParts (cs : List (List Char)) : List (List Char) := resolve ['.'] ['.', '.'] cs

/-- An absolute path. -/
def absolute (cs : List (List Char)) : List Char := if cs = [] then ['/'] else render '/' cs

/-! ## one component -/

theorem resolveDots_skip {cs : List Char} : resolveDots cs k ap = resolveDots (cs.drop k) 0 ap := by
  induction k generalizing cs with
  | zero => simp
  | succ k ih =>
      cases cs with
      | nil => simp [resolveDots]
      | cons a cs => simp [resolveDots, ih]

/-- Going back from a component to the slash in front of it. -/
theorem backToSlash_component {d : List Char} (hd : '/' ∉ d) (hk : k ≤ d.length) :
    backToSlash (ap ++ '/' :: d) (ap.length + k) = ap.length := by
  induction k with
  | zero =>
      cases hap : ap.length with
      | zero => rfl
      | succ m => simp [backToSlash, ← hap]
  | succ k ih =>
      have hget : (ap ++ '/' :: d)[ap.length + k + 1]? = d[k]? := by
        rw [List.getElem?_append_right (by omega)]
        have hsub : ap.length + k + 1 - ap.length = k + 1 := by omega
        simp [hsub]
      have hne : d[k]? ≠ some '/' := fun he => hd (List.mem_of_getElem? he)
      rw [← Nat.add_assoc, backToSlash, hget, if_neg hne]
      exact ih (by omega)

/-- A path without its last component. -/
theorem parentPath_component (hc : '/' ∉ c) : parentPath (ap ++ '/' :: c) = ap := by
  have hlen : (ap ++ '/' :: c).length - 1 = ap.length + c.length := by simp
  rw [parentPath, hlen, backToSlash_component hc (Nat.le_refl _)]
  simp

/-- Characters that are no slash are copied. -/
theorem resolveDots_copy (hc : '/' ∉ c) (hlen : ap.length + c.length ≤ maxPathName) :
    resolveDots (c ++ rest) 0 ap = resolveDots rest 0 (ap ++ c) := by
  induction c generalizing ap with
  | nil => simp
  | cons a c ih =>
      rw [List.mem_cons, not_or] at hc
      rw [List.length_cons] at hlen
      have hlt : ap.length < maxPathName := by omega
      rw [List.cons_append, resolveDots]
      have hnext : resolveDots (c ++ rest) 0 (ap ++ [a]) = resolveDots rest 0 (ap ++ [a] ++ c) :=
        ih hc.2 (by simp; omega)
      simp [Ne.symm hc.1, hlt, hnext]

/-- What is in front of a slash. -/
theorem take_component {d r : List Char} (hc : '/' ∉ c) (hd : '/' ∉ d) :
    (c ++ '/' :: r).take (d.length + 1) = d ++ ['/'] ↔ c = d := by
  constructor
  · intro h
    have hsplit : c ++ '/' :: r = d ++ ['/'] ++ (c ++ '/' :: r).drop (d.length + 1) := by
      rw [← h, List.take_append_drop]
    rw [List.append_assoc, List.singleton_append] at hsplit
    have hparts := congrArg (List.splitOn '/') hsplit
    rw [List.splitOn_append_cons_self_of_not_mem hc, List.splitOn_append_cons_self_of_not_mem hd] at hparts
    exact (List.cons.inj hparts).1
  · intro h
    simp [h, List.take_length_add_append]

/-- One pass over a component, which ends at a slash or with the text. -/
theorem resolveDots_component (hc : '/' ∉ c) (hrest : rest = [] ∨ rest.head? = some '/')
    (hlen : ap.length + (c.length + 1) ≤ maxPathName) :
    resolveDots ('/' :: c ++ rest) 0 ap = resolveDots rest 0
      (if c = ['.'] then ap else if c = ['.', '.'] then parentPath ap else ap ++ '/' :: c) := by
  have hslash : ∀ d : List Char, '/' ∉ d → (c ++ rest).take (d.length + 1) = d ++ ['/'] → c = d := by
    intro d hd h
    cases hrest with
    | inl hnil =>
        have hmem : '/' ∈ (c ++ rest).take (d.length + 1) := by simp [h]
        have hall := List.mem_of_mem_take hmem
        simp [hnil, hc] at hall
    | inr hhead =>
        obtain ⟨r, rfl⟩ := List.head?_eq_some_iff.1 hhead
        exact (take_component hc hd).1 h
  have hend : ∀ d : List Char, '/' ∉ d → c ++ rest = d → c = d := by
    intro d hd h
    cases hrest with
    | inl hnil => simpa [hnil] using h
    | inr hhead =>
        obtain ⟨r, rfl⟩ := List.head?_eq_some_iff.1 hhead
        exact absurd (by simp [← h]) hd
  have hdot : '/' ∉ ['.'] := by decide
  have hdots : '/' ∉ ['.', '.'] := by decide
  rw [List.cons_append, resolveDots]
  by_cases h₁ : c = ['.']
  · subst h₁
    cases hrest with
    | inl hnil => simp [hnil, resolveDots]
    | inr hhead =>
        obtain ⟨r, rfl⟩ := List.head?_eq_some_iff.1 hhead
        simp [resolveDots_skip (k := 1)]
  by_cases h₂ : c = ['.', '.']
  · subst h₂
    cases hrest with
    | inl hnil => simp [hnil, resolveDots]
    | inr hhead =>
        obtain ⟨r, rfl⟩ := List.head?_eq_some_iff.1 hhead
        simp [resolveDots_skip (k := 2)]
  -- no pattern is met
  have hlt : ap.length < maxPathName := by omega
  rw [if_neg fun h => h₁ (hslash _ hdot h.2), if_neg fun h => h₁ (hend _ hdot h.2),
    if_neg fun h => h₂ (hslash _ hdots h.2), if_neg fun h => h₂ (hend _ hdots h.2), if_pos hlt,
    if_neg h₁, if_neg h₂, resolveDots_copy hc (by simp; omega)]
  simp

/-! ## paths -/

/-- The loop resolves the components of its text. -/
theorem resolveDots_render {st cs : List (List Char)} (hst : ∀ c ∈ st, '/' ∉ c) (hcs : ∀ c ∈ cs, '/' ∉ c)
    (hlen : (render '/' st).length + (render '/' cs).length ≤ maxPathName) :
    resolveDots (render '/' cs) 0 (render '/' st) = render '/' (resolveFrom ['.'] ['.', '.'] st cs) := by
  induction cs generalizing st with
  | nil => simp [resolveDots]
  | cons c cs ih =>
      obtain ⟨hc, hcs⟩ := List.forall_mem_cons.1 hcs
      simp only [render_cons, List.cons_append, List.length_cons, List.length_append] at hlen
      rw [render_cons, resolveDots_component hc render_head (by omega), resolveFrom_cons, push]
      split
      · exact ih hst hcs (by omega)
      · split
        · -- the last component is taken away
          cases List.eq_nil_or_concat' st with
          | inl hnil =>
              subst hnil
              exact ih hst hcs (by simp at hlen ⊢; omega)
          | inr hlast =>
              obtain ⟨init, last, rfl⟩ := hlast
              have hparent : parentPath (render '/' (init ++ [last])) = render '/' init := by
                rw [render_append, render_cons, render_nil, List.append_nil]
                exact parentPath_component (hst last (by simp))
              rw [hparent, List.dropLast_concat]
              refine ih (fun d hd => hst d (by simp [hd])) hcs ?_
              simp at hlen
              omega
        · have hpush : render '/' st ++ '/' :: c = render '/' (st ++ [c]) := by simp
          rw [hpush]
          refine ih ?_ hcs (by simp; omega)
          simpa [or_imp, forall_and] using ⟨hst, hc⟩

/-- What `get_absolute_path` makes of a path that begins with a slash. -/
theorem resolvePath_eq (hp : p.head? = some '/') (hlen : p.length ≤ maxPathName) :
    resolvePath p = absolute (resolveParts (parts p)) := by
  obtain ⟨q, rfl⟩ := List.head?_eq_some_iff.1 hp
  have hq : render '/' (parts ('/' :: q)) = '/' :: q := render_splitOn q
  have hloop : resolveDots ('/' :: q) 0 [] = render '/' (resolveParts (parts ('/' :: q))) := by
    have hlen' : (render '/' []).length + (render '/' (parts ('/' :: q))).length ≤ maxPathName := by
      simpa [hq] using hlen
    have hcs : ∀ c ∈ parts ('/' :: q), '/' ∉ c := fun c hc => notMem_of_mem_splitOn hc
    have h := resolveDots_render (by simp) hcs hlen'
    rwa [hq] at h
  unfold resolvePath absolute
  rw [hloop]
  by_cases hnil : resolveParts (parts ('/' :: q)) = []
  · simp [hnil]
  · have hne : render '/' (resolveParts (parts ('/' :: q))) ≠ [] := by
      rw [render_eq_intercalate hnil]
      simp
    simp only [hnil, hne, if_false]

/-! ## `get_absolute_path` -/

variable {path cwd : List Char}

/-- The text that is resolved: the path, behind the working directory if it is
relative. -/
def joinPath (path cwd : List Char) : List Char :=
  if path.head? = some '/' then path
  else if cwd.getLast? = some '/' then cwd ++ path
  else cwd ++ '/' :: path

/-- The length checks do not fire. -/
def FitsPath (path cwd : List Char) : Prop :=
  if path.head? = some '/' then path.length ≤ maxPathName
  else cwd.length + path.length + 2 ≤ maxPathName

instance (path cwd : List Char) : Decidable (FitsPath path cwd) := by
  unfold FitsPath
  infer_instance

theorem joinPath_head (hcwd : cwd.head? = some '/') : (joinPath path cwd).head? = some '/' := by
  unfold joinPath
  split
  · assumption
  · split <;> simp [hcwd]

theorem length_joinPath (h : FitsPath path cwd) : (joinPath path cwd).length ≤ maxPathName := by
  unfold FitsPath at h
  unfold joinPath
  grind

/-- `get_absolute_path` resolves the components. -/
theorem getAbsolutePath_eq (hcwd : cwd.head? = some '/') (h : FitsPath path cwd) :
    getAbsolutePath path cwd = absolute (resolveParts (parts (joinPath path cwd))) := by
  rw [← resolvePath_eq (joinPath_head hcwd) (length_joinPath h)]
  unfold FitsPath at h
  unfold getAbsolutePath joinPath
  by_cases hp : path.head? = some '/'
  · simp only [hp, if_true] at h ⊢
    simp [Nat.not_lt.2 h]
  · simp only [hp, if_false] at h ⊢
    have hroot : cwd = ['/'] → cwd.getLast? = some '/' := fun he => by simp [he]
    have hlt : ¬ cwd.length + path.length + 2 > maxPathName := Nat.not_lt.2 h
    by_cases hlast : cwd.getLast? = some '/'
    · simp [hp, hlt, hlast]
    · have hne : cwd ≠ ['/'] := fun he => hlast (hroot he)
      simp [hp, hlt, hlast, hne]

/-! ## absolute paths -/

theorem absolute_head {cs : List (List Char)} : (absolute cs).head? = some '/' := by
  unfold absolute
  cases cs with
  | nil => rfl
  | cons c cs => rfl

end RpiKernel
