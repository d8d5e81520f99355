import Mathlib.Data.List.Basic

/-!
# Lib.Components

Paths as lists of components.

`render sep cs` writes a separator in front of every component; splitting at the
separators gives the components back.  `resolve here up cs` reads components from
left to right: `here` is skipped, `up` takes the last one that is left away, and
any other one is kept.
-/

namespace Components

/-! ## text -/

section

variable {α : Type _} (sep : α) {c : List α} {cs cs' : List (List α)}

/-- Every component behind a separator. -/
def render (cs : List (List α)) : List α := cs.flatMap (sep :: ·)

@[simp] theorem render_nil : render sep [] = [] := rfl

@[simp] theorem render_cons : render sep (c :: cs) = sep :: c ++ render sep cs := rfl

@[simp] theorem render_append : render sep (cs ++ cs') = render sep cs ++ render sep cs' :=
  List.flatMap_append

variable {sep}

/-- Text behind a component is nothing, or begins with a separator. -/
theorem render_head : render sep cs = [] ∨ (render sep cs).head? = some sep := by
  cases cs with
  | nil => simp
  | cons c cs => simp

/-- A separator, and the components with separators between them. -/
theorem render_eq_intercalate (h : cs ≠ []) : render sep cs = sep :: [sep].intercalate cs := by
  induction cs with
  | nil => contradiction
  | cons c cs ih =>
      cases cs with
      | nil => simp
      | cons d ds => simp [ih (List.cons_ne_nil d ds)]

variable [DecidableEq α]

/-- Text that begins with a separator is that of its parts. -/
theorem render_splitOn (q : List α) : render sep (q.splitOn sep) = sep :: q := by
  rw [render_eq_intercalate (List.splitOn_ne_nil sep q), List.intercalate_splitOn]

/-- The parts of a text have no separator. -/
theorem notMem_of_mem_splitOn {q : List α} (hc : c ∈ q.splitOn sep) : sep ∉ c := by
  induction q generalizing c with
  | nil => simp_all
  | cons a q ih =>
      obtain ⟨b, bs, hb⟩ := List.exists_cons_of_ne_nil (List.splitOn_ne_nil sep q)
      rw [List.splitOn_cons_eq_if_modifyHead] at hc
      grind [List.modifyHead_cons]

/-- The parts of a text that was rendered. -/
theorem splitOn_render (h : ∀ c ∈ cs, sep ∉ c) : (render sep cs).splitOn sep = [] :: cs := by
  by_cases hnil : cs = []
  · simp [hnil]
  · have hsplit := List.splitOn_append_cons_self_of_not_mem (a := sep) List.not_mem_nil ([sep].intercalate cs)
    rw [List.nil_append] at hsplit
    rw [render_eq_intercalate hnil, hsplit, List.splitOn_intercalate sep h hnil]

end

/-! ## resolving -/

section

variable {γ : Type _} [DecidableEq γ] (here up : γ) {c : γ} {st cs cs' : List γ}

/-- One component more. -/
def push (st : List γ) (c : γ) : List γ :=
  if c = here then st else if c = up then st.dropLast else st ++ [c]

/-- What is left of components, read from `st` on. -/
def resolveFrom (st cs : List γ) : List γ := cs.foldl (push here up) st

/-- What is left of components. -/
def resolve (cs : List γ) : List γ := resolveFrom here up [] cs

@[simp] theorem resolveFrom_nil : resolveFrom here up st [] = st := rfl

@[simp] theorem resolveFrom_cons :
    resolveFrom here up st (c :: cs) = resolveFrom here up (push here up st c) cs := rfl

@[simp] theorem resolveFrom_append : resolveFrom here up st (cs ++ cs') =
    resolveFrom here up (resolveFrom here up st cs) cs' := List.foldl_append

variable {here up}

theorem mem_push {a : γ} (h : a ∈ push here up st c) : a ∈ st ∨ a = c ∧ c ≠ here ∧ c ≠ up := by
  unfold push at h
  have hlast : a ∈ st.dropLast → a ∈ st := (List.dropLast_subset st ·)
  grind

/-- What is left was read and is neither `here` nor `up`. -/
theorem mem_resolveFrom {a : γ} (h : a ∈ resolveFrom here up st cs) :
    a ∈ st ∨ a ∈ cs ∧ a ≠ here ∧ a ≠ up := by
  induction cs generalizing st with
  | nil => exact Or.inl h
  | cons c cs ih =>
      cases ih h with
      | inl hst => grind [mem_push hst]
      | inr hcs => exact Or.inr ⟨List.mem_cons_of_mem c hcs.1, hcs.2⟩

theorem mem_resolve {a : γ} (h : a ∈ resolve here up cs) : a ∈ cs ∧ a ≠ here ∧ a ≠ up := by
  simpa using mem_resolveFrom h

/-- Names are all left. -/
theorem resolveFrom_names (h : ∀ c ∈ cs, c ≠ here ∧ c ≠ up) : resolveFrom here up st cs = st ++ cs := by
  induction cs generalizing st with
  | nil => simp
  | cons c cs ih =>
      obtain ⟨hc, hcs⟩ := List.forall_mem_cons.1 h
      simp [ih hcs, push, hc]

/-- Nothing is left to resolve. -/
theorem resolve_resolve : resolve here up (resolve here up cs) = resolve here up cs := by
  have hnames : ∀ c ∈ resolve here up cs, c ≠ here ∧ c ≠ up := fun c hc => (mem_resolve hc).2
  exact (resolveFrom_names hnames).trans (List.nil_append _)

end

/-- The text gets no longer. -/
theorem length_render_resolveFrom {α : Type _} [DecidableEq α] {sep : α} {here up : List α}
    {st cs : List (List α)} : (render sep (resolveFrom here up st cs)).length ≤
      (render sep st).length + (render sep cs).length := by
  induction cs generalizing st with
  | nil => simp
  | cons c cs ih =>
      have hpush : (render sep (push here up st c)).length ≤
          (render sep st).length + (sep :: c).length := by
        unfold push
        split
        · omega
        · split
          · cases List.eq_nil_or_concat' st with
            | inl hnil => simp [hnil]
            | inr hlast =>
                obtain ⟨init, last, rfl⟩ := hlast
                simp
                omega
          · simp
      have hrest : (render sep (resolveFrom here up (push here up st c) cs)).length ≤
          (render sep (push here up st c)).length + (render sep cs).length := ih
      simp only [resolveFrom_cons, render_cons, List.length_append] at hrest ⊢
      omega

end Components
