import Mathlib.Data.List.Perm.Basic
import Mathlib.Data.List.Perm.Lattice
import Mathlib.Logic.Function.Basic

/-!
# Lib.Merge

Order-preserving merges of a family of lists.
-/

section

variable {ι α : Type _} [DecidableEq ι] {ys : ι → List α} {xs xs' : List α}

/-- `xs` is a merge of the lists `ys`: each element of `xs` can be given to one of
them, so that each gets its elements in order. -/
def Merges (ys : ι → List α) (xs : List α) : Prop :=
  ∃ zs : List (ι × α), zs.map Prod.snd = xs ∧ ∀ t, (zs.filter fun z => z.1 = t).map Prod.snd = ys t

theorem Merges.nil : Merges (fun _ : ι => ([] : List α)) [] := ⟨[], rfl, fun _ => rfl⟩

/-- One more element, for the list `t`. -/
theorem Merges.snoc (h : Merges ys xs) (t : ι) (c : α) :
    Merges (Function.update ys t (ys t ++ [c])) (xs ++ [c]) := by
  obtain ⟨zs, hxs, hys⟩ := h
  refine ⟨zs ++ [(t, c)], by simp [hxs], fun u => ?_⟩
  by_cases hu : u = t
  · subst hu
    simp [List.filter_append, hys]
  · have hne : ¬ t = u := fun he => hu he.symm
    simp [List.filter_append, hys, hu, hne]

/-- All merges are of one length. -/
theorem Merges.length_eq (h : Merges ys xs) (h' : Merges ys xs') : xs.length = xs'.length := by
  obtain ⟨zs, hxs, hys⟩ := h
  obtain ⟨zs', hxs', hys'⟩ := h'
  have hperm : (zs.map Prod.fst).Perm (zs'.map Prod.fst) := by
    rw [List.perm_iff_count]
    intro t
    have hlen := congrArg List.length ((hys t).trans (hys' t).symm)
    simp only [List.length_map, ← List.countP_eq_length_filter] at hlen
    simpa only [List.count, List.countP_map, Function.comp_def, beq_eq_decide] using hlen
  have hlen := hperm.length_eq
  simp only [List.length_map] at hlen
  rw [← hxs, ← hxs', List.length_map, List.length_map, hlen]

end
