import Mathlib.Data.List.Basic
import Mathlib.Tactic.Common

/-!
# Lib.Forest

Labelled graphs in which no edge leads to the root and at most one to any other
node.  The labels on the way from the root to a node are determined by the node
(`Path.unique`).
-/

namespace Forest

variable {α β : Type _} {edge : α → β → α → Prop} {nodes : α → Prop} {r a b c : α}
  {ls ls' : List β} {l : β}

/-- A path with its labels. -/
inductive Path (edge : α → β → α → Prop) (a : α) : List β → α → Prop
  | nil : Path edge a [] a
  | snoc {ls : List β} {l : β} {b c : α} : Path edge a ls b → edge b l c → Path edge a (ls ++ [l]) c

/-- One edge. -/
theorem Path.single (h : edge a l b) : Path edge a [l] b := .snoc .nil h

/-- One path after the other. -/
theorem Path.append (h : Path edge a ls b) (h' : Path edge b ls' c) : Path edge a (ls ++ ls') c := by
  induction h' with
  | nil => rwa [List.append_nil]
  | snoc _ he ih =>
      rw [← List.append_assoc]
      exact .snoc ih he

/-- The nodes, closed under the edges, with at most one edge to each and none
to the root. -/
structure IsForest (edge : α → β → α → Prop) (nodes : α → Prop) (r : α) : Prop where
  root : nodes r
  closed : ∀ {a l b}, nodes a → edge a l b → nodes b
  unique : ∀ {a a' l l' b}, nodes a → nodes a' → edge a l b → edge a' l' b → a = a' ∧ l = l'
  first : ∀ {a l}, nodes a → ¬ edge a l r

/-- Paths stay among the nodes. -/
theorem Path.mem (hf : IsForest edge nodes r) (ha : nodes a) (h : Path edge a ls b) : nodes b := by
  induction h with
  | nil => exact ha
  | snoc _ he ih => exact hf.closed ih he

/-- A node is reached from the root in one way. -/
theorem Path.unique (hf : IsForest edge nodes r) (h : Path edge r ls b)
    (h' : Path edge r ls' b) : ls = ls' := by
  induction h generalizing ls' with
  | nil =>
      cases h' with
      | nil => rfl
      | snoc hp he => exact absurd he (hf.first (hp.mem hf hf.root))
  | snoc hp he ih =>
      cases h' with
      | nil => exact absurd he (hf.first (hp.mem hf hf.root))
      | snoc hp' he' =>
          obtain ⟨rfl, rfl⟩ := hf.unique (hp.mem hf hf.root) (hp'.mem hf hf.root) he he'
          rw [ih hp']

end Forest
