import Mathlib.Data.List.Perm.Basic
import Mathlib.Order.Bounds.Basic
import Mathlib.Order.CompletePartialOrder
import Mathlib.Order.Interval.Set.Disjoint

/-!
# Lib.FirstFit

The first position at or above a start with no obstacle in its way.

`search` looks for it in a list of obstacles: while one is in the way, it goes on
behind the first of them.  The obstacles stand in any order, so that it may go
around the list many times; but it never goes back, and it passes every obstacle
at most once (`search_returns`).  What it finds is the least free position
(`search_isLeast`), and so does not depend on the order (`search_perm`).
-/

namespace FirstFit

/-- Obstacles to positions.  One that is in the way of `x` is in the way of
everything from there to its end. -/
structure Obstacles (ι α : Type*) [LinearOrder α] where
  blocks : ι → α → Prop
  stop : ι → α
  lt_stop : ∀ {o x}, blocks o x → x < stop o
  until_stop : ∀ {o x y}, blocks o x → x ≤ y → y < stop o → blocks o y

variable {ι α : Type*} [LinearOrder α] {ob : Obstacles ι α} {os os' : List ι} {o : ι} {x y r : α}
  {n m : Nat}

/-- No obstacle is in the way. -/
def Obstacles.Free (ob : Obstacles ι α) (os : List ι) (x : α) : Prop := ∀ o ∈ os, ¬ ob.blocks o x

/-- The free positions from `x` on. -/
def Obstacles.freeFrom (ob : Obstacles ι α) (os : List ι) (x : α) : Set α :=
  {y | x ≤ y ∧ ob.Free os y}

theorem freeFrom_perm (h : os.Perm os') : ob.freeFrom os x = ob.freeFrom os' x := by
  ext y
  simp [Obstacles.freeFrom, Obstacles.Free, h.mem_iff]

/-- Nothing is free before the end of an obstacle that is in the way. -/
theorem freeFrom_stop (ho : o ∈ os) (hb : ob.blocks o x) :
    ob.freeFrom os (ob.stop o) = ob.freeFrom os x := by
  ext y
  constructor
  · exact fun ⟨hy, hfree⟩ => ⟨(ob.lt_stop hb).le.trans hy, hfree⟩
  · intro ⟨hy, hfree⟩
    have hstop : ob.stop o ≤ y := not_lt.1 fun hlt => hfree o ho (ob.until_stop hb hy hlt)
    exact ⟨hstop, hfree⟩

/-- The obstacles that end above `x`. -/
def ahead (ob : Obstacles ι α) (os : List ι) (x : α) : Nat := os.countP fun o => x < ob.stop o

theorem ahead_le_length : ahead ob os x ≤ os.length := List.countP_le_length

/-- The one in the way is passed for good. -/
theorem ahead_stop (ho : o ∈ os) (hx : x < ob.stop o) : ahead ob os (ob.stop o) < ahead ob os x := by
  obtain ⟨ys, zs, rfl⟩ := List.append_of_mem ho
  have hmono (ws : List ι) : ahead ob ws (ob.stop o) ≤ ahead ob ws x :=
    List.countP_mono_left fun p _ hp => by
      simp only [decide_eq_true_eq] at hp ⊢
      exact hx.trans hp
  have hys := hmono ys
  have hzs := hmono zs
  simp only [ahead] at hys hzs
  simp only [ahead, List.countP_append, List.countP_cons, decide_eq_true_eq, lt_irrefl, if_false,
    if_pos hx]
  omega

variable [∀ o x, Decidable (ob.blocks o x)]

/-- The search for a free position, of at most `n` steps. -/
def search (ob : Obstacles ι α) [∀ o x, Decidable (ob.blocks o x)] (os : List ι) :
    Nat → α → Option α
  | 0, _ => none
  | n + 1, x =>
      match os.find? fun o => ob.blocks o x with
      | some o => search ob os n (ob.stop o)
      | none => some x

/-- A step of the search. -/
theorem search_step (h : (os.find? fun o => ob.blocks o x) = some o) :
    search ob os (n + 1) x = search ob os n (ob.stop o) := by
  rw [search, h]

/-- Its end. -/
theorem search_here (h : (os.find? fun o => ob.blocks o x) = none) :
    search ob os (n + 1) x = some x := by
  rw [search, h]

theorem blocks_of_find? (h : (os.find? fun o => ob.blocks o x) = some o) :
    o ∈ os ∧ ob.blocks o x :=
  ⟨List.mem_of_find?_eq_some h, by simpa using List.find?_some h⟩

theorem free_of_find? (h : (os.find? fun o => ob.blocks o x) = none) : ob.Free os x :=
  fun o ho => by simpa using List.find?_eq_none.1 h o ho

/-- What the search finds is the least free position. -/
theorem search_isLeast (h : search ob os n x = some r) : IsLeast (ob.freeFrom os x) r := by
  induction n generalizing x with
  | zero => simp [search] at h
  | succ n ih =>
      cases hf : os.find? fun o => ob.blocks o x with
      | some o =>
          obtain ⟨ho, hb⟩ := blocks_of_find? hf
          rw [search_step hf] at h
          rw [← freeFrom_stop ho hb]
          exact ih h
      | none =>
          rw [search_here hf, Option.some.injEq] at h
          subst h
          exact ⟨⟨le_refl x, free_of_find? hf⟩, fun y hy => hy.1⟩

/-- It is the start or the end of an obstacle. -/
theorem search_ind {P : α → Prop} (h : search ob os n x = some r) (hx : P x)
    (hstop : ∀ o ∈ os, P (ob.stop o)) : P r := by
  induction n generalizing x with
  | zero => simp [search] at h
  | succ n ih =>
      cases hf : os.find? fun o => ob.blocks o x with
      | some o =>
          rw [search_step hf] at h
          exact ih h (hstop o (blocks_of_find? hf).1)
      | none =>
          rw [search_here hf, Option.some.injEq] at h
          exact h ▸ hx

theorem search_le (h : search ob os n x = some r) : x ≤ r := (search_isLeast h).1.1

/-! ## the search ends -/

theorem search_of_ahead (h : ahead ob os x < n) : ∃ r, search ob os n x = some r := by
  induction n generalizing x with
  | zero => omega
  | succ n ih =>
      cases hf : os.find? fun o => ob.blocks o x with
      | some o =>
          obtain ⟨ho, hb⟩ := blocks_of_find? hf
          have hlt := ahead_stop ho (ob.lt_stop hb)
          rw [search_step hf]
          exact ih (by omega)
      | none => exact ⟨x, search_here hf⟩

/-- It ends after at most one step for each obstacle. -/
theorem search_returns (x : α) (h : os.length < n) : ∃ r, search ob os n x = some r :=
  search_of_ahead (Nat.lt_of_le_of_lt ahead_le_length h)

/-- The order of the obstacles does not matter. -/
theorem search_perm (hp : os.Perm os') (h : search ob os n x = some r) (hm : os'.length < m) :
    search ob os' m x = some r := by
  obtain ⟨r', hr'⟩ : ∃ r', search ob os' m x = some r' := search_returns x hm
  have hleast := search_isLeast h
  rw [freeFrom_perm hp] at hleast
  rw [hr', (search_isLeast hr').unique hleast]

/-! ## ranges -/

/-- The ranges `[start o, stop o)` are in the way of `len` cells from `x` on when
they share a cell. -/
def ranges (start stop : ι → Nat) (len : Nat) : Obstacles ι Nat where
  blocks o x := start o < x + len ∧ x < stop o
  stop := stop
  lt_stop h := h.2
  until_stop := fun ⟨hlo, _⟩ hxy hy => ⟨by omega, hy⟩

instance (start stop : ι → Nat) (len : Nat) (o : ι) (x : Nat) :
    Decidable ((ranges start stop len).blocks o x) := inferInstanceAs (Decidable (_ ∧ _))

/-- A range that is not empty is out of the way when the cells are others. -/
theorem ranges_blocks_iff {start stop : ι → Nat} {len x : Nat} (hlen : 0 < len)
    (ho : start o < stop o) :
    ¬ (ranges start stop len).blocks o x ↔
      Disjoint (Set.Ico x (x + len)) (Set.Ico (start o) (stop o)) := by
  simp only [ranges, Set.Ico_disjoint_Ico]
  omega

end FirstFit
