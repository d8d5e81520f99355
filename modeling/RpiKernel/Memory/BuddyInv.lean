import RpiKernel.Memory.Tiling

/-!
# RpiKernel.Memory.BuddyInv

The representation invariant of the page-frame allocator.  `Rep s T` ties
the statuses, links and list heads of `s` to a tag map `T`; together with
`Tiled T` it is preserved by every elementary edit (`pushFree`,
`unlinkFree`, `clearUpper`), so the loops of `buddy_init`,
`buddy_allocate` and `buddy_free` keep it by induction on their
iterations.
-/

namespace RpiKernel

open Dyadic Dlist

variable {s : Buddy} {T : Nat → Tag} {i j k l f b : Nat} {t : Tag}

/-! ## the relation between descriptors and tags -/

/-- What a tag says about the descriptor.  Nothing is asked of a `held`
head: `buddy_free` leaves intermediate orders in its status. -/
def TagOk (d : BuddyT) : Tag → Prop
  | .reserved => d.status = reservedFrame
  | .uninit => d.status = uninitFrame
  | .belonged => d.status = belongedFrame
  | .free k => d.status = (k : Int)
  | .live k => d.status = allocatedFrame ∧ d.allocatedOrder = (k : Int)
  | .held _ => True

/-- List `k` links exactly the frames tagged `free k`. -/
def ListOk (s : Buddy) (T : Nat → Tag) (k : Nat) : Prop :=
  ∃ xs q, IsSeg (fun i => (s.frames i).next) (fun i => (s.frames i).prev) none
      (s.freeLists k) xs q none ∧
    ∀ i, i ∈ xs ↔ i < totalFrame ∧ T i = .free k

/-- The concrete allocator represents the tag map. -/
structure Rep (s : Buddy) (T : Nat → Tag) : Prop where
  index : ∀ i < totalFrame, (s.frames i).index = i
  tag : ∀ i < totalFrame, TagOk (s.frames i) (T i)
  lists : ∀ k ≤ maxOrder, ListOk s T k

/-- A status read from a frame that is not held decides its tag. -/
theorem Rep.status_eq_iff (h : Rep s T) (hi : i < totalFrame) (hh : ∀ k, T i ≠ .held k) :
    (s.frames i).status = (k : Int) ↔ T i = .free k := by
  have hok := h.tag i hi
  cases ht : T i with
  | free l => simp only [ht, TagOk] at hok; simp [hok]
  | held l => exact absurd ht (hh l)
  | reserved | uninit | belonged =>
      simp only [ht, TagOk, reservedFrame, uninitFrame, belongedFrame] at hok
      simp only [reduceCtorEq, iff_false]
      omega
  | live l =>
      simp only [ht, TagOk, allocatedFrame] at hok
      simp only [reduceCtorEq, iff_false]
      omega

theorem Rep.allocated_iff (h : Rep s T) (hi : i < totalFrame) (hh : ∀ k, T i ≠ .held k) :
    (s.frames i).status = allocatedFrame ↔ ∃ k, T i = .live k := by
  have hok := h.tag i hi
  cases ht : T i with
  | live l => simp only [ht, TagOk] at hok; simp [hok]
  | held l => exact absurd ht (hh l)
  | reserved | uninit | belonged =>
      simp [ht, TagOk, reservedFrame, uninitFrame, belongedFrame] at hok
      simp [hok, allocatedFrame]
  | free l =>
      simp only [ht, TagOk] at hok
      simp only [reduceCtorEq, exists_false, hok, allocatedFrame]

/-- The head of a list is a free block of its order. -/
theorem Rep.head_free (h : Rep s T) (hk : k ≤ maxOrder) (hb : s.freeLists k = some b) :
    b < totalFrame ∧ T b = .free k := by
  obtain ⟨xs, q, hs, hmem⟩ := h.lists k hk
  rw [hb] at hs
  exact (hmem b).mp hs.mem_head

/-- A list is empty exactly when no block of its order is free. -/
theorem Rep.list_none_iff (h : Rep s T) (hk : k ≤ maxOrder) :
    s.freeLists k = none ↔ ∀ i < totalFrame, T i ≠ .free k := by
  obtain ⟨xs, q, hs, hmem⟩ := h.lists k hk
  rw [← hs.eq_nil_iff, List.eq_nil_iff_forall_not_mem]
  simp only [hmem, not_and]

/-! ## elementary edits -/

/-- Changing what is held, or the descriptor of a frame that is on no
list, is invisible to the lists. -/
theorem Rep.modify (h : Rep s T) {g : BuddyT → BuddyT} (hT : ∀ k, T i ≠ .free k)
    (ht : ∀ k, t ≠ .free k) (hidx : (g (s.frames i)).index = (s.frames i).index)
    (hok : TagOk (g (s.frames i)) t) : Rep (s.modify i g) (Function.update T i t) := by
  constructor
  · intro j hj
    by_cases hji : j = i
    · subst hji; simp [hidx, h.index j hj]
    · simp [hji, h.index j hj]
  · intro j hj
    by_cases hji : j = i
    · subst hji; simpa using hok
    · simpa [hji] using h.tag j hj
  · intro k hk
    obtain ⟨xs, q, hs, hmem⟩ := h.lists k hk
    have hne : ∀ y ∈ xs, y ≠ i := fun y hy he => hT k (he ▸ ((hmem y).mp hy).2)
    refine ⟨xs, q, ?_, fun j => ?_⟩
    · refine hs.congr (fun y hy => ?_) (fun y hy => ?_) <;> simp [hne y hy]
    · by_cases hji : j = i
      · subst hji; simp [hmem, hT k, ht k]
      · simp [hmem, hji]

/-- A held head may be given any order: nothing was said about it. -/
theorem Rep.retag_held (h : Rep s T) (hT : T i = .held k) :
    Rep s (Function.update T i (.held l)) := by
  constructor
  · exact h.index
  · intro j hj
    by_cases hji : j = i
    · subst hji; simp [TagOk]
    · simpa [hji] using h.tag j hj
  · intro m hm
    obtain ⟨xs, q, hs, hmem⟩ := h.lists m hm
    refine ⟨xs, q, hs, fun j => ?_⟩
    by_cases hji : j = i
    · subst hji; simp [hmem, hT]
    · simp [hmem, hji]

@[simp] theorem freeLists_pushFree (i k l : Nat) (s : Buddy) :
    (pushFree i k s).freeLists l = if l = k then some i else s.freeLists l := by
  simp [pushFree]

theorem frames_pushFree (i k j : Nat) (s : Buddy) (hne : s.freeLists k ≠ some i) :
    (pushFree i k s).frames j =
      if j = i then { s.frames i with status := k, next := s.freeLists k, prev := none }
      else if s.freeLists k = some j then { s.frames j with prev := some i }
      else s.frames j := by
  by_cases hj : j = i
  · subst hj; simp [pushFree, hne]
  · simp [pushFree, hj]

/-- Putting a block on a list. -/
theorem Rep.pushFree (h : Rep s T) (hi : i < totalFrame) (hk : k ≤ maxOrder)
    (hT : ∀ k, T i ≠ .free k) : Rep (pushFree i k s) (Function.update T i (.free k)) := by
  have hne : s.freeLists k ≠ some i := fun he => hT k (h.head_free hk he).2
  have hfr := fun j => frames_pushFree i k j s hne
  constructor
  · intro j hj
    rw [hfr]
    by_cases hji : j = i
    · subst hji; simp [h.index j hj]
    · by_cases hjh : s.freeLists k = some j <;> simp [hji, hjh, h.index j hj]
  · intro j hj
    rw [hfr]
    by_cases hji : j = i
    · subst hji; simp [TagOk]
    · have hok := h.tag j hj
      by_cases hjh : s.freeLists k = some j
      · rw [(h.head_free hk hjh).2] at hok
        simp [hji, hjh, (h.head_free hk hjh).2, TagOk] at hok ⊢
        exact hok
      · simpa [hji, hjh] using hok
  · intro l hl
    obtain ⟨xs, q, hs, hmem⟩ := h.lists l hl
    have hxi : ∀ y ∈ xs, y ≠ i := fun y hy he => hT l (he ▸ ((hmem y).mp hy).2)
    by_cases hlk : l = k
    · subst hlk
      have hs' := hs.pushFront (x := i)
        (fun j => ((RpiKernel.pushFree i l s).frames j).next)
        (fun j => ((RpiKernel.pushFree i l s).frames j).prev)
        (fun hx => hxi i hx rfl) (by simp [hfr]) (by simp [hfr])
        (fun y hy => by by_cases hyh : s.freeLists l = some y <;> simp [hfr, hxi y hy, hyh])
        (fun y hy => by by_cases hyh : s.freeLists l = some y <;> simp [hfr, hxi y hy, hyh])
      refine ⟨i :: xs, _, by simpa using hs', fun j => ?_⟩
      by_cases hji : j = i
      · subst hji; simp [hi]
      · simp [hmem, hji]
    · -- the head of list `k` is not on list `l`
      have hxh : ∀ y ∈ xs, s.freeLists k ≠ some y := fun y hy he => by
        have h1 := (h.head_free hk he).2
        rw [((hmem y).mp hy).2] at h1
        exact hlk (Tag.free.inj h1)
      refine ⟨xs, q, ?_, fun j => ?_⟩
      · rw [freeLists_pushFree, if_neg hlk]
        refine hs.congr (fun y hy => ?_) (fun y hy => ?_) <;> simp [hfr, hxi y hy, hxh y hy]
      · by_cases hji : j = i
        · subst hji; simp [hmem, hT l, Ne.symm hlk]
        · simp [hmem, hji]

/-- `unlinkFree` rewires the two neighbours, and the list head if it was
the first; a listed block that is not the first has a predecessor. -/
theorem Rep.frames_unlinkFree (h : Rep s T) (hk : k ≤ maxOrder) (hb : b < totalFrame)
    (hT : T b = .free k) (j : Nat) :
    (unlinkFree b k s).frames j =
      let d := if (s.frames b).prev = some j then
          { s.frames j with next := (s.frames b).next } else s.frames j
      if (s.frames b).next = some j then { d with prev := (s.frames b).prev } else d := by
  obtain ⟨xs, q, hs, hmem⟩ := h.lists k hk
  unfold unlinkFree
  by_cases hhd : s.freeLists k = some b
  · rw [hhd] at hs
    have hpb : (s.frames b).prev = none := hs.prev_head
    simp [hhd, hpb]
  · have hpb : (s.frames b).prev.isSome := hs.prev_isSome ((hmem b).mpr ⟨hb, hT⟩) hhd
    simp [hhd, hpb]

theorem freeLists_unlinkFree (b k l : Nat) (s : Buddy) :
    (unlinkFree b k s).freeLists l =
      if l = k ∧ s.freeLists k = some b then (s.frames b).next else s.freeLists l := by
  unfold unlinkFree
  by_cases hhd : s.freeLists k = some b
  · simp [hhd]
  · by_cases hp : (s.frames b).prev.isSome <;> simp [hhd, hp]

/-- Taking a block off its list. -/
theorem Rep.unlinkFree (h : Rep s T) (hb : b < totalFrame) (hk : k ≤ maxOrder)
    (hT : T b = .free k) : Rep (unlinkFree b k s) (Function.update T b (.held k)) := by
  have hfr := h.frames_unlinkFree hk hb hT
  obtain ⟨xs, q, hs, hmem⟩ := h.lists k hk
  have hbx : b ∈ xs := (hmem b).mpr ⟨hb, hT⟩
  have hstat : ∀ j, ((RpiKernel.unlinkFree b k s).frames j).index = (s.frames j).index ∧
      ((RpiKernel.unlinkFree b k s).frames j).status = (s.frames j).status ∧
      ((RpiKernel.unlinkFree b k s).frames j).allocatedOrder = (s.frames j).allocatedOrder :=
    fun j => by rw [hfr]; dsimp only; split_ifs <;> simp
  constructor
  · intro j hj
    rw [(hstat j).1, h.index j hj]
  · intro j hj
    by_cases hjb : j = b
    · subst hjb; simp [TagOk]
    · have hok := h.tag j hj
      rw [Function.update_of_ne hjb]
      cases ht : T j <;> simp only [ht, TagOk, (hstat j).2.1, (hstat j).2.2] at hok ⊢ <;> exact hok
  · intro l hl
    by_cases hlk : l = k
    · subst hlk
      have hs' := hs.erase (fun j => ((RpiKernel.unlinkFree b l s).frames j).next)
        (fun j => ((RpiKernel.unlinkFree b l s).frames j).prev) hbx
        (fun y _ _ => by
          rw [hfr]
          by_cases h1 : (s.frames b).prev = some y <;>
            by_cases h2 : (s.frames b).next = some y <;> simp [h1, h2])
        (fun y _ _ => by
          rw [hfr]
          by_cases h1 : (s.frames b).prev = some y <;>
            by_cases h2 : (s.frames b).next = some y <;> simp [h1, h2])
      refine ⟨xs.erase b, if q = some b then (s.frames b).prev else q, ?_, fun j => ?_⟩
      · rw [freeLists_unlinkFree]
        simpa using hs'
      · rw [hs.nodup.mem_erase_iff, hmem]
        by_cases hjb : j = b
        · subst hjb; simp
        · simp [hjb]
    · obtain ⟨zs, r, hz, hzmem⟩ := h.lists l hl
      -- the neighbours of `b` are on list `k`, so not on list `l`
      have hlist : ∀ y ∈ zs, y ∉ xs := fun y hy hyx => by
        have h1 := ((hmem y).mp hyx).2
        rw [((hzmem y).mp hy).2] at h1
        exact hlk (Tag.free.inj h1)
      have hp : ∀ y ∈ zs, (s.frames b).prev ≠ some y := fun y hy he =>
        hlist y hy (hs.mem_prev hbx he)
      have hn : ∀ y ∈ zs, (s.frames b).next ≠ some y := fun y hy he =>
        hlist y hy (hs.mem_next hbx he)
      refine ⟨zs, r, ?_, fun j => ?_⟩
      · rw [freeLists_unlinkFree, if_neg (fun he => hlk he.1)]
        refine hz.congr (fun y hy => ?_) (fun y hy => ?_) <;> simp [hfr, hp y hy, hn y hy]
      · by_cases hjb : j = b
        · subst hjb; simp [hzmem, hT, Ne.symm hlk]
        · simp [hzmem, hjb]

/-- Absorbing the upper half of a merged block. -/
theorem Rep.clearUpper (h : Rep s T) (hT : T i = .held k) :
    Rep (clearUpper i s) (Function.update T i .belonged) := by
  refine h.modify (by simp [hT]) (by simp) rfl ?_
  simp [TagOk]

end RpiKernel
