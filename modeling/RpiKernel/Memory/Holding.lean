import RpiKernel.Lib.Custody
import RpiKernel.Memory.Kmalloc

/-!
# RpiKernel.Memory.Holding

`kmalloc` and `kfree` seen by the code that calls them: a caller holds a list
of blocks (`Custody.Holds`), `kmalloc` answers `NULL` or adds a block to it,
and `kfree` of a block takes it away.
-/

namespace RpiKernel

open Custody

variable {a a' : Alloc} {T : Nat → Tag} {base : Nat → Nat → Prop} {L L' : Blocks} {p n m : Nat}

/-- The allocator is in order. -/
def Alloc.Settled (a : Alloc) : Prop := ∃ T, a.Ok T

/-- The caller holds `L`; the blocks of `base` are somebody else's. -/
structure Alloc.Holds (a : Alloc) (base : Nat → Nat → Prop) (L : Blocks) : Prop where
  settled : a.Settled
  holds : Custody.Holds base a.Region L

/-- `kmalloc` returns; the block has at least the bytes that the caller
relies on, unless `NULL` is returned and nothing changed. -/
theorem Alloc.Holds.kmalloc (h : a.Holds base L) (size : Nat) :
    ∃ p a', kmalloc size a = some (p, a') ∧
      ((p = 0 ∧ a' = a) ∨
        (p ≠ 0 ∧ a.Adds a' p (granted size) ∧
          ∀ m, m ≤ granted size → a'.Holds base ((p, m) :: L))) := by
  obtain ⟨T, hT⟩ := h.settled
  obtain ⟨p, a', hres, hout⟩ := hT.kmalloc size
  refine ⟨p, a', hres, ?_⟩
  cases hout with
  | inl hnull => exact Or.inl hnull
  | inr hsome =>
      obtain ⟨hp, hadds, T', hT', -⟩ := hsome
      exact Or.inr ⟨hp, hadds, fun m hm =>
        ⟨⟨T', hT'⟩, h.holds.alloc hadds.fresh hadds.region hm⟩⟩

/-- `kfree` of a block the caller has. -/
theorem Alloc.Holds.kfree (h : a.Holds base ((p, m) :: L)) :
    ∃ a', kfree p a = some a' ∧ a'.Holds base L := by
  obtain ⟨T, hT⟩ := h.settled
  obtain ⟨n, hr, -⟩ := h.holds.backed _ List.mem_cons_self
  obtain ⟨a', hres, hrem, T', hT', -⟩ := hT.kfree hr
  exact ⟨a', hres, ⟨T', hT'⟩, h.holds.free hrem⟩

/-- `kfree(NULL)` does nothing. -/
theorem kfree_null (a : Alloc) : kfree 0 a = some a := if_pos rfl

theorem Alloc.Holds.perm (h : a.Holds base L) (hp : L.Perm L') : a.Holds base L' :=
  ⟨h.settled, h.holds.perm hp⟩

/-! ## where blocks lie -/

/-- A block lies in the managed memory. -/
theorem Alloc.Settled.managed (h : a.Settled) (hr : a.Region p n) :
    0 < n ∧ buddyMemoryBase ≤ p ∧ p + n ≤ buddyMemoryBase + memorySize := by
  obtain ⟨T, hT⟩ := h
  obtain ⟨h0, hlo, hhi, -⟩ := hT.region_managed hr
  exact ⟨h0, hlo, hhi⟩

/-- Two blocks at different addresses do not overlap. -/
theorem Alloc.Settled.disjoint (h : a.Settled) (hp : a.Region p n) (hq : a.Region q m)
    (hpq : p ≠ q) : p + n ≤ q ∨ q + m ≤ p := by
  obtain ⟨T, hT⟩ := h
  exact hT.region_disjoint hp hq hpq

/-- A block of a page or more starts a page. -/
theorem Alloc.Settled.page_aligned (h : a.Settled) (hr : a.Region p n) (hn : frameSize ≤ n) :
    p % frameSize = 0 := by
  obtain ⟨T, hT⟩ := h
  obtain ⟨e, he, rfl, rfl⟩ := hT.region_iff.mp hr
  cases e with
  | block b k =>
      unfold Entry.offset buddyMemoryBase frameSize
      dsimp only
      omega
  | slot b c i =>
      have hc : c < 9 := (hT.class_of_page he.1 he.2.1 he.2.2.1).class_lt
      have hlt : ∀ c < 9, slabSize c < frameSize := by decide
      have := hlt c hc
      simp only [Entry.size] at hn
      omega

end RpiKernel
