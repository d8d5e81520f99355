import Mathlib.Data.List.Perm.Basic
import Mathlib.Data.List.Nodup

/-!
# Lib.Custody

Who holds which live blocks of an allocator.  `live p n` says that `n` bytes
are live at the address `p`; a holder has a list of addresses, each with the
number of bytes it relies on.

`Holds base live L` is the view of one holder: the live blocks are those of
`L`, which it has, and those of `base`, which belong to others.  Allocating
adds a block to `L`, freeing takes one away, and `base` stays live.  `Shares`
is the view of all holders at once; `Shares.take` and `Shares.give` lead from
one view to the other and back.
-/

namespace Custody

/-- Addresses, with the number of bytes the holder relies on. -/
abbrev Blocks := List (Nat × Nat)

/-- The addresses of a list of blocks. -/
def addrs (L : Blocks) : List Nat := L.map Prod.fst

section

variable (p n : Nat) (L L' : Blocks)

@[simp] theorem addrs_nil : addrs [] = [] := rfl

@[simp] theorem addrs_cons : addrs ((p, n) :: L) = p :: addrs L := rfl

@[simp] theorem addrs_append : addrs (L ++ L') = addrs L ++ addrs L' := List.map_append

theorem mem_addrs {p : Nat} {L : Blocks} : p ∈ addrs L ↔ ∃ n, (p, n) ∈ L := by
  simp [addrs]

end

/-! ## one holder -/

/-- The blocks of `L` are live at different addresses, none of them at an
address of `base`; every block of `base` is live, and nothing else is. -/
structure Holds (base live : Nat → Nat → Prop) (L : Blocks) : Prop where
  keep : ∀ q n, base q n → live q n
  nodup : (addrs L).Nodup
  backed : ∀ e ∈ L, ∃ n, live e.1 n ∧ e.2 ≤ n
  apart : ∀ e ∈ L, ∀ n, ¬ base e.1 n
  total : ∀ q n, live q n → base q n ∨ q ∈ addrs L

/-- The live blocks a holder of `L` does not have. -/
def outside (live : Nat → Nat → Prop) (L : Blocks) (q n : Nat) : Prop := live q n ∧ q ∉ addrs L

section

variable {base live live' : Nat → Nat → Prop} {L L' : Blocks} {p m n : Nat}

/-- A fresh block goes to the holder that asked for it. -/
theorem Holds.alloc (h : Holds base live L) (hfresh : ∀ m, ¬ live p m)
    (hlive : ∀ q m, live' q m ↔ live q m ∨ (q = p ∧ m = n)) (hm : m ≤ n) :
    Holds base live' ((p, m) :: L) := by
  constructor
  · exact fun q k hq => (hlive q k).mpr (Or.inl (h.keep q k hq))
  · rw [addrs_cons, List.nodup_cons]
    refine ⟨fun hp => ?_, h.nodup⟩
    obtain ⟨k, hk⟩ := mem_addrs.mp hp
    obtain ⟨j, hj, -⟩ := h.backed _ hk
    exact hfresh j hj
  · intro e he
    cases List.mem_cons.mp he with
    | inl heq =>
        subst heq
        exact ⟨n, (hlive p n).mpr (Or.inr ⟨rfl, rfl⟩), hm⟩
    | inr hold =>
        obtain ⟨k, hk, hle⟩ := h.backed e hold
        exact ⟨k, (hlive _ _).mpr (Or.inl hk), hle⟩
  · intro e he k hb
    cases List.mem_cons.mp he with
    | inl heq =>
        subst heq
        exact hfresh k (h.keep _ _ hb)
    | inr hold => exact h.apart e hold k hb
  · intro q k hq
    rw [addrs_cons, List.mem_cons]
    cases (hlive q k).mp hq with
    | inl hold => exact (h.total q k hold).imp_right Or.inr
    | inr hnew => exact Or.inr (Or.inl hnew.1)

/-- Blocks that are live at different addresses can be held. -/
theorem Holds.of_live (hnd : (addrs L).Nodup) (hlive : ∀ e ∈ L, ∃ n, live e.1 n ∧ e.2 ≤ n) :
    Holds (outside live L) live L := by
  refine ⟨fun _ _ hb => hb.1, hnd, hlive, fun e he _ hb => hb.2 (mem_addrs.mpr ⟨e.2, he⟩), ?_⟩
  intro q n hq
  by_cases hm : q ∈ addrs L
  · exact Or.inr hm
  · exact Or.inl ⟨hq, hm⟩

/-- Where blocks are live. -/
theorem Holds.live_iff (h : Holds base live L) :
    (∃ n, live p n) ↔ (∃ n, base p n) ∨ p ∈ addrs L := by
  constructor
  · rintro ⟨n, hn⟩
    exact (h.total p n hn).imp_left fun hb => ⟨n, hb⟩
  · rintro (⟨n, hb⟩ | hp)
    · exact ⟨n, h.keep p n hb⟩
    · obtain ⟨m, hm⟩ := mem_addrs.mp hp
      obtain ⟨n, hn, -⟩ := h.backed _ hm
      exact ⟨n, hn⟩

/-- What the holder has is not a block of the others. -/
theorem Holds.not_base (h : Holds base live L) (hp : p ∈ addrs L) : ¬ ∃ n, base p n := by
  rintro ⟨n, hn⟩
  obtain ⟨m, hm⟩ := mem_addrs.mp hp
  exact h.apart _ hm n hn

/-- Freeing a block the holder has. -/
theorem Holds.free (h : Holds base live ((p, m) :: L))
    (hlive : ∀ q m, live' q m ↔ live q m ∧ q ≠ p) : Holds base live' L := by
  have hp := List.nodup_cons.mp h.nodup
  have hmem : ∀ e ∈ L, e ∈ (p, m) :: L := fun e he => List.mem_cons_of_mem _ he
  constructor
  · intro q k hq
    refine (hlive q k).mpr ⟨h.keep q k hq, fun heq => ?_⟩
    subst heq
    exact h.apart _ List.mem_cons_self k hq
  · exact hp.2
  · intro e he
    obtain ⟨k, hk, hle⟩ := h.backed e (hmem e he)
    refine ⟨k, (hlive _ _).mpr ⟨hk, fun heq => hp.1 ?_⟩, hle⟩
    exact mem_addrs.mpr ⟨e.2, heq ▸ he⟩
  · exact fun e he => h.apart e (hmem e he)
  · intro q k hq
    obtain ⟨hq, hne⟩ := (hlive q k).mp hq
    have hex := h.total q k hq
    rw [addrs_cons, List.mem_cons] at hex
    tauto

/-- The order of the list does not matter. -/
theorem Holds.perm (h : Holds base live L) (hp : L.Perm L') : Holds base live L' := by
  have hmem : ∀ e, e ∈ L' → e ∈ L := fun e he => hp.mem_iff.mpr he
  have haddrs : (addrs L).Perm (addrs L') := hp.map Prod.fst
  exact ⟨h.keep, haddrs.nodup_iff.mp h.nodup, fun e he => h.backed e (hmem e he),
    fun e he => h.apart e (hmem e he), fun q n hq => by rw [← haddrs.mem_iff]; exact h.total q n hq⟩

/-- A holder that keeps `K` gives up the blocks `O` and gets `N`: the live
blocks afterwards are those before, without `O`, and `N`. -/
theorem Holds.replace {O K N : Blocks} (h : Holds base live (O ++ K))
    (h' : Holds base live' (N ++ K)) :
    (∃ n, live' p n) ↔ ((∃ n, live p n) ∧ p ∉ addrs O) ∨ p ∈ addrs N := by
  have hnd := h.nodup
  rw [addrs_append, List.nodup_append] at hnd
  have hO : p ∈ addrs O → ¬ ∃ n, base p n := fun hp => h.not_base (by
    rw [addrs_append]
    exact List.mem_append_left _ hp)
  rw [h.live_iff, h'.live_iff, addrs_append, addrs_append, List.mem_append, List.mem_append]
  constructor
  · rintro (hb | hN | hK)
    · exact Or.inl ⟨Or.inl hb, fun hp => hO hp hb⟩
    · exact Or.inr hN
    · exact Or.inl ⟨Or.inr (Or.inr hK), fun hp => hnd.2.2 p hp p hK rfl⟩
  · rintro (⟨hb | hp | hK, hout⟩ | hN)
    · exact Or.inl hb
    · exact absurd hp hout
    · exact Or.inr (Or.inr hK)
    · exact Or.inr (Or.inl hN)

/-- What it gets is not among the blocks it left alone. -/
theorem Holds.replace_new {O K N : Blocks} (h : Holds base live (O ++ K))
    (h' : Holds base live' (N ++ K)) (hp : p ∈ addrs N) :
    ¬ ((∃ n, live p n) ∧ p ∉ addrs O) := by
  rintro ⟨hlive, hout⟩
  have hnd := h'.nodup
  rw [addrs_append, List.nodup_append] at hnd
  have hb : ¬ ∃ n, base p n := h'.not_base (by
    rw [addrs_append]
    exact List.mem_append_left _ hp)
  rw [h.live_iff, addrs_append, List.mem_append] at hlive
  rcases hlive with hbase | hO | hK
  · exact hb hbase
  · exact hout hO
  · exact hnd.2.2 p hp p hK rfl

end

/-! ## all holders -/

/-- No two holders have a block at the same address. -/
structure Shares {ι : Type _} (live : Nat → Nat → Prop) (held : ι → Blocks) : Prop where
  nodup : ∀ i, (addrs (held i)).Nodup
  apart : ∀ i j, i ≠ j → ∀ e ∈ held i, ∀ e' ∈ held j, e.1 ≠ e'.1
  backed : ∀ i, ∀ e ∈ held i, ∃ n, live e.1 n ∧ e.2 ≤ n

section

variable {ι : Type _} {live live' : Nat → Nat → Prop} {held held' : ι → Blocks} {L : Blocks}
  {i : ι}

/-- The view of one of the holders. -/
theorem Shares.take (h : Shares live held) (i : ι) :
    Holds (outside live (held i)) live (held i) :=
  .of_live (h.nodup i) (h.backed i)

/-- What another holder has is outside. -/
theorem Shares.outside (h : Shares live held) {j : ι} (hj : j ≠ i) {e : Nat × Nat}
    (he : e ∈ held j) : ∃ n, Custody.outside live (held i) e.1 n ∧ e.2 ≤ n := by
  obtain ⟨n, hn, hle⟩ := h.backed j e he
  refine ⟨n, ⟨hn, fun hm => ?_⟩, hle⟩
  obtain ⟨k, hk⟩ := mem_addrs.mp hm
  exact h.apart j i hj e he _ hk rfl

/-- One holder has changed its blocks, the others have not; blocks it lost
track of are nobody's from now on. -/
theorem Shares.give {lost : Blocks} (h : Shares live held)
    (hL : Holds (Custody.outside live (held i)) live' L) (hi : L.Perm (held' i ++ lost))
    (hj : ∀ j, j ≠ i → held' j = held j) : Shares live' held' := by
  have hown := hL.perm hi
  have hmem : ∀ e ∈ held' i, e ∈ held' i ++ lost := fun e he => List.mem_append_left _ he
  have hcross : ∀ j, j ≠ i → ∀ e ∈ held' i, ∀ e' ∈ held' j, e.1 ≠ e'.1 := by
    intro j hji e he e' he' heq
    rw [hj j hji] at he'
    obtain ⟨n, hn, -⟩ := h.outside hji he'
    exact hown.apart e (hmem e he) n (heq ▸ hn)
  constructor
  · intro j
    by_cases hji : j = i
    · have hnd := hown.nodup
      rw [addrs_append] at hnd
      exact hji ▸ (List.nodup_append.mp hnd).1
    · rw [hj j hji]
      exact h.nodup j
  · intro j k hjk e he e' he'
    by_cases hji : j = i
    · subst hji
      exact hcross k (Ne.symm hjk) e he e' he'
    · by_cases hki : k = i
      · subst hki
        exact Ne.symm (hcross j hji e' he' e he)
      · rw [hj j hji] at he
        rw [hj k hki] at he'
        exact h.apart j k hjk e he e' he'
  · intro j e he
    by_cases hji : j = i
    · subst hji
      exact hown.backed e (hmem e he)
    · rw [hj j hji] at he
      obtain ⟨n, hn, hle⟩ := h.outside hji he
      exact ⟨n, hown.keep _ _ hn, hle⟩

end

end Custody
