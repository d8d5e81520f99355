import Mathlib.Data.List.Pairwise
import Mathlib.Data.Nat.Bitwise
import RpiKernel.Mmu.PageTable

/-!
# RpiKernel.Mmu.TableTree

The tree of page tables, and what `map_one_page` does to it: the walk for the
mapped page ends at the new descriptor, the walk for every other page is as
before, and the tables made on the way are fresh pages.
-/

namespace RpiKernel

open Custody

variable {w w' : Nat → Nat} {t t' p c va va' d i j : Nat}

/-! ## addresses and descriptors -/

theorem physToVirt_virtToPhys (hp : p < 2 ^ 64) : physToVirt (virtToPhys p) = p := by
  unfold physToVirt virtToPhys
  omega

/-- The mask keeps the 36 bits of the page number. -/
theorem and_entryAddrMask (x : Nat) : x &&& entryAddrMask = x / 2 ^ 12 % 2 ^ 36 * 2 ^ 12 := by
  have hmask : entryAddrMask = (2 ^ 36 - 1) * 2 ^ 12 := by decide
  apply Nat.eq_of_testBit_eq
  intro k
  rw [hmask, Nat.testBit_and, Nat.testBit_mul_two_pow, Nat.testBit_mul_two_pow,
    Nat.testBit_two_pow_sub_one, Nat.testBit_mod_two_pow, Nat.testBit_div_two_pow]
  by_cases hk : 12 ≤ k
  · simp [hk, Bool.and_comm]
  · simp [hk]

theorem tableChild_aligned (e : Nat) : tableChild e % 0x1000 = 0 := by
  unfold tableChild physToVirt
  rw [and_entryAddrMask]
  omega

/-- Masking an entry takes the attributes away. -/
theorem entry_addr {attrs : Nat} (hp : p % 0x1000 = 0) (h48 : p < 2 ^ 48)
    (ha : attrs &&& entryAddrMask = 0) : (p ||| attrs) &&& entryAddrMask = p := by
  rw [Nat.and_or_distrib_right, ha, Nat.or_zero, and_entryAddrMask]
  omega

theorem entry_valid (x attrs : Nat) (ha : attrs &&& pdTable = pdTable) :
    (x ||| attrs) &&& pdTable = pdTable := by
  rw [Nat.and_or_distrib_right, ha]
  apply Nat.eq_of_testBit_eq
  intro k
  rw [Nat.testBit_or, Nat.testBit_and]
  cases x.testBit k <;> simp

/-- A table in the managed memory is found again through its entry. -/
theorem tableChild_tableEntry (hp : p % 0x1000 = 0) (hlo : buddyMemoryBase ≤ p)
    (hhi : p < buddyMemoryBase + 2 ^ 48) : tableChild (tableEntry p) = p := by
  unfold buddyMemoryBase at hlo hhi
  have hphys : virtToPhys p % 0x1000 = 0 ∧ virtToPhys p < 2 ^ 48 := by
    unfold virtToPhys
    omega
  unfold tableChild tableEntry
  rw [entry_addr hphys.1 hphys.2 (by decide), physToVirt_virtToPhys (by omega)]

theorem tableEntry_valid (p : Nat) : tableEntry p &&& pdTable = pdTable :=
  entry_valid _ _ (by decide)

theorem ne_zero_of_valid {e : Nat} (he : e &&& pdTable = pdTable) : e ≠ 0 := by
  rintro rfl
  revert he
  decide

theorem pageEntry_valid (pa flag : Nat) : pageEntry pa flag &&& pdTable = pdTable := by
  unfold pageEntry
  rw [Nat.or_comm _ flag]
  exact entry_valid _ _ (entry_valid _ _ (by decide))

theorem tableIndex_lt (va d : Nat) : tableIndex va d < 512 := Nat.mod_lt _ (by decide)

/-- Entries of different tables are at different addresses. -/
theorem entry_ne (ht : t % 0x1000 = 0) (ht' : t' % 0x1000 = 0) (hne : t ≠ t') (hi : i < 512)
    (hj : j < 512) : t + 8 * i ≠ t' + 8 * j := by
  omega

theorem zeroPage_here (hi : i < 512) : zeroPage p w (p + 8 * i) = 0 := by
  unfold zeroPage
  rw [if_pos (by omega)]

theorem zeroPage_other (hp : p % 0x1000 = 0) (ht : t % 0x1000 = 0) (hne : t ≠ p) (hi : i < 512) :
    zeroPage p w (t + 8 * i) = w (t + 8 * i) := by
  unfold zeroPage
  rw [if_neg (by omega)]

/-! ## frames -/

/-- The entries of the table at `p` are the same. -/
def SameTable (w w' : Nat → Nat) (p : Nat) : Prop := ∀ i < 512, w' (p + 8 * i) = w (p + 8 * i)

/-- The tables below, entry by entry. -/
theorem mem_subTables : p ∈ subTables (d + 1) w t ↔
    ∃ i < 512, w (t + 8 * i) ≠ 0 ∧
      (p = tableChild (w (t + 8 * i)) ∨ p ∈ subTables d w (tableChild (w (t + 8 * i)))) := by
  rw [subTables, List.mem_flatMap]
  constructor
  · rintro ⟨i, hi, hp⟩
    by_cases he : w (t + 8 * i) = 0
    · rw [if_pos he] at hp
      cases hp
    · rw [if_neg he, List.mem_cons] at hp
      exact ⟨i, List.mem_range.mp hi, he, hp⟩
  · rintro ⟨i, hi, he, hp⟩
    refine ⟨i, List.mem_range.mpr hi, ?_⟩
    rw [if_neg he]
    exact List.mem_cons.mpr hp

theorem subTables_aligned (hp : p ∈ subTables d w t) : p % 0x1000 = 0 := by
  induction d generalizing t with
  | zero => cases hp
  | succ d ih =>
      obtain ⟨i, -, -, hp⟩ := mem_subTables.mp hp
      cases hp with
      | inl heq => exact heq ▸ tableChild_aligned _
      | inr hbelow => exact ih hbelow

/-- A tree whose tables are the same is the same tree. -/
theorem subTables_congr (h : ∀ p ∈ t :: subTables d w t, SameTable w w' p) :
    subTables d w' t = subTables d w t := by
  induction d generalizing t with
  | zero => rfl
  | succ d ih =>
      rw [subTables, subTables]
      apply List.flatMap_congr
      intro i hi
      have hi' := List.mem_range.mp hi
      rw [h t List.mem_cons_self i hi']
      by_cases he : w (t + 8 * i) = 0
      · rw [if_pos he, if_pos he]
      · rw [if_neg he, if_neg he, ih fun p hp => h p (List.mem_cons_of_mem _ ?_)]
        exact mem_subTables.mpr ⟨i, hi', he, List.mem_cons.mp hp⟩

theorem entries_congr (h : ∀ p ∈ t :: subTables d w t, SameTable w w' p)
    (he : Entries d w t) : Entries d w' t := by
  induction d generalizing t with
  | zero => trivial
  | succ d ih =>
      intro i hi hne
      rw [h t List.mem_cons_self i hi] at hne ⊢
      obtain ⟨hvalid, hbelow⟩ := he i hi hne
      refine ⟨hvalid, ih (fun p hp => h p (List.mem_cons_of_mem _ ?_)) hbelow⟩
      exact mem_subTables.mpr ⟨i, hi, hne, List.mem_cons.mp hp⟩

theorem lookup_congr (h : ∀ p ∈ t :: subTables d w t, SameTable w w' p) (va : Nat) :
    lookup d w' t va = lookup d w t va := by
  induction d generalizing t with
  | zero =>
      unfold lookup
      rw [h t List.mem_cons_self _ (tableIndex_lt va 0)]
  | succ d ih =>
      have hi := tableIndex_lt va (d + 1)
      unfold lookup
      dsimp only
      rw [h t List.mem_cons_self _ hi]
      split
      · next hvalid =>
          refine ih fun p hp => h p (List.mem_cons_of_mem _ ?_)
          exact mem_subTables.mpr ⟨_, hi, ne_zero_of_valid hvalid, List.mem_cons.mp hp⟩
      · rfl

/-- The tables below one entry. -/
def below (d : Nat) (w : Nat → Nat) (t i : Nat) : List Nat :=
  if w (t + 8 * i) = 0 then []
  else tableChild (w (t + 8 * i)) :: subTables d w (tableChild (w (t + 8 * i)))

theorem subTables_succ : subTables (d + 1) w t = (List.range 512).flatMap (below d w t) := rfl

theorem below_subset (hi : i < 512) : below d w t i ⊆ subTables (d + 1) w t := fun _ hq =>
  List.mem_flatMap.mpr ⟨i, List.mem_range.mpr hi, hq⟩

theorem Tree.notMem (h : Tree d w t) : t ∉ subTables d w t := (List.nodup_cons.mp h.nodup).1

/-- Two entries of a tree have different tables below them. -/
theorem Tree.siblings (h : Tree (d + 1) w t) (hi : i < 512) (hj : j < 512) (hij : i ≠ j) :
    List.Disjoint (below d w t i) (below d w t j) := by
  have hnd := (List.nodup_cons.mp h.nodup).2
  rw [subTables_succ] at hnd
  have hpw := (List.nodup_flatMap.mp hnd).2
  have hsymm : Std.Symm (Function.onFun List.Disjoint (below d w t)) := ⟨fun _ _ hd => hd.symm⟩
  exact hpw.forall (List.mem_range.mpr hi) (List.mem_range.mpr hj) hij

/-- The tree below an entry. -/
theorem Tree.child (h : Tree (d + 1) w t) (hi : i < 512) (hne : w (t + 8 * i) ≠ 0) :
    Tree d w (tableChild (w (t + 8 * i))) := by
  have hnd := (List.nodup_cons.mp h.nodup).2
  rw [subTables_succ] at hnd
  have hbelow := (List.nodup_flatMap.mp hnd).1 i (List.mem_range.mpr hi)
  rw [below, if_neg hne] at hbelow
  exact ⟨tableChild_aligned _, (h.entries i hi hne).2, hbelow⟩

/-! ## a change below one entry -/

/-- Nothing changes in the table at `t` and below it, except at entry `i`. -/
structure Elsewhere (d : Nat) (w w' : Nat → Nat) (t i : Nat) : Prop where
  entry : ∀ j < 512, j ≠ i → w' (t + 8 * j) = w (t + 8 * j)
  tables : ∀ j < 512, j ≠ i → ∀ q ∈ below d w t j, SameTable w w' q

theorem Elsewhere.below (h : Elsewhere d w w' t i) (hj : j < 512) (hji : j ≠ i) :
    below d w' t j = below d w t j := by
  unfold RpiKernel.below
  rw [h.entry j hj hji]
  by_cases he : w (t + 8 * j) = 0
  · rw [if_pos he, if_pos he]
  · rw [if_neg he, if_neg he, subTables_congr fun q hq => h.tables j hj hji q ?_]
    rwa [RpiKernel.below, if_neg he]

theorem Elsewhere.entries (h : Elsewhere d w w' t i) (he : Entries (d + 1) w t)
    (hi : w' (t + 8 * i) ≠ 0 → w' (t + 8 * i) &&& pdTable = pdTable ∧
      Entries d w' (tableChild (w' (t + 8 * i)))) : Entries (d + 1) w' t := by
  intro j hj hne
  by_cases hji : j = i
  · subst hji
    exact hi hne
  · rw [h.entry j hj hji] at hne ⊢
    obtain ⟨hvalid, hbelow⟩ := he j hj hne
    refine ⟨hvalid, entries_congr (fun q hq => h.tables j hj hji q ?_) hbelow⟩
    rwa [RpiKernel.below, if_neg hne]

theorem Elsewhere.lookup (h : Elsewhere d w w' t i) (hi : tableIndex va (d + 1) ≠ i) :
    lookup (d + 1) w' t va = lookup (d + 1) w t va := by
  have hj := tableIndex_lt va (d + 1)
  simp only [RpiKernel.lookup]
  rw [h.entry _ hj hi]
  split
  · next hvalid =>
      refine lookup_congr (fun q hq => h.tables _ hj hi q ?_) va
      rwa [RpiKernel.below, if_neg (ne_zero_of_valid hvalid)]
  · rfl

/-- A list of lists in which one grows. -/
theorem perm_flatMap {l : List Nat} {f g : Nat → List Nat} {new : List Nat} (hnd : l.Nodup)
    (hi : i ∈ l) (hsame : ∀ j ∈ l, j ≠ i → g j = f j) (hp : (g i).Perm (new ++ f i)) :
    (l.flatMap g).Perm (new ++ l.flatMap f) := by
  obtain ⟨l₁, l₂, rfl⟩ := List.append_of_mem hi
  have hni := List.nodup_middle.mp hnd
  have hrest : ∀ l' : List Nat, (∀ j ∈ l', j ∈ l₁ ++ l₂) → l'.flatMap g = l'.flatMap f :=
    fun l' hl => List.flatMap_congr fun j hj => by
      have hm := hl j hj
      refine hsame j ?_ fun heq => (List.nodup_cons.mp hni).1 (heq ▸ hm)
      simp only [List.mem_append, List.mem_cons] at hm ⊢
      tauto
  rw [List.flatMap_append, List.flatMap_append, List.flatMap_cons, List.flatMap_cons,
    hrest l₁ fun j hj => List.mem_append_left _ hj, hrest l₂ fun j hj => List.mem_append_right _ hj]
  calc l₁.flatMap f ++ (g i ++ l₂.flatMap f)
      _ |>.Perm (l₁.flatMap f ++ ((new ++ f i) ++ l₂.flatMap f)) :=
          (hp.append_right _).append_left _
      _ |>.Perm (new ++ (l₁.flatMap f ++ (f i ++ l₂.flatMap f))) := by
          rw [List.append_assoc, ← List.append_assoc, ← List.append_assoc new]
          exact List.perm_append_comm.append_right _

theorem Elsewhere.perm {new : List Nat} (h : Elsewhere d w w' t i) (hi : i < 512)
    (hp : (RpiKernel.below d w' t i).Perm (new ++ RpiKernel.below d w t i)) :
    (subTables (d + 1) w' t).Perm (new ++ subTables (d + 1) w t) :=
  perm_flatMap List.nodup_range (List.mem_range.mpr hi)
    (fun _ hj hji => h.below (List.mem_range.mp hj) hji) hp

/-! ## making a table -/

/-- A table without entries. -/
theorem empty_table (h : ∀ i < 512, w (p + 8 * i) = 0) (va : Nat) :
    subTables d w p = [] ∧ Entries d w p ∧ lookup d w p va = none := by
  have hlook : w (p + 8 * tableIndex va d) = 0 := h _ (tableIndex_lt va d)
  cases d with
  | zero =>
      refine ⟨rfl, trivial, ?_⟩
      rw [lookup, hlook]
      decide
  | succ d =>
      refine ⟨?_, fun i hi hne => absurd (h i hi) hne, ?_⟩
      · rw [subTables_succ, List.flatMap_eq_nil_iff]
        exact fun i hi => if_pos (h i (List.mem_range.mp hi))
      · rw [lookup, hlook]
        rfl

/-- The words after `map_one_page` made a table. -/
def linked (w : Nat → Nat) (t i p : Nat) : Nat → Nat :=
  Function.update (zeroPage p w) (t + 8 * i) (tableEntry p)

/-- A fresh page linked into a tree. -/
structure Linked₁ (d : Nat) (w : Nat → Nat) (t i p : Nat) : Prop where
  entry : linked w t i p (t + 8 * i) = tableEntry p
  empty : ∀ j < 512, linked w t i p (p + 8 * j) = 0
  tree : Tree (d + 1) (linked w t i p) t
  subs : (subTables (d + 1) (linked w t i p) t).Perm (p :: subTables (d + 1) w t)
  outside : ∀ q, q % 0x1000 = 0 → q ∉ [t, p] → SameTable w (linked w t i p) q
  lookup : ∀ va, RpiKernel.lookup (d + 1) (linked w t i p) t va = RpiKernel.lookup (d + 1) w t va

theorem Tree.link (h : Tree (d + 1) w t) (hi : i < 512) (hempty : w (t + 8 * i) = 0)
    (hp : p % 0x1000 = 0) (hnew : p ∉ t :: subTables (d + 1) w t)
    (hchild : tableChild (tableEntry p) = p) : Linked₁ d w t i p := by
  rw [List.mem_cons, not_or] at hnew
  have hentry : linked w t i p (t + 8 * i) = tableEntry p := Function.update_self ..
  have hzero : ∀ j < 512, linked w t i p (p + 8 * j) = 0 := fun j hj => by
    rw [linked, Function.update_of_ne (entry_ne hp h.aligned hnew.1 hj hi), zeroPage_here hj]
  have hout : ∀ q, q % 0x1000 = 0 → q ∉ [t, p] → SameTable w (linked w t i p) q :=
    fun q hq hqn j hj => by
      simp only [List.mem_cons, List.not_mem_nil, or_false, not_or] at hqn
      rw [linked, Function.update_of_ne (entry_ne hq h.aligned hqn.1 hj hi),
        zeroPage_other hp hq hqn.2 hj]
  have helse : Elsewhere d w (linked w t i p) t i := by
    constructor
    · intro j hj hji
      rw [linked, Function.update_of_ne (by omega), zeroPage_other hp h.aligned (Ne.symm hnew.1) hj]
    · intro j hj _ q hq
      have hqs := below_subset hj hq
      refine hout q (subTables_aligned hqs) ?_
      simp only [List.mem_cons, List.not_mem_nil, or_false, not_or]
      exact ⟨fun heq => h.notMem (by rwa [heq] at hqs), fun heq => hnew.2 (by rwa [heq] at hqs)⟩
  have hbelow : below d (linked w t i p) t i = [p] := by
    rw [below, hentry, if_neg (ne_zero_of_valid (tableEntry_valid p)), hchild,
      (empty_table hzero 0).1]
  have hsubs : (subTables (d + 1) (linked w t i p) t).Perm (p :: subTables (d + 1) w t) := by
    have hperm : (below d (linked w t i p) t i).Perm ([p] ++ below d w t i) := by
      rw [hbelow, below, if_pos hempty, List.append_nil]
    have hsubs := helse.perm hi hperm
    rwa [List.singleton_append] at hsubs
  refine ⟨hentry, hzero, ⟨h.aligned, helse.entries h.entries fun _ => ?_, ?_⟩, hsubs, hout, fun va => ?_⟩
  · rw [hentry, hchild]
    exact ⟨tableEntry_valid p, (empty_table hzero 0).2.1⟩
  · have hnd : (p :: t :: subTables (d + 1) w t).Nodup :=
      List.nodup_cons.mpr ⟨by simpa using hnew, h.nodup⟩
    exact ((hsubs.cons t).trans (List.Perm.swap p t _)).nodup_iff.mpr hnd
  · by_cases hva : tableIndex va (d + 1) = i
    · have hold : RpiKernel.lookup (d + 1) w t va = none := by
        rw [RpiKernel.lookup, hva, hempty]
        rfl
      rw [hold, RpiKernel.lookup, hva, hentry, if_pos (tableEntry_valid p), hchild]
      exact (empty_table hzero va).2.2
    · exact helse.lookup hva

/-! ## mapping a page -/

/-- `w'` are the words `w` after the page `va` was given the descriptor `e`
below the table `t`, with the tables `new` made on the way. -/
structure Mapped (d : Nat) (w w' : Nat → Nat) (t va e : Nat) (new : List Nat) : Prop where
  outside : ∀ q, q % 0x1000 = 0 → q ∉ t :: (new ++ subTables d w t) → SameTable w w' q
  entries : Entries d w' t
  subs : (subTables d w' t).Perm (new ++ subTables d w t)
  here : lookup d w' t va = some e
  there : ∀ va', (∃ j ≤ d, tableIndex va' j ≠ tableIndex va j) →
    lookup d w' t va' = lookup d w t va'

variable {e : Nat} {new : List Nat}

theorem mapped_leaf (ht : t % 0x1000 = 0) (va : Nat) (he : e &&& pdTable = pdTable) :
    Mapped 0 w (Function.update w (t + 8 * tableIndex va 0) e) t va e [] := by
  have hi := tableIndex_lt va 0
  constructor
  · intro q hq hqt j hj
    rw [List.mem_cons, not_or] at hqt
    rw [Function.update_of_ne (entry_ne hq ht hqt.1 hj hi)]
  · trivial
  · rfl
  · rw [lookup, Function.update_self, if_pos he]
  · intro va' hva
    obtain ⟨j, hj, hne⟩ := hva
    obtain rfl : j = 0 := by omega
    have haddr : t + 8 * tableIndex va' 0 ≠ t + 8 * tableIndex va 0 := by omega
    rw [lookup, lookup, Function.update_of_ne haddr]

/-- Mapping below the table an entry points to. -/
theorem Mapped.descend (h : Tree (d + 1) w t) (hne : w (t + 8 * tableIndex va (d + 1)) ≠ 0)
    (hnew : ∀ q ∈ new, q ∉ t :: subTables (d + 1) w t)
    (hm : Mapped d w w' (tableChild (w (t + 8 * tableIndex va (d + 1)))) va e new) :
    Mapped (d + 1) w w' t va e new := by
  have hi := tableIndex_lt va (d + 1)
  have hbelow : below d w t (tableIndex va (d + 1)) =
      tableChild (w (t + 8 * tableIndex va (d + 1))) ::
        subTables d w (tableChild (w (t + 8 * tableIndex va (d + 1)))) := if_neg hne
  have hvalid := (h.entries _ hi hne).1
  -- a table outside of the new ones and of those below the entry
  have hout : ∀ q, q % 0x1000 = 0 → q ∉ new → q ∉ below d w t (tableIndex va (d + 1)) →
      SameTable w w' q := fun q hq hqn hqb => by
    refine hm.outside q hq ?_
    rw [hbelow] at hqb
    simp only [List.mem_cons, List.mem_append, not_or] at hqb ⊢
    exact ⟨hqb.1, hqn, hqb.2⟩
  have htable : SameTable w w' t := by
    refine hout t h.aligned (fun hq => hnew t hq List.mem_cons_self) fun hq => ?_
    exact h.notMem (below_subset hi hq)
  have helse : Elsewhere d w w' t (tableIndex va (d + 1)) := by
    constructor
    · exact fun j hj _ => htable j hj
    · intro j hj hji q hq
      have hqs := below_subset hj hq
      refine hout q (subTables_aligned hqs) (fun hqn => ?_) fun hqi => ?_
      · exact hnew q hqn (List.mem_cons_of_mem _ hqs)
      · exact h.siblings hj hi hji hq hqi
  constructor
  · intro q hq hqn
    simp only [List.mem_cons, List.mem_append, not_or] at hqn
    exact hout q hq hqn.2.1 fun hqb => hqn.2.2 (below_subset hi hqb)
  · refine helse.entries h.entries fun _ => ?_
    rw [htable _ hi]
    exact ⟨hvalid, hm.entries⟩
  · refine helse.perm hi ?_
    rw [hbelow, below, htable _ hi, if_neg hne]
    exact (hm.subs.cons _).trans List.perm_middle.symm
  · rw [lookup, htable _ hi, if_pos hvalid]
    exact hm.here
  · intro va' hva
    by_cases hsame : tableIndex va' (d + 1) = tableIndex va (d + 1)
    · rw [lookup, lookup, hsame, htable _ hi, if_pos hvalid, if_pos hvalid]
      refine hm.there va' ?_
      obtain ⟨j, hj, hjne⟩ := hva
      have hjd : j ≠ d + 1 := fun heq => hjne (heq ▸ hsame)
      exact ⟨j, by omega, hjne⟩
    · exact helse.lookup hsame

/-- Mapping after a table was made. -/
theorem Mapped.link {w₁ : Nat → Nat} (hl : Linked₁ d w t i p) (hw : w₁ = linked w t i p)
    (hm : Mapped (d + 1) w₁ w' t va e new) : Mapped (d + 1) w w' t va e (new ++ [p]) := by
  subst hw
  constructor
  · intro q hq hqn j hj
    simp only [List.mem_cons, List.mem_append, List.not_mem_nil, or_false, not_or] at hqn
    have hq₁ : q ∉ t :: (new ++ subTables (d + 1) (linked w t i p) t) := by
      rw [List.mem_cons, List.mem_append, hl.subs.mem_iff, List.mem_cons, not_or, not_or, not_or]
      exact ⟨hqn.1, hqn.2.1.1, hqn.2.1.2, hqn.2.2⟩
    rw [hm.outside q hq hq₁ j hj, hl.outside q hq (by simp [hqn]) j hj]
  · exact hm.entries
  · have hsubs := hm.subs.trans (hl.subs.append_left new)
    rwa [← List.singleton_append, ← List.append_assoc] at hsubs
  · exact hm.here
  · intro va' hva
    rw [hm.there va' hva, hl.lookup]

/-! ## `map_one_page` -/

/-- Pages as blocks. -/
def pageBlocks (ps : List Nat) : Blocks := ps.map fun p => (p, 0x1000)

theorem addrs_pageBlocks (ps : List Nat) : addrs (pageBlocks ps) = ps := by
  simp [addrs, pageBlocks, Function.comp_def]

variable {base : Nat → Nat → Prop} {L : Blocks} {m : TableMem}

/-- The page `kmalloc` returns for a table. -/
theorem kmalloc_page {a : Alloc} (h : a.Holds base L) :
    (kmalloc 0x1000 a = some (0, a)) ∨
      ∃ p a', kmalloc 0x1000 a = some (p, a') ∧ p ≠ 0 ∧ a'.Holds base ((p, 0x1000) :: L) ∧
        p % 0x1000 = 0 ∧ p ∉ addrs L ∧ tableChild (tableEntry p) = p := by
  obtain ⟨p, a', hres, hout⟩ := h.kmalloc 0x1000
  cases hout with
  | inl hnull =>
      obtain ⟨rfl, rfl⟩ := hnull
      exact Or.inl hres
  | inr hsome =>
      obtain ⟨hp, hadds, hholds⟩ := hsome
      have hgr : 0x1000 ≤ granted 0x1000 := le_granted (by decide)
      have hh := hholds 0x1000 hgr
      have hreg : a'.Region p (granted 0x1000) := (hadds.region _ _).mpr (Or.inr ⟨rfl, rfl⟩)
      have hal : p % 0x1000 = 0 := hh.settled.page_aligned hreg hgr
      obtain ⟨h0, hlo, hhi⟩ := hh.settled.managed hreg
      have hfresh := (List.nodup_cons.mp hh.holds.nodup).1
      unfold memorySize totalFrame frameSize at hhi
      exact Or.inr ⟨p, a', hres, hp, hh, hal, hfresh,
        tableChild_tableEntry hal hlo (by omega)⟩

/-- What the walk down one level does. -/
theorem nextTable_spec (h : Tree (d + 1) m.words t) (hh : m.alloc.Holds base L)
    (hin : t :: subTables (d + 1) m.words t ⊆ addrs L) (hi : i < 512) :
    (m.words (t + 8 * i) ≠ 0 ∧ nextTable t i m = some (tableChild (m.words (t + 8 * i)), m)) ∨
      (m.words (t + 8 * i) = 0 ∧ kmalloc 0x1000 m.alloc = some (0, m.alloc) ∧
        nextTable t i m = none) ∨
      ∃ p a', m.words (t + 8 * i) = 0 ∧ kmalloc 0x1000 m.alloc = some (p, a') ∧ p ≠ 0 ∧
        a'.Holds base ((p, 0x1000) :: L) ∧ Linked₁ d m.words t i p ∧
        tableChild (tableEntry p) = p ∧
        nextTable t i m = some (p, ⟨a', linked m.words t i p⟩) := by
  by_cases he : m.words (t + 8 * i) = 0
  · right
    cases kmalloc_page hh with
    | inl hnull =>
        refine Or.inl ⟨he, hnull, ?_⟩
        rw [nextTable, if_pos he, hnull]
        exact if_pos rfl
    | inr hsome =>
        obtain ⟨p, a', hres, hp, hh', hal, hfresh, hchild⟩ := hsome
        have hl := h.link hi he hal (fun hq => hfresh (hin hq)) hchild
        refine Or.inr ⟨p, a', he, hres, hp, hh', hl, hchild, ?_⟩
        rw [nextTable, if_pos he, hres]
        dsimp only
        rw [if_neg hp, Function.update_self, hchild]
        rfl
  · left
    exact ⟨he, if_neg he⟩

theorem missing_empty (h : ∀ i < 512, w (p + 8 * i) = 0) (va : Nat) : missing d w p va = d := by
  cases d with
  | zero => rfl
  | succ d => exact if_pos (h _ (tableIndex_lt va (d + 1)))

/-- New pages are none of those held before. -/
theorem fresh_pages {a : Alloc} (h : a.Holds base (pageBlocks new ++ L)) {ps : List Nat}
    (hps : ps ⊆ addrs L) : ∀ q ∈ new, q ∉ ps := by
  intro q hq hqp
  have hnd := h.holds.nodup
  rw [addrs_append, addrs_pageBlocks] at hnd
  exact (List.nodup_append.mp hnd).2.2 q hq q (hps hqp) rfl

/-- **Mapping a page.**  The loop of `map_one_page` returns exactly when the
allocator can supply the tables that are missing, and then the page is
mapped, with fresh pages for the new tables. -/
theorem mapLoop_spec (va pa flag : Nat) (h : Tree d m.words t) (hh : m.alloc.Holds base L)
    (hin : t :: subTables d m.words t ⊆ addrs L) :
    (CanSupply (missing d m.words t va) m.alloc → ∃ m', mapLoop va pa flag d t m = some m') ∧
      ∀ m', mapLoop va pa flag d t m = some m' →
        CanSupply (missing d m.words t va) m.alloc ∧
          ∃ new, m'.alloc.Holds base (pageBlocks new ++ L) ∧
            Mapped d m.words m'.words t va (pageEntry pa flag) new := by
  induction d generalizing t m L with
  | zero =>
      refine ⟨fun _ => ⟨_, rfl⟩, fun m' hm => ⟨trivial, [], ?_⟩⟩
      obtain rfl := Option.some.inj hm
      exact ⟨hh, mapped_leaf h.aligned va (pageEntry_valid pa flag)⟩
  | succ d ih =>
      have hi := tableIndex_lt va (d + 1)
      rcases nextTable_spec h hh hin hi with ⟨hne, hnext⟩ | ⟨he, hnull, hnext⟩ |
        ⟨p, a', he, hres, hp, hh', hl, hchild, hnext⟩
      · -- the table is there
        have hsub : tableChild (m.words (t + 8 * tableIndex va (d + 1))) ::
            subTables d m.words (tableChild (m.words (t + 8 * tableIndex va (d + 1)))) ⊆ addrs L := by
          intro q hq
          refine hin (List.mem_cons_of_mem _ (below_subset hi ?_))
          rwa [below, if_neg hne]
        obtain ⟨hret, hmap⟩ := ih (h.child hi hne) hh hsub
        rw [mapLoop, hnext, missing, if_neg hne]
        refine ⟨hret, fun m' hm => ?_⟩
        obtain ⟨hsup, new, hnew, hmapped⟩ := hmap m' hm
        exact ⟨hsup, new, hnew, hmapped.descend h hne (fresh_pages hnew hin)⟩
      · -- no page for a table
        rw [mapLoop, hnext, missing, if_pos he]
        refine ⟨fun hsup => ?_, fun m' hm => by cases hm⟩
        obtain ⟨q, a, hq, hq0, -⟩ := hsup
        rw [hnull] at hq
        exact absurd (congrArg Prod.fst (Option.some.inj hq)).symm hq0
      · -- a new table
        have hne : linked m.words t (tableIndex va (d + 1)) p (t + 8 * tableIndex va (d + 1)) ≠ 0 := by
          rw [hl.entry]
          exact ne_zero_of_valid (tableEntry_valid p)
        have hin₁ : t :: subTables (d + 1) (linked m.words t (tableIndex va (d + 1)) p) t ⊆
            addrs ((p, 0x1000) :: L) := by
          intro q hq
          rw [List.mem_cons, hl.subs.mem_iff, List.mem_cons] at hq
          rw [addrs_cons, List.mem_cons]
          rcases hq with rfl | rfl | hq
          · exact Or.inr (hin List.mem_cons_self)
          · exact Or.inl rfl
          · exact Or.inr (hin (List.mem_cons_of_mem _ hq))
        have htree := hl.tree.child hi hne
        have hsub : p :: subTables d (linked m.words t (tableIndex va (d + 1)) p) p ⊆
            addrs ((p, 0x1000) :: L) := by
          intro q hq
          refine hin₁ (List.mem_cons_of_mem _ (below_subset hi ?_))
          rwa [below, if_neg hne, hl.entry, hchild]
        rw [hl.entry, hchild] at htree
        obtain ⟨hret, hmap⟩ := ih (m := ⟨a', linked m.words t (tableIndex va (d + 1)) p⟩) htree hh' hsub
        have hmiss : missing d (linked m.words t (tableIndex va (d + 1)) p) p va = d :=
          missing_empty hl.empty va
        rw [hmiss] at hret hmap
        rw [mapLoop, hnext, missing, if_pos he]
        refine ⟨fun hsup => hret ?_, fun m' hm => ?_⟩
        · obtain ⟨q, a, hq, -, hsup⟩ := hsup
          rw [hres] at hq
          obtain ⟨-, rfl⟩ := Prod.mk.inj (Option.some.inj hq)
          exact hsup
        · obtain ⟨hsup, new, hnew, hmapped⟩ := hmap m' hm
          have hdown : Mapped (d + 1) (linked m.words t (tableIndex va (d + 1)) p) m'.words t va
              (pageEntry pa flag) new := by
            refine Mapped.descend hl.tree hne (fresh_pages hnew hin₁) ?_
            rwa [hl.entry, hchild]
          refine ⟨⟨p, a', hres, hp, hsup⟩, new ++ [p], ?_, hdown.link hl rfl⟩
          rw [pageBlocks, List.map_append, List.append_assoc]
          exact hnew

end RpiKernel
