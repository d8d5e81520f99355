import RpiKernel.Lib.Runs
import RpiKernel.Memory.Room
import RpiKernel.Mmu.TableTree

/-!
# RpiKernel.Mmu.TableRun

Page tables built by calls of `map_one_page` from an empty `pgd`
(`mapOnePage_walk`).
-/

namespace RpiKernel

open Custody Runs

variable {base : Nat → Nat → Prop} {L : Blocks} {a : Alloc} {m m₀ m' : TableMem}
  {pgd va pa flag n : Nat}

/-! ## the invariant -/

/-- The tables from `pgd` on make a tree of pages that are held. -/
structure PgdOk (pgd : Nat) (m : TableMem) : Prop where
  tree : Tree 3 m.words pgd
  held : ∃ base L, m.alloc.Holds base L ∧ pgd :: subTables 3 m.words pgd ⊆ addrs L

/-- The tree after a page was mapped. -/
theorem Mapped.tree {d : Nat} {w w' : Nat → Nat} {t e : Nat} {new : List Nat}
    (hm : Mapped d w w' t va e new) (h : Tree d w t) (hnd : new.Nodup)
    (hfresh : ∀ q ∈ new, q ∉ t :: subTables d w t) : Tree d w' t := by
  refine ⟨h.aligned, hm.entries, ?_⟩
  rw [List.nodup_cons, hm.subs.mem_iff, hm.subs.nodup_iff, List.mem_append, not_or]
  refine ⟨⟨fun ht => hfresh t ht List.mem_cons_self, h.notMem⟩, ?_⟩
  refine List.nodup_append.mpr ⟨hnd, (List.nodup_cons.mp h.nodup).2, fun q hq q' hq' heq => ?_⟩
  exact hfresh q hq (List.mem_cons_of_mem _ (heq ▸ hq'))

/-- `map_one_page` on a tree that is held. -/
theorem mapOnePage_spec (va pa flag : Nat) (h : Tree 3 m.words pgd) (hh : m.alloc.Holds base L)
    (hin : pgd :: subTables 3 m.words pgd ⊆ addrs L) :
    (CanSupply (missing 3 m.words pgd va) m.alloc → ∃ m', mapOnePage pgd va pa flag m = some m') ∧
      ∀ m', mapOnePage pgd va pa flag m = some m' →
        CanSupply (missing 3 m.words pgd va) m.alloc ∧
          ∃ new, m'.alloc.Holds base (pageBlocks new ++ L) ∧
            Mapped 3 m.words m'.words pgd va (pageEntry pa flag) new ∧ Tree 3 m'.words pgd := by
  obtain ⟨hret, hmap⟩ := mapLoop_spec va pa flag h hh hin
  refine ⟨hret, fun m' hm => ?_⟩
  obtain ⟨hsup, new, hnew, hmapped⟩ := hmap m' hm
  have hnd := hnew.holds.nodup
  rw [addrs_append, addrs_pageBlocks] at hnd
  exact ⟨hsup, new, hnew, hmapped, hmapped.tree h (List.nodup_append.mp hnd).1 (fresh_pages hnew hin)⟩

theorem PgdOk.map (h : PgdOk pgd m) (hm : mapOnePage pgd va pa flag m = some m') : PgdOk pgd m' := by
  obtain ⟨base, L, hh, hin⟩ := h.held
  obtain ⟨-, new, hnew, hmapped, htree⟩ := (mapOnePage_spec va pa flag h.tree hh hin).2 m' hm
  refine ⟨htree, base, _, hnew, fun q hq => ?_⟩
  rw [addrs_append, addrs_pageBlocks, List.mem_append]
  rw [List.mem_cons, hmapped.subs.mem_iff, List.mem_append] at hq
  rcases hq with rfl | hq | hq
  · exact Or.inr (hin List.mem_cons_self)
  · exact Or.inl hq
  · exact Or.inr (hin (List.mem_cons_of_mem _ hq))

/-! ## runs -/

/-- One call of `map_one_page`. -/
structure MapCall where
  va : Nat
  pa : Nat
  flag : Nat

/-- The call, on the table at `pgd`. -/
def mapCall (pgd : Nat) (m : TableMem) (c : MapCall) : Option TableMem :=
  mapOnePage pgd c.va c.pa c.flag m

/-- `pgd` is a live block of a page, full of zeros. -/
structure ZeroedPgd (pgd : Nat) (m : TableMem) : Prop where
  settled : m.alloc.Settled
  live : ∃ n, m.alloc.Region pgd n ∧ 0x1000 ≤ n
  zero : ∀ i < 512, m.words (pgd + 8 * i) = 0

theorem ZeroedPgd.pgdOk (h : ZeroedPgd pgd m) : PgdOk pgd m := by
  obtain ⟨n, hr, hn⟩ := h.live
  have hsub : subTables 3 m.words pgd = [] := (empty_table h.zero 0).1
  refine ⟨⟨h.settled.page_aligned hr hn, (empty_table h.zero 0).2.1, ?_⟩, _, [(pgd, 0x1000)],
    ⟨h.settled, .of_live ?_ ?_⟩, ?_⟩
  · rw [hsub]
    exact List.nodup_singleton pgd
  · exact List.nodup_singleton pgd
  · intro e he
    rw [List.mem_singleton.mp he]
    exact ⟨n, hr, hn⟩
  · rw [hsub]
    exact fun q hq => hq

/-- The walk depends on bits 12 to 47 of the address. -/
theorem tableIndex_ne {va va' : Nat} (h : va' / 2 ^ 12 % 2 ^ 36 ≠ va / 2 ^ 12 % 2 ^ 36) :
    ∃ j ≤ 3, tableIndex va' j ≠ tableIndex va j := by
  by_contra hall
  have hsame : ∀ j ≤ 3, tableIndex va' j = tableIndex va j := fun j hj => by
    by_contra hne
    exact hall ⟨j, hj, hne⟩
  have h0 := hsame 0 (by omega)
  have h1 := hsame 1 (by omega)
  have h2 := hsame 2 (by omega)
  have h3 := hsame 3 (by omega)
  unfold tableIndex at h0 h1 h2 h3
  simp only [Nat.reduceMul, Nat.reduceAdd] at h0 h1 h2 h3
  omega

/-- The attribute bits of a descriptor. -/
theorem pageEntry_attrs (hpa : pa % 0x1000 = 0) (h48 : pa < 2 ^ 48) {k : Nat}
    (hk : k < 12 ∨ 48 ≤ k) :
    (pageEntry pa flag).testBit k =
      (pdAccess ||| pdTable ||| (mairIdxNormalNocache <<< 2) ||| pdKnx ||| flag).testBit k := by
  have hbit : pa.testBit k = false := by
    cases hk with
    | inl hlo =>
        obtain ⟨c, rfl⟩ := Nat.dvd_of_mod_eq_zero hpa
        rw [show 0x1000 * c = 2 ^ 12 * c from rfl, Nat.testBit_two_pow_mul]
        simp [Nat.not_le.mpr hlo]
    | inr hhi =>
        exact Nat.testBit_lt_two_pow (lt_of_lt_of_le h48 (Nat.pow_le_pow_right (by decide) hhi))
  unfold pageEntry
  rw [Nat.testBit_or, hbit, Bool.false_or]

theorem pageEntry_addr (hpa : pa % 0x1000 = 0) (h48 : pa < 2 ^ 48)
    (hflag : flag &&& entryAddrMask = 0) : pageEntry pa flag &&& entryAddrMask = pa := by
  refine entry_addr hpa h48 ?_
  rw [Nat.and_or_distrib_right, hflag]
  decide

/-- **Demand mapping.**  After any calls of `map_one_page` on a table that was
empty, one more call that the allocator can supply returns; then the walk for
the page yields its address and attributes, and the walk for any other page
what it did before. -/
theorem mapOnePage_walk (va pa flag : Nat) (h₀ : ZeroedPgd pgd m₀) (hr : Reach (mapCall pgd) (fun _ _ => True) m₀ m)
    (hpa : pa % 0x1000 = 0) (h48 : pa < 2 ^ 48) (hflag : flag &&& entryAddrMask = 0)
    (hsup : CanSupply (missing 3 m.words pgd va) m.alloc) :
    ∃ m', mapOnePage pgd va pa flag m = some m' ∧
      (∃ e, lookup 3 m'.words pgd va = some e ∧ e &&& entryAddrMask = pa ∧
        ∀ k, k < 12 ∨ 48 ≤ k → e.testBit k =
          (pdAccess ||| pdTable ||| (mairIdxNormalNocache <<< 2) ||| pdKnx ||| flag).testBit k) ∧
      ∀ va', va' / 2 ^ 12 % 2 ^ 36 ≠ va / 2 ^ 12 % 2 ^ 36 →
        lookup 3 m'.words pgd va' = lookup 3 m.words pgd va' := by
  have hok : PgdOk pgd m := hr.inv h₀.pgdOk fun _ _ _ hI _ hs => hI.map hs
  obtain ⟨base, L, hh, hin⟩ := hok.held
  obtain ⟨hret, hmap⟩ := mapOnePage_spec va pa flag hok.tree hh hin
  obtain ⟨m', hm⟩ := hret hsup
  obtain ⟨-, new, -, hmapped, -⟩ := hmap m' hm
  refine ⟨m', hm, ⟨_, hmapped.here, pageEntry_addr hpa h48 hflag,
    fun k hk => pageEntry_attrs hpa h48 hk⟩, fun va' hva => ?_⟩
  exact hmapped.there va' (tableIndex_ne hva)

theorem Alloc.Room.canSupply (h : a.Room n) : CanSupply n a := by
  induction n generalizing a with
  | zero => trivial
  | succ n ih =>
      obtain ⟨p, a', hres, hp, -, hroom⟩ := h.kmalloc (by decide : 0x1000 ≤ 0x4000)
      exact ⟨p, a', hres, hp, ih hroom⟩

/-- After booting there is a root for the tables, and the pages for one translation. -/
theorem smallBoot_pgd (va : Nat) : ∃ p a, ZeroedPgd p ⟨a, fun _ => 0⟩ ∧
    CanSupply (missing 3 (fun _ => 0) p va) a := by
  obtain ⟨p, a, hres, hp, hadds, hroom⟩ :=
    (smallBoot_room.mono (by decide : 4 ≤ 0x4000)).kmalloc (by decide : 0x1000 ≤ 0x4000)
  have hregion : a.Region p (granted 0x1000) := (hadds.region _ _).mpr (Or.inr ⟨rfl, rfl⟩)
  have hmiss : missing 3 (fun _ => 0) p va = 3 := missing_empty (fun _ _ => rfl) va
  refine ⟨p, a, ⟨hroom.settled, ⟨_, hregion, le_granted (by decide)⟩, fun _ _ => rfl⟩, ?_⟩
  rw [hmiss]
  exact hroom.canSupply

theorem mapOnePage_walk_boot : ∃ pgd m m', mapOnePage pgd 0x400000 0x80000 pdUnx m = some m' ∧
    ∃ e, lookup 3 m'.words pgd 0x400000 = some e ∧ e &&& entryAddrMask = 0x80000 := by
  obtain ⟨p, a, hzero, hsupply⟩ := smallBoot_pgd 0x400000
  obtain ⟨m', hm, ⟨e, hl, ha, -⟩, -⟩ := mapOnePage_walk 0x400000 0x80000 pdUnx hzero .init
    (by decide) (by decide) (by decide) hsupply
  exact ⟨p, _, m', hm, e, hl, ha⟩

end RpiKernel
