import RpiKernel.Memory.Contents
import RpiKernel.Mmu.TableFree
import RpiKernel.Mmu.TableRun

/-!
# RpiKernel.Mmu.Teardown

`mmu_free_page_tables` after any calls of `map_one_page` on a table that was
empty: it gives back the tables that these calls made, each of them once, and
so leaves the allocator with the blocks it had before (`mmuFreePageTables_run`).
-/

namespace RpiKernel

open Custody Runs

variable {a a' : Alloc} {base : Nat → Nat → Prop} {L : Blocks} {m m₀ m' : TableMem}
  {pgd va pa flag t i d n p : Nat}

/-! ## what the calls add -/

theorem nextTable_grows (h : m.alloc.Settled) (hn : nextTable t i m = some (p, m')) :
    m'.alloc.Settled ∧ m.alloc.Grows m'.alloc := by
  unfold nextTable at hn
  by_cases he : m.words (t + 8 * i) = 0
  · rw [if_pos he] at hn
    cases hm : kmalloc 0x1000 m.alloc with
    | none => simp [hm] at hn
    | some r =>
        have hg := h.kmalloc_grows hm
        by_cases h0 : r.1 = 0
        · simp [hm, h0] at hn
        · simp only [hm, h0, if_false, Option.some.injEq, Prod.mk.injEq] at hn
          rw [← hn.2]
          exact hg
  · rw [if_neg he, Option.some.injEq, Prod.mk.injEq] at hn
    rw [← hn.2]
    exact ⟨h, .refl _⟩

theorem mapLoop_grows (h : m.alloc.Settled) (hm : mapLoop va pa flag d t m = some m') :
    m.alloc.Grows m'.alloc := by
  induction d generalizing t m with
  | zero =>
      rw [mapLoop, Option.some.injEq] at hm
      rw [← hm]
      exact .refl _
  | succ d ih =>
      rw [mapLoop] at hm
      cases hn : nextTable t (tableIndex va (d + 1)) m with
      | none => simp [hn] at hm
      | some r =>
          obtain ⟨hs, hg⟩ := nextTable_grows h hn
          rw [hn] at hm
          exact hg.trans (ih hs hm)

/-- The state after calls of `map_one_page`: besides the blocks of `m₀` there
are the tables, and nothing else. -/
structure Built (pgd : Nat) (m₀ m : TableMem) : Prop where
  tree : Tree 3 m.words pgd
  holds : m.alloc.Holds (outside m₀.alloc.Region [(pgd, 0x1000)])
    (pageBlocks (subTables 3 m.words pgd) ++ [(pgd, 0x1000)])
  grows : m₀.alloc.Grows m.alloc

theorem ZeroedPgd.built (h : ZeroedPgd pgd m₀) : Built pgd m₀ m₀ := by
  have hsub : subTables 3 m₀.words pgd = [] := (empty_table h.zero 0).1
  refine ⟨h.pgdOk.tree, ⟨h.settled, ?_⟩, .refl _⟩
  rw [hsub]
  refine .of_live (List.nodup_singleton pgd) fun e he => ?_
  rw [List.mem_singleton.mp he]
  exact h.live

theorem Built.map (h : Built pgd m₀ m) (hm : mapOnePage pgd va pa flag m = some m') :
    Built pgd m₀ m' := by
  have hin : pgd :: subTables 3 m.words pgd ⊆
      addrs (pageBlocks (subTables 3 m.words pgd) ++ [(pgd, 0x1000)]) := fun q hq => by
    rw [addrs_append, addrs_pageBlocks]
    simpa [or_comm] using hq
  obtain ⟨-, new, hnew, hmapped, htree⟩ := (mapOnePage_spec va pa flag h.tree h.holds hin).2 m' hm
  refine ⟨htree, hnew.perm ?_, h.grows.trans (mapLoop_grows h.holds.settled hm)⟩
  have hperm := (hmapped.subs.map fun p => (p, 0x1000)).symm.append_right [(pgd, 0x1000)]
  rw [List.map_append, List.append_assoc] at hperm
  exact hperm

theorem ZeroedPgd.run (h : ZeroedPgd pgd m₀) (hr : Reach (mapCall pgd) (fun _ _ => True) m₀ m) :
    Built pgd m₀ m :=
  hr.inv h.built fun _ _ _ hI _ hs => hI.map hs

theorem mem_pageBlocks (L : Blocks) (hp : p ∈ subTables d m.words pgd) :
    (p, 0x1000) ∈ pageBlocks (subTables d m.words pgd) ++ L := by
  simp only [pageBlocks, List.mem_append, List.mem_map]
  exact Or.inl ⟨p, hp, rfl⟩

/-- The tables are the blocks that were not there before. -/
theorem Built.mem_iff (h : Built pgd m₀ m) (hlive : ∃ n, m₀.alloc.Region pgd n) :
    p ∈ subTables 3 m.words pgd ↔
      (∃ n, m.alloc.Region p n) ∧ ∀ n, ¬ m₀.alloc.Region p n := by
  have hh := h.holds.holds
  constructor
  · intro hp
    have hm := mem_pageBlocks [(pgd, 0x1000)] hp
    have hne : p ≠ pgd := fun heq => h.tree.notMem (by rwa [heq] at hp)
    obtain ⟨n, hn, -⟩ := hh.backed _ hm
    exact ⟨⟨n, hn⟩, fun k hk => hh.apart _ hm k ⟨hk, by simpa using hne⟩⟩
  · rintro ⟨⟨n, hn⟩, hnew⟩
    cases hh.total p n hn with
    | inl hb => exact absurd hb.1 (hnew n)
    | inr hm =>
        rw [addrs_append, addrs_pageBlocks, List.mem_append] at hm
        refine hm.resolve_right fun heq => ?_
        obtain rfl : p = pgd := by simpa using heq
        obtain ⟨k, hk⟩ := hlive
        exact hnew k hk

/-! ## tearing down -/

/-- What `mmu_free_page_tables` does after the calls that led from `m₀` to `m`:
it frees the pages `freed` and ends in `m'`. -/
structure TornDown (pgd : Nat) (m₀ m : TableMem) (freed : List Nat) (m' : TableMem) : Prop where
  once : freed.Nodup
  tables : ∀ p, p ∈ freed ↔ (∃ n, m.alloc.Region p n) ∧ ∀ n, ¬ m₀.alloc.Region p n
  root : pgd ∉ freed
  leaf : ∀ va e, lookup 3 m.words pgd va = some e → ¬ m₀.alloc.FreePage (tableChild e) →
    tableChild e ∉ freed
  regions : ∀ p n, m'.alloc.Region p n ↔ m₀.alloc.Region p n
  empty : ∀ i < 512, m'.words (pgd + 8 * i) = 0

/-- A table lies in memory that was free. -/
theorem Built.freePage (h : Built pgd m₀ m) (h₀ : m₀.alloc.Settled)
    (hlive : ∃ n, m₀.alloc.Region pgd n) (hp : p ∈ subTables 3 m.words pgd) :
    m₀.alloc.FreePage p := by
  obtain ⟨T₀, hT₀⟩ := h₀
  obtain ⟨T, hT⟩ := h.holds.settled
  obtain ⟨n, hn, hle⟩ := h.holds.holds.backed _ (mem_pageBlocks [(pgd, 0x1000)] hp)
  exact h.grows.freePage hT₀ hT hn ((h.mem_iff hlive).mp hp).2 hle

/-- **Tearing down** page tables: after any calls of `map_one_page` on a table
that was empty `mmu_free_page_tables` returns, and frees exactly the tables
that the calls made. -/
theorem mmuFreePageTables_run (h₀ : ZeroedPgd pgd m₀)
    (hr : Reach (mapCall pgd) (fun _ _ => True) m₀ m) :
    ∃ freed m', freeTablesLog 2 (virtToPhys pgd) m = some (freed, m') ∧
      mmuFreePageTables 2 (virtToPhys pgd) m = some m' ∧ TornDown pgd m₀ m freed m' := by
  have hb := h₀.run hr
  have hlive : ∃ n, m₀.alloc.Region pgd n := h₀.live.imp fun _ hn => hn.1
  obtain ⟨n, hn⟩ := hlive
  have hpgd : physToVirt (virtToPhys pgd) = pgd := by
    obtain ⟨-, -, hhi⟩ := h₀.settled.managed hn
    refine physToVirt_virtToPhys ?_
    unfold buddyMemoryBase memorySize totalFrame frameSize at hhi
    omega
  -- the caller holds the tables and nothing else
  have hheld : m.alloc.Holds (outside m.alloc.Region (pageBlocks (subTables 3 m.words pgd)))
      (pageBlocks (subTables 3 m.words pgd) ++ []) := by
    rw [List.append_nil]
    refine ⟨hb.holds.settled, .of_live ?_ fun e he => ?_⟩
    · rw [addrs_pageBlocks]
      exact (List.nodup_cons.mp hb.tree.nodup).2
    · exact hb.holds.holds.backed e (List.mem_append_left _ he)
  have htree := hb.tree
  rw [← hpgd] at htree hheld
  obtain ⟨freed, m', hlog, hh, -, hperm, hzero, -⟩ := freeTablesLog_spec 2 _ m [] htree hheld
  rw [hpgd] at hperm hzero hh
  have hmem : ∀ p, p ∈ freed ↔ (∃ n, m.alloc.Region p n) ∧ ∀ n, ¬ m₀.alloc.Region p n :=
    fun p => (hperm.mem_iff).trans (hb.mem_iff ⟨n, hn⟩)
  refine ⟨freed, m', hlog, ?_, ?_, hmem, ?_, ?_, ?_, hzero⟩
  · rw [← freeTablesLog_erase, hlog]
    rfl
  · exact hperm.nodup_iff.mpr (List.nodup_cons.mp hb.tree.nodup).2
  · exact fun hin => hb.tree.notMem (hperm.mem_iff.mp hin)
  · intro va e _ hfree hin
    exact hfree (hb.freePage h₀.settled ⟨n, hn⟩ (hperm.mem_iff.mp hin))
  · intro p k
    constructor
    · intro hk
      have hout := (hh.holds.total p k hk).resolve_right (by simp)
      have hp : ¬ p ∈ subTables 3 m.words pgd := by simpa only [addrs_pageBlocks] using hout.2
      rw [hb.mem_iff ⟨n, hn⟩, not_and, not_forall_not] at hp
      obtain ⟨j, hj⟩ := hp ⟨k, hout.1⟩
      obtain ⟨T, hT⟩ := hb.holds.settled
      rwa [hT.region_size hout.1 (hb.grows.keep p j hj)]
    · intro hk
      refine hh.holds.keep p k ⟨hb.grows.keep p k hk, ?_⟩
      rw [addrs_pageBlocks, hb.mem_iff ⟨n, hn⟩]
      exact fun hnew => hnew.2 k hk

/-- One page is mapped, and the three tables for it are torn down. -/
theorem mmuFreePageTables_run_boot : ∃ pgd m₀ m freed m',
    mapOnePage pgd 0x400000 0x80000 pdUnx m₀ = some m ∧
      mmuFreePageTables 2 (virtToPhys pgd) m = some m' ∧ TornDown pgd m₀ m freed m' := by
  obtain ⟨p, a, hzero, hsupply⟩ := smallBoot_pgd 0x400000
  obtain ⟨m, hm, -⟩ := mapOnePage_walk 0x400000 0x80000 pdUnx hzero .init
    (by decide) (by decide) (by decide) hsupply
  obtain ⟨freed, m', -, hfree, htorn⟩ :=
    mmuFreePageTables_run hzero (.step ⟨0x400000, 0x80000, pdUnx⟩ .init trivial hm)
  exact ⟨p, _, m, freed, m', hm, hfree, htorn⟩

end RpiKernel
