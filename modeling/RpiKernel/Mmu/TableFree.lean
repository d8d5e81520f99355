import RpiKernel.Memory.Room
import RpiKernel.Mmu.TableTree

/-!
# RpiKernel.Mmu.TableFree

`mmu_free_page_tables` gives back exactly the tables below the first one, each
of them once, and leaves every entry of the first one empty; it takes no room.

`freeTablesLog` is the same function with the pointers that it gives to `kfree`,
in order (`freeTablesLog_erase`).
-/

namespace RpiKernel

open Custody

variable {base : Nat → Nat → Prop} {L : Blocks} {m m' m₁ : TableMem} {t d i : Nat}

/-! ## the pointers given to `kfree` -/

/-- `freeEntry`, with the pointers that it gives to `kfree`. -/
def freeEntryLog (below : Nat → TableMem → Option (List Nat × TableMem)) (tableVirt i : Nat)
    (m : TableMem) : Option (List Nat × TableMem) :=
  let e := m.words (tableVirt + 8 * i)
  if e ≠ 0 ∧ e &&& pdTable ≠ 0 then
    match below (e &&& entryAddrMask) m with
    | none => none
    | some (ps, m) =>
        (kfree (physToVirt (e &&& entryAddrMask)) m.alloc).map fun a =>
          (ps ++ [physToVirt (e &&& entryAddrMask)],
            ⟨a, Function.update m.words (tableVirt + 8 * i) 0⟩)
  else some ([], m)

/-- The loop over the entries. -/
def freeEntriesLog (below : Nat → TableMem → Option (List Nat × TableMem)) (tableVirt : Nat) :
    List Nat → TableMem → Option (List Nat × TableMem)
  | [], m => some ([], m)
  | i :: is, m =>
      match freeEntryLog below tableVirt i m with
      | none => none
      | some (ps, m) => (freeEntriesLog below tableVirt is m).map fun r => (ps ++ r.1, r.2)

/-- `mmuFreePageTables`, with the pointers that it gives to `kfree`. -/
def freeTablesLog : Nat → Nat → TableMem → Option (List Nat × TableMem)
  | 0, pageTable, m =>
      freeEntriesLog (fun _ m => some ([], m)) (physToVirt pageTable) (List.range 512) m
  | d + 1, pageTable, m =>
      freeEntriesLog (freeTablesLog d) (physToVirt pageTable) (List.range 512) m

section

variable {rec : Nat → TableMem → Option (List Nat × TableMem)}
  {rec' : Nat → TableMem → Option TableMem}

theorem freeEntryLog_erase (h : ∀ p m, (rec p m).map Prod.snd = rec' p m) (t i : Nat)
    (m : TableMem) : (freeEntryLog rec t i m).map Prod.snd = freeEntry rec' t i m := by
  unfold freeEntryLog freeEntry
  dsimp only
  rw [← h]
  split
  · cases rec (m.words (t + 8 * i) &&& entryAddrMask) m with
    | none => rfl
    | some r => simp [Option.map_map, Function.comp_def]
  · rfl

theorem freeEntriesLog_erase (h : ∀ p m, (rec p m).map Prod.snd = rec' p m) (t : Nat)
    (is : List Nat) (m : TableMem) : (freeEntriesLog rec t is m).map Prod.snd =
      is.foldlM (fun m i => freeEntry rec' t i m) m := by
  induction is generalizing m with
  | nil => rfl
  | cons i is ih =>
      rw [List.foldlM_cons, freeEntriesLog, ← freeEntryLog_erase h]
      cases freeEntryLog rec t i m with
      | none => rfl
      | some r =>
          have hrest := ih r.2
          simp only [Option.map_map, Function.comp_def] at hrest ⊢
          exact hrest

/-- Without the pointers it is `mmu_free_page_tables`. -/
theorem freeTablesLog_erase (d pageTable : Nat) (m : TableMem) :
    (freeTablesLog d pageTable m).map Prod.snd = mmuFreePageTables d pageTable m := by
  induction d generalizing pageTable m with
  | zero => exact freeEntriesLog_erase (fun _ _ => rfl) _ _ m
  | succ d ih => exact freeEntriesLog_erase ih _ _ m

end

/-! ## emptying a table -/

/-- Some entries of the table at `t` have been emptied and what was below
them given back, the pages `freed`; the caller holds the rest, and `L`. -/
structure Pruned (base : Nat → Nat → Prop) (L : Blocks) (d t : Nat) (freed : List Nat)
    (m m' : TableMem) : Prop where
  tree : Tree (d + 1) m'.words t
  holds : m'.alloc.Holds base (pageBlocks (subTables (d + 1) m'.words t) ++ L)
  room : ∀ n, m.alloc.Room n → m'.alloc.Room n
  perm : (subTables (d + 1) m.words t).Perm (freed ++ subTables (d + 1) m'.words t)
  entries : ∀ j < 512, m.words (t + 8 * j) = 0 → m'.words (t + 8 * j) = 0
  outside : ∀ q, q % 0x1000 = 0 → q ∉ t :: subTables (d + 1) m.words t →
    SameTable m.words m'.words q

theorem Pruned.refl (h : Tree (d + 1) m.words t)
    (hh : m.alloc.Holds base (pageBlocks (subTables (d + 1) m.words t) ++ L)) :
    Pruned base L d t [] m m := by
  refine ⟨h, hh, fun _ hr => hr, ?_, fun _ _ hz => hz, fun _ _ _ _ _ => rfl⟩
  rw [List.nil_append]

theorem Pruned.trans {freed freed' : List Nat} (h : Pruned base L d t freed m m₁)
    (h' : Pruned base L d t freed' m₁ m') : Pruned base L d t (freed ++ freed') m m' := by
  have hperm := h.perm.trans (h'.perm.append_left freed)
  rw [← List.append_assoc] at hperm
  refine ⟨h'.tree, h'.holds, fun n hr => h'.room n (h.room n hr), hperm,
    fun j hj hz => h'.entries j hj (h.entries j hj hz),
    fun q hq hqn j hj => ?_⟩
  have hqn₁ : q ∉ t :: subTables (d + 1) m₁.words t := fun hm => by
    rw [List.mem_cons] at hm
    exact hqn (List.mem_cons.mpr (hm.imp_right fun hs =>
      h.perm.mem_iff.mpr (List.mem_append_right _ hs)))
  rw [h'.outside q hq hqn₁ j hj, h.outside q hq hqn j hj]

/-- What a recursive call has to do: free the tables below, and touch no
others. -/
def Frees (base : Nat → Nat → Prop) (d : Nat)
    (below : Nat → TableMem → Option (List Nat × TableMem)) : Prop :=
  ∀ pageTable m L, Tree d m.words (physToVirt pageTable) →
    m.alloc.Holds base (pageBlocks (subTables d m.words (physToVirt pageTable)) ++ L) →
    ∃ freed m', below pageTable m = some (freed, m') ∧ m'.alloc.Holds base L ∧
      (∀ n, m.alloc.Room n → m'.alloc.Room n) ∧
      freed.Perm (subTables d m.words (physToVirt pageTable)) ∧
      ∀ q, q % 0x1000 = 0 →
        q ∉ physToVirt pageTable :: subTables d m.words (physToVirt pageTable) →
        SameTable m.words m'.words q

/-- Taking the entry `i` out of a tree. -/
theorem Tree.clear {w w₁ : Nat → Nat} (h : Tree (d + 1) w t) (hi : i < 512)
    (hout : ∀ q, q % 0x1000 = 0 → q ∉ below d w t i → SameTable w w₁ q) :
    Tree (d + 1) (Function.update w₁ (t + 8 * i) 0) t ∧
      (subTables (d + 1) w t).Perm
        (below d w t i ++ subTables (d + 1) (Function.update w₁ (t + 8 * i) 0) t) := by
  have htable : SameTable w w₁ t := hout t h.aligned fun hm => h.notMem (below_subset hi hm)
  have helse : Elsewhere d w (Function.update w₁ (t + 8 * i) 0) t i := by
    constructor
    · intro j hj hji
      rw [Function.update_of_ne (by omega), htable j hj]
    · intro j hj hji q hq k hk
      have hqs := below_subset hj hq
      have hqt : q ≠ t := fun heq => h.notMem (by rwa [heq] at hqs)
      rw [Function.update_of_ne (entry_ne (subTables_aligned hqs) h.aligned hqt hk hi)]
      exact hout q (subTables_aligned hqs) (fun hqi => h.siblings hj hi hji hq hqi) k hk
  have hzero : Function.update w₁ (t + 8 * i) 0 (t + 8 * i) = 0 := Function.update_self ..
  have hperm : (subTables (d + 1) w t).Perm
      (below d w t i ++ subTables (d + 1) (Function.update w₁ (t + 8 * i) 0) t) := by
    have hbelow : (below d w t i).Perm
        (below d w t i ++ below d (Function.update w₁ (t + 8 * i) 0) t i) := by
      rw [below, below, hzero, if_pos rfl, List.append_nil]
    exact perm_flatMap List.nodup_range (List.mem_range.mpr hi)
      (fun j hj hji => (helse.below (List.mem_range.mp hj) hji).symm) hbelow
  refine ⟨⟨h.aligned, helse.entries h.entries fun hne => absurd hzero hne, ?_⟩, hperm⟩
  have hnd := h.nodup
  rw [List.nodup_cons, hperm.mem_iff, hperm.nodup_iff, List.mem_append, not_or] at hnd
  exact List.nodup_cons.mpr ⟨hnd.1.2, (List.nodup_append.mp hnd.2).2.1⟩

/-- One entry is emptied. -/
theorem freeEntryLog_spec {rec : Nat → TableMem → Option (List Nat × TableMem)}
    (hrec : Frees base d rec) (h : Tree (d + 1) m.words t)
    (hh : m.alloc.Holds base (pageBlocks (subTables (d + 1) m.words t) ++ L)) (hi : i < 512) :
    ∃ freed m', freeEntryLog rec t i m = some (freed, m') ∧ Pruned base L d t freed m m' ∧
      m'.words (t + 8 * i) = 0 := by
  by_cases he : m.words (t + 8 * i) = 0
  · exact ⟨[], m, if_neg fun hc => hc.1 he, .refl h hh, he⟩
  · have hvalid := (h.entries i hi he).1
    have hcond : m.words (t + 8 * i) ≠ 0 ∧ m.words (t + 8 * i) &&& pdTable ≠ 0 := by
      rw [hvalid]
      exact ⟨he, by decide⟩
    have hbelow : below d m.words t i = tableChild (m.words (t + 8 * i)) ::
        subTables d m.words (tableChild (m.words (t + 8 * i))) := if_neg he
    -- the blocks below the entry, the table it points to, and the others
    have hout₀ : ∀ q, q % 0x1000 = 0 → q ∉ below d m.words t i → SameTable m.words m.words q :=
      fun _ _ _ _ _ => rfl
    have hperm₀ := (h.clear hi hout₀).2
    have hsplit : (pageBlocks (subTables (d + 1) m.words t) ++ L).Perm
        (pageBlocks (subTables d m.words (tableChild (m.words (t + 8 * i)))) ++
          ((tableChild (m.words (t + 8 * i)), 0x1000) :: (pageBlocks
            (subTables (d + 1) (Function.update m.words (t + 8 * i) 0) t) ++ L))) := by
      rw [hbelow] at hperm₀
      have hmap := (hperm₀.map fun p => (p, 0x1000)).append_right L
      rw [List.cons_append, List.map_cons, List.map_append, List.cons_append,
        List.append_assoc] at hmap
      exact hmap.trans List.perm_middle.symm
    obtain ⟨ps, m₁, hm₁, hh₁, hroom₁, hps, hout₁⟩ := hrec _ m _ (h.child hi he) (hh.perm hsplit)
    have hout : ∀ q, q % 0x1000 = 0 → q ∉ below d m.words t i → SameTable m.words m₁.words q :=
      fun q hq hqn => hout₁ q hq (by rwa [hbelow] at hqn)
    obtain ⟨htree, hperm⟩ := h.clear hi hout
    obtain ⟨a, hfree, hh₂⟩ := hh₁.kfree
    have hsame : subTables (d + 1) (Function.update m.words (t + 8 * i) 0) t =
        subTables (d + 1) (Function.update m₁.words (t + 8 * i) 0) t := by
      have hnd := h.nodup
      rw [List.nodup_cons, hperm₀.nodup_iff, hperm₀.mem_iff] at hnd
      refine (subTables_congr fun q hq j hj => ?_).symm
      have hqa : q % 0x1000 = 0 := by
        cases List.mem_cons.mp hq with
        | inl heq => exact heq ▸ h.aligned
        | inr hs => exact subTables_aligned hs
      have hqi : q ∉ below d m.words t i := fun hb => by
        cases List.mem_cons.mp hq with
        | inl heq =>
            rw [heq] at hb
            exact hnd.1 (List.mem_append_left _ hb)
        | inr hs => exact (List.nodup_append.mp hnd.2).2.2 q hb q hs rfl
      by_cases haddr : q + 8 * j = t + 8 * i
      · rw [haddr, Function.update_self, Function.update_self]
      · rw [Function.update_of_ne haddr, Function.update_of_ne haddr, hout q hqa hqi j hj]
    -- the tables below the entry, and last the table it points to
    have hfreed : (ps ++ [tableChild (m.words (t + 8 * i))]).Perm (below d m.words t i) := by
      rw [hbelow]
      exact (hps.append_right _).trans List.perm_append_comm
    refine ⟨ps ++ [tableChild (m.words (t + 8 * i))], ⟨a, Function.update m₁.words (t + 8 * i) 0⟩, ?_,
      ⟨htree, ?_, fun n hr => hh₁.kfree_room (hroom₁ n hr) hfree, ?_, ?_, ?_⟩, Function.update_self ..⟩
    · unfold freeEntryLog
      dsimp only
      rw [if_pos hcond, hm₁]
      dsimp only
      rw [show physToVirt (m.words (t + 8 * i) &&& entryAddrMask) =
        tableChild (m.words (t + 8 * i)) from rfl, hfree]
      rfl
    · rw [← hsame]
      exact hh₂
    · exact hperm.trans (hfreed.symm.append_right _)
    · intro j hj hz
      by_cases hji : j = i
      · subst hji
        exact Function.update_self ..
      · have htb : t ∉ below d m.words t i := fun hb => h.notMem (below_subset hi hb)
        dsimp only
        rw [Function.update_of_ne (by omega), hout t h.aligned htb j hj, hz]
    · intro q hq hqn j hj
      rw [List.mem_cons, not_or] at hqn
      dsimp only
      rw [Function.update_of_ne (entry_ne hq h.aligned hqn.1 hj hi)]
      exact hout q hq (fun hb => hqn.2 (below_subset hi hb)) j hj

/-- The loop over the entries. -/
theorem freeEntriesLog_spec {rec : Nat → TableMem → Option (List Nat × TableMem)}
    (hrec : Frees base d rec) (is : List Nat) (his : ∀ i ∈ is, i < 512) (h : Tree (d + 1) m.words t)
    (hh : m.alloc.Holds base (pageBlocks (subTables (d + 1) m.words t) ++ L)) :
    ∃ freed m', freeEntriesLog rec t is m = some (freed, m') ∧ Pruned base L d t freed m m' ∧
      ∀ i ∈ is, m'.words (t + 8 * i) = 0 := by
  induction is generalizing m with
  | nil => exact ⟨[], m, rfl, .refl h hh, by simp⟩
  | cons i is ih =>
      have hi := his i List.mem_cons_self
      obtain ⟨ps, m₁, hm₁, hp₁, hz₁⟩ := freeEntryLog_spec hrec h hh hi
      obtain ⟨qs, m', hm', hp', hz'⟩ :=
        ih (fun j hj => his j (List.mem_cons_of_mem _ hj)) hp₁.tree hp₁.holds
      refine ⟨ps ++ qs, m', ?_, hp₁.trans hp', fun j hj => ?_⟩
      · rw [freeEntriesLog, hm₁]
        dsimp only
        rw [hm']
        rfl
      · cases List.mem_cons.mp hj with
        | inl heq => exact heq ▸ hp'.entries i hi hz₁
        | inr htail => exact hz' j htail

/-- All entries of a table. -/
theorem freeTable_spec {rec : Nat → TableMem → Option (List Nat × TableMem)}
    (hrec : Frees base d rec) (h : Tree (d + 1) m.words t)
    (hh : m.alloc.Holds base (pageBlocks (subTables (d + 1) m.words t) ++ L)) :
    ∃ freed m', freeEntriesLog rec t (List.range 512) m = some (freed, m') ∧
      m'.alloc.Holds base L ∧ (∀ n, m.alloc.Room n → m'.alloc.Room n) ∧
      freed.Perm (subTables (d + 1) m.words t) ∧
      (∀ i < 512, m'.words (t + 8 * i) = 0) ∧
      ∀ q, q % 0x1000 = 0 → q ∉ t :: subTables (d + 1) m.words t →
        SameTable m.words m'.words q := by
  obtain ⟨freed, m', hm', hp, hz⟩ :=
    freeEntriesLog_spec hrec (List.range 512) (fun i hi => List.mem_range.mp hi) h hh
  have hz' : ∀ i < 512, m'.words (t + 8 * i) = 0 := fun i hi => hz i (List.mem_range.mpr hi)
  have hempty := (empty_table (d := d + 1) hz' 0).1
  have hh' := hp.holds
  have hperm := hp.perm
  rw [hempty] at hh' hperm
  rw [List.append_nil] at hperm
  exact ⟨freed, m', hm', hh', hp.room, hperm.symm, hz', hp.outside⟩

/-- **Freeing page tables.**  Every table below the first one is given back
once, and nothing else; the entries of the first one are empty. -/
theorem freeTablesLog_spec (d pageTable : Nat) (m : TableMem) (L : Blocks)
    (h : Tree (d + 1) m.words (physToVirt pageTable))
    (hh : m.alloc.Holds base (pageBlocks (subTables (d + 1) m.words (physToVirt pageTable)) ++ L)) :
    ∃ freed m', freeTablesLog d pageTable m = some (freed, m') ∧ m'.alloc.Holds base L ∧
      (∀ n, m.alloc.Room n → m'.alloc.Room n) ∧
      freed.Perm (subTables (d + 1) m.words (physToVirt pageTable)) ∧
      (∀ i < 512, m'.words (physToVirt pageTable + 8 * i) = 0) ∧
      ∀ q, q % 0x1000 = 0 →
        q ∉ physToVirt pageTable :: subTables (d + 1) m.words (physToVirt pageTable) →
        SameTable m.words m'.words q := by
  induction d generalizing pageTable m L with
  | zero =>
      have hrec : Frees base 0 fun _ m => some ([], m) :=
        fun _ m L _ hh => ⟨[], m, rfl, hh, fun _ hr => hr, .refl _, fun _ _ _ _ _ => rfl⟩
      exact freeTable_spec hrec h hh
  | succ d ih =>
      have hrec : Frees base (d + 1) (freeTablesLog d) := fun pageTable m L h hh => by
        obtain ⟨freed, m', hm', hh', hroom, hperm, -, hout⟩ := ih pageTable m L h hh
        exact ⟨freed, m', hm', hh', hroom, hperm, hout⟩
      exact freeTable_spec hrec h hh

theorem mmuFreePageTables_spec (d pageTable : Nat) (m : TableMem) (L : Blocks)
    (h : Tree (d + 1) m.words (physToVirt pageTable))
    (hh : m.alloc.Holds base (pageBlocks (subTables (d + 1) m.words (physToVirt pageTable)) ++ L)) :
    ∃ m', mmuFreePageTables d pageTable m = some m' ∧ m'.alloc.Holds base L ∧
      (∀ n, m.alloc.Room n → m'.alloc.Room n) ∧
      (∀ i < 512, m'.words (physToVirt pageTable + 8 * i) = 0) ∧
      ∀ q, q % 0x1000 = 0 →
        q ∉ physToVirt pageTable :: subTables (d + 1) m.words (physToVirt pageTable) →
        SameTable m.words m'.words q := by
  obtain ⟨freed, m', hm', hh', hroom, -, hz, hout⟩ := freeTablesLog_spec d pageTable m L h hh
  refine ⟨m', ?_, hh', hroom, hz, hout⟩
  rw [← freeTablesLog_erase, hm']
  rfl

end RpiKernel
