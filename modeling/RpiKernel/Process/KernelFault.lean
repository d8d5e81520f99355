import RpiKernel.Process.Fault
import RpiKernel.Process.Ownership

/-!
# RpiKernel.Process.KernelFault

A page fault of a program goes through `el0_sync_64` to the handler that maps
the page.  The same fault of the kernel, on a buffer of the program, goes
through `el1h_sync` to `invalid_exception_router`, which does nothing
(`transparent_iff`).
-/

namespace RpiKernel

open Custody Sched Runs

/-- `MEMFAIL_DATA_ABORT_LOWER`. -/
def memfailDataAbortLower : Nat := 0b100100

/-- `MEMFAIL_INST_ABORT_LOWER`. -/
def memfailInstAbortLower : Nat := 0b100000

namespace Kernel

/-- `invalid_exception_router`. -/
def invalidExceptionRouter (_x0 : Nat) : KernelM Unit := pure ()

/-- `el1h_sync`: any synchronous exception that the kernel takes. -/
def el1hSync : KernelM Unit := invalidExceptionRouter 4

/-- `el0_sync_64` up to `check_signal`, when `esr_el1` has the class `ec`; `svc`
are the system calls of `sync_64_router`. -/
def el0Sync64 (svc : KernelM Unit) (n ec far iss : Nat) : KernelM Unit :=
  if ec = memfailDataAbortLower ∨ ec = memfailInstAbortLower then mmuMemfailAbortHandle n far iss
  else svc

/-- The descriptor that translates `far` for thread `t`. -/
def translation (t far : Nat) (k : Kernel) : Option Nat :=
  translate k.words (physToVirt (k.procs t).context.pgd) far

/-- The fault has the same outcome in the kernel and in the program: whatever
translation the way through `el0_sync_64` leaves, `el1h_sync` leaves too. -/
def Transparent (far iss : Nat) (k : Kernel) : Prop :=
  ∀ svc n ec k₁, ec = memfailDataAbortLower ∨ ec = memfailInstAbortLower →
    el0Sync64 svc n ec far iss k = some ((), k₁) →
      ∃ k₂, el1hSync k = some ((), k₂) ∧
        k₂.translation k.sched.currThread far = k₁.translation k.sched.currThread far

variable {k k₁ : Kernel} {far iss n : Nat} {v : Vma} {base : Nat → Nat → Prop} {L : Blocks}

/-! ## the two ways -/

theorem el1hSync_same : el1hSync k = some ((), k) := rfl

theorem el0Sync64_abort {svc : KernelM Unit} {ec : Nat}
    (hec : ec = memfailDataAbortLower ∨ ec = memfailInstAbortLower) :
    el0Sync64 svc n ec far iss = mmuMemfailAbortHandle n far iss := if_pos hec

theorem mmuMemfailAbortHandle_some :
    mmuMemfailAbortHandle n far iss k = some ((), k₁) ↔ ∃ b k₂, memfailAbort far iss k = some (b, k₂) ∧
      (b = true ∧ onSched (schedule n) k₂ = some ((), k₁) ∨ b = false ∧ k₂ = k₁) := by
  unfold mmuMemfailAbortHandle
  rw [bind_some]
  constructor
  case mp =>
    rintro ⟨b, k₂, hm, hrest⟩
    cases b with
    | true => exact ⟨true, k₂, hm, Or.inl ⟨rfl, by simpa using hrest⟩⟩
    | false =>
        cases hrest
        exact ⟨false, k₁, hm, Or.inr ⟨rfl, rfl⟩⟩
  case mpr =>
    rintro ⟨b, k₂, hm, ⟨rfl, hs⟩ | ⟨rfl, rfl⟩⟩
    · exact ⟨true, k₂, hm, by simpa using hs⟩
    · exact ⟨false, k₂, hm, rfl⟩

/-- The page tables of the current thread. -/
def CurrentPgd (k : Kernel) : Prop :=
  PgdOk (physToVirt (k.procs k.sched.currThread).context.pgd) k.toTableMem

/-- Page tables that are the thread's own. -/
theorem Owns.pgdOk {size : Nat → Nat} {R : Blocks} (h : Owns size base R k.sched.currThread k) :
    k.CurrentPgd := by
  refine ⟨h.tree, base, _, h.holds, fun q hq => ?_⟩
  rw [addrs_append]
  exact List.mem_append_left _ (Process.mem_blocks_pgd size k.words _ hq)

/-- An area that contains the address and ends below `2 ^ 64` is taken. -/
theorem faultHits_of_contains (h : v.Contains far) (hend : v.virtAddr + v.areaSize < 2 ^ 64) :
    faultHits far v := by
  unfold Vma.Contains at h
  unfold faultHits
  omega

/-! ## the page and the address -/

theorem tableIndex_pageStart (far d : Nat) : tableIndex (pageStart far) d = tableIndex far d := by
  have hdiv : pageStart far / 2 ^ 12 = far / 2 ^ 12 := by
    unfold pageStart
    omega
  unfold tableIndex
  rw [Nat.pow_add, ← Nat.div_div_eq_div_mul, ← Nat.div_div_eq_div_mul, hdiv]

/-- The walk for the page is the walk for the address. -/
theorem lookup_pageStart {d t : Nat} {w : Nat → Nat} : lookup d w t (pageStart far) = lookup d w t far := by
  induction d generalizing t with
  | zero => simp only [lookup, tableIndex_pageStart]
  | succ d ih => simp only [lookup, tableIndex_pageStart, ih]

theorem missing_pageStart {d t : Nat} {w : Nat → Nat} :
    missing d w t (pageStart far) = missing d w t far := by
  induction d generalizing t with
  | zero => rfl
  | succ d ih => simp only [missing, tableIndex_pageStart, ih]

/-- The tables that `map_one_page` makes for `far` can be had. -/
def PageSupply (far : Nat) (k : Kernel) : Prop :=
  CanSupply (missing 3 k.words (physToVirt (k.procs k.sched.currThread).context.pgd) far) k.alloc

/-- Mapping the page of `far` gives it a translation. -/
theorem mapPage_translation (pa rwx : Nat) (h : k.CurrentPgd) (h48 : far < 2 ^ 48) :
    (k.PageSupply far → ∃ m, mapPage far pa rwx k = some m) ∧
      ∀ m, mapPage far pa rwx k = some m → k.PageSupply far ∧
        ({ k with toTableMem := m } : Kernel).translation k.sched.currThread far =
          some (pageEntry pa (faultFlag rwx)) := by
  obtain ⟨base, L, hh, hin⟩ := h.held
  obtain ⟨hret, hmap⟩ := mapOnePage_spec (pageStart far) pa (faultFlag rwx) h.tree hh hin
  rw [missing_pageStart] at hret hmap
  refine ⟨hret, fun m hm => ?_⟩
  obtain ⟨hsup, new, -, hmapped, -⟩ := hmap m hm
  refine ⟨hsup, ?_⟩
  have hhere := hmapped.here
  rw [lookup_pageStart] at hhere
  show translate m.words _ far = _
  rw [translate, if_pos h48]
  exact hhere

/-- The program's fault maps the page, the kernel's does not. -/
theorem not_transparent (h : k.CurrentPgd) (h48 : far < 2 ^ 48)
    (hiss : iss &&& 0x3f ∈ translationFaults) (haligned : v.virtAddr % 0x1000 = 0)
    (hf : ((k.procs k.sched.currThread).vmaList.find? fun v => faultHits far v) = some v)
    (hnone : k.translation k.sched.currThread far = none) (hsup : k.PageSupply far) :
    ¬ k.Transparent far iss := by
  intro htrans
  obtain ⟨hret, hmap⟩ := mapPage_translation (v.pageOf far) v.rwx h h48
  obtain ⟨m, hm⟩ := hret hsup
  have hpage := memfailAbort_page hf hiss haligned (by omega)
  rw [hm] at hpage
  have hrun : el0Sync64 (pure ()) 0 memfailDataAbortLower far iss k =
      some ((), { k with toTableMem := m }) := by
    rw [el0Sync64_abort (Or.inl rfl)]
    exact mmuMemfailAbortHandle_some.2 ⟨false, _, hpage, Or.inr ⟨rfl, rfl⟩⟩
  obtain ⟨k₂, hk₂, heq⟩ := htrans _ _ _ _ (Or.inl rfl) hrun
  rw [(hmap m hm).2] at heq
  cases hk₂
  rw [hnone] at heq
  cases heq

/-- **Faults of the kernel.**  Let the page of `far` have no translation.  Then a
fault of the kernel on it ends as a fault of the program does only if the latter
maps nothing either: no area is taken, or there is no memory for the tables. -/
theorem transparent_iff (h : k.CurrentPgd)
    (haligned : ∀ v ∈ (k.procs k.sched.currThread).vmaList, v.virtAddr % 0x1000 = 0)
    (h48 : far < 2 ^ 48) (hiss : iss &&& 0x3f ∈ translationFaults)
    (hnone : k.translation k.sched.currThread far = none) :
    k.Transparent far iss ↔
      (∀ v ∈ (k.procs k.sched.currThread).vmaList, ¬ faultHits far v) ∨ ¬ k.PageSupply far := by
  cases hf : (k.procs k.sched.currThread).vmaList.find? fun v => faultHits far v with
  | none =>
      have hmiss : ∀ v ∈ (k.procs k.sched.currThread).vmaList, ¬ faultHits far v := fun v hv => by
        simpa using List.find?_eq_none.1 hf v hv
      refine iff_of_true (fun svc n ec k₁ hec hrun => ⟨k, el1hSync_same, ?_⟩) (Or.inl hmiss)
      -- the thread is ended
      rw [el0Sync64_abort hec] at hrun
      obtain ⟨b, k₂, hm, hs⟩ := mmuMemfailAbortHandle_some.1 hrun
      rw [memfailAbort_none hf] at hm
      cases hm
      cases hs with
      | inl hs =>
          obtain ⟨s, -, hk⟩ := onSched_some.1 hs.2
          cases hk
          rfl
      | inr hs => cases hs.1
  | some v =>
      have hv := List.mem_of_find?_eq_some hf
      have hhit : faultHits far v := by simpa using List.find?_some hf
      constructor
      case mp =>
        intro htrans
        right
        intro hsup
        exact not_transparent h h48 hiss (haligned v hv) hf hnone hsup htrans
      case mpr =>
        intro hor svc n ec k₁ hec hrun
        rw [el0Sync64_abort hec] at hrun
        obtain ⟨b, k₂, hm, -⟩ := mmuMemfailAbortHandle_some.1 hrun
        rw [memfailAbort_page hf hiss (haligned v hv) (by omega)] at hm
        obtain ⟨m, hm, -⟩ := Option.map_eq_some_iff.1 hm
        cases hor with
        | inl hmiss => exact absurd hhit (hmiss v hv)
        | inr hsup => exact absurd ((mapPage_translation _ _ h h48).2 m hm).1 hsup

/-! ## runs -/

/-- The areas of every thread start at pages. -/
def PagedAreas (k : Kernel) : Prop := ∀ t, ∀ v ∈ (k.procs t).vmaList, v.virtAddr % 0x1000 = 0

/-- Whether areas start at pages is a matter of their ranges. -/
theorem paged_iff {vs : List Vma} :
    (∀ v ∈ vs, v.virtAddr % 0x1000 = 0) ↔ ∀ r ∈ vs.map Vma.range, r.1 % 0x1000 = 0 := by
  simp [Vma.range]

theorem madeAreas_paged : MadeAreas fun v => v.virtAddr % 0x1000 = 0 where
  image p a₁ a₂ := by
    rw [paged_iff, imageAreas_range]
    simp [imageRanges, userKernelBase, userStackBase, ustackSize]
  fixed w s a₁ a₂ a₃ := by
    rw [paged_iff, fixedAreas_range]
    decide
  copy _ _ _ h := h
  mapped _ _ _ _ _ h := h

variable {k₀ : Kernel} {data filesize : Nat} {uart : VnodeRef}

theorem Booted.pagedAreas (hb : k₀.Booted data filesize uart) : PagedAreas k₀ := madeAreas_paged.booted hb

/-- What `transparent_iff` asks for holds in every run: the areas start at pages,
and the page tables are the thread's own as long as the forks are in order. -/
theorem kernelRun_paged (hb : k₀.Booted data filesize uart) :
    (Reach kernelStep (fun _ _ => True) k₀ k → PagedAreas k) ∧
      (Reach kernelStep (fun k a => ForksWell k a.2) k₀ k → k.sched.currThread ≠ 0 → k.CurrentPgd) := by
  refine ⟨madeAreas_paged.reach hb, fun hr h0 => ?_⟩
  have hok := kernelRun_ok hb hr
  exact (hok.toKept.owns (hok.living h0)).pgdOk

/-! ## the first fault -/

/-- Nothing is mapped behind a table without entries. -/
theorem translate_empty {w : Nat → Nat} {pgd : Nat} (h : subTables 3 w pgd = []) :
    translate w pgd far = none := by
  have hentry : w (pgd + 8 * tableIndex far 3) = 0 := by
    by_contra hne
    have hmem : tableChild (w (pgd + 8 * tableIndex far 3)) ∈ subTables 3 w pgd :=
      mem_subTables.2 ⟨_, tableIndex_lt far 3, hne, Or.inl rfl⟩
    rw [h] at hmem
    cases hmem
  unfold translate lookup
  simp [hentry, pdTable]

theorem Booted.unmapped (hb : k₀.Booted data filesize uart) (far : Nat) :
    k₀.translation k₀.sched.currThread far = none := translate_empty hb.noTables

theorem missing_le {d t : Nat} {w : Nat → Nat} : missing d w t far ≤ d := by
  induction d generalizing t with
  | zero => exact Nat.le_refl 0
  | succ d ih =>
      rw [missing]
      split
      · exact Nat.le_refl _
      · exact Nat.le_succ_of_le ih

theorem PageSupply.of_room (h : k.alloc.Room 3) (far : Nat) : k.PageSupply far :=
  (h.mono missing_le).canSupply

/-- `transparent_iff` at an address that is in no area. -/
theorem transparent_nowhere : ∃ k : Kernel, k.Booted 0 1 ⟨0, .uart⟩ ∧ k.Transparent 0x10000 0b000111 := by
  obtain ⟨k, hb, -⟩ := smallBooted ⟨0, .uart⟩ (by decide : 1 ≤ 0x4000)
  have hpgd := (kernelRun_paged hb).2 .init hb.curr_ne
  have hmiss : ∀ r ∈ imageRanges 1 ++ fixedRanges,
      ¬ (r.1 ≤ 0x10000 ∧ (r.1 + r.2) % 2 ^ 64 ≥ 0x10000) := by decide
  rw [← hb.ranges] at hmiss
  have hnot : ∀ v ∈ (k.procs k.sched.currThread).vmaList, ¬ faultHits 0x10000 v :=
    fun v hv => hmiss v.range (List.mem_map_of_mem hv)
  exact ⟨k, hb, (transparent_iff hpgd (hb.pagedAreas _) (by decide) (by decide) (hb.unmapped _)).2
    (Or.inl hnot)⟩

/-- The first program passes a buffer in its image that it has not touched. -/
theorem transparent_fails : ∃ (k : Kernel) (v : Vma), k.Booted 0 1 ⟨0, .uart⟩ ∧
    v ∈ (k.procs k.sched.currThread).vmaList ∧ v.Contains 0 ∧
    k.translation k.sched.currThread 0 = none ∧ ¬ k.Transparent 0 0b000111 := by
  obtain ⟨k, hb, hroom, -⟩ := smallBooted ⟨0, .uart⟩ (by decide : 1 ≤ 0x4000)
  have hpgd := (kernelRun_paged hb).2 .init hb.curr_ne
  have hmem : (userKernelBase, roundPage 1) ∈ (k.procs k.sched.currThread).vmaList.map Vma.range := by
    rw [hb.ranges]
    simp [imageRanges]
  obtain ⟨v, hv, hrange⟩ := List.mem_map.1 hmem
  obtain ⟨hbase, hsize⟩ := Prod.mk.inj hrange
  have hcontains : v.Contains 0 := by
    unfold Vma.Contains
    rw [hbase, hsize]
    decide
  have hhit := faultHits_of_contains hcontains (by rw [hbase, hsize]; decide)
  obtain ⟨w, hw⟩ : ∃ w, ((k.procs k.sched.currThread).vmaList.find? fun v => faultHits 0 v) = some w := by
    rw [← Option.isSome_iff_exists, List.find?_isSome]
    exact ⟨v, hv, by simpa using hhit⟩
  exact ⟨k, v, hb, hv, hcontains, hb.unmapped 0,
    not_transparent hpgd (by decide) (by decide) (hb.pagedAreas _ w (List.mem_of_find?_eq_some hw)) hw
      (hb.unmapped 0) (.of_room (hroom.mono (by decide)) 0)⟩

end Kernel

end RpiKernel
