import RpiKernel.Process.Areas

/-!
# RpiKernel.Process.Fault

The page fault handler and the areas of the thread.  It takes the first area
whose *closed* range meets the address, so that an area which ends at the
address is taken for the one that starts there.  `memfailAbort_isolated` says
when the page that is mapped belongs to the area that contains the address.
-/

namespace RpiKernel

open Custody Sched Runs

/-- `far` is in the area. -/
def Vma.Contains (far : Nat) (v : Vma) : Prop :=
  v.virtAddr ≤ far ∧ far < v.virtAddr + v.areaSize

instance (far : Nat) (v : Vma) : Decidable (v.Contains far) := inferInstanceAs (Decidable (_ ∧ _))

/-- The page of an address. -/
def pageStart (x : Nat) : Nat := x - x % 0x1000

/-- Where the page of `far` is in the memory of an area. -/
def Vma.pageOf (far : Nat) (v : Vma) : Nat := (v.physAddr + (pageStart far - v.virtAddr)) % 2 ^ 64

namespace Kernel

/-- Areas of whole pages that are apart, with 64-bit addresses. -/
structure FaultAreas (vs : List Vma) : Prop where
  aligned : ∀ v ∈ vs, v.virtAddr % 0x1000 = 0 ∧ v.areaSize % 0x1000 = 0 ∧ v.physAddr % 0x1000 = 0
  bounded : ∀ v ∈ vs, v.areaSize < 2 ^ 64 ∧ v.virtAddr + v.areaSize ≤ 2 ^ 64 ∧
    v.physAddr + v.areaSize ≤ 2 ^ 64
  apart : vs.Pairwise fun v w => v.range.Apart w.range

/-- No area that ends at `far` stands in front of the one that contains it, and
that one does not end at `2 ^ 64`. -/
def Unshadowed (far : Nat) : List Vma → Prop
  | [] => True
  | v :: vs =>
      if v.Contains far then v.virtAddr + v.areaSize < 2 ^ 64
      else v.virtAddr + v.areaSize ≠ far ∧ Unshadowed far vs

instance (far : Nat) : ∀ vs, Decidable (Unshadowed far vs)
  | [] => isTrue trivial
  | v :: vs =>
      have := instDecidableUnshadowed far vs
      inferInstanceAs (Decidable (if v.Contains far then _ else _))

/-! ## one page -/

section

variable {d t va pa pa' flag flag' : Nat} {m : TableMem}

/-- Two calls of `map_one_page` for one address have the same outcome when they
write the same descriptor, or find no memory for the tables. -/
theorem mapLoop_eq_iff : mapLoop va pa flag d t m = mapLoop va pa' flag' d t m ↔
    pageEntry pa flag = pageEntry pa' flag' ∨ mapLoop va pa flag d t m = none := by
  induction d generalizing t m with
  | zero =>
      simp only [mapLoop, Option.some.injEq, reduceCtorEq, or_false]
      constructor
      case mp =>
        intro h
        have hw := congrFun (congrArg TableMem.words h) (t + 8 * tableIndex va 0)
        simpa using hw
      case mpr => exact fun h => by rw [h]
  | succ d ih =>
      simp only [mapLoop]
      cases nextTable t (tableIndex va (d + 1)) m with
      | none => simp
      | some r => exact ih

end

variable {far : Nat} {v c : Vma} {vs : List Vma}

/-! ## which area is taken -/

theorem FaultAreas.hits_iff (h : FaultAreas vs) (hv : v ∈ vs) (h64 : far < 2 ^ 64) :
    faultHits far v ↔
      v.Contains far ∧ v.virtAddr + v.areaSize < 2 ^ 64 ∨ v.virtAddr + v.areaSize = far := by
  obtain ⟨hs, hb, -⟩ := h.bounded v hv
  unfold faultHits Vma.Contains
  omega

/-- The first area that is hit is the one that contains the address exactly
when that one is not shadowed. -/
theorem find_hits_eq_iff
    (hhits : ∀ v ∈ vs, faultHits far v ↔
      v.Contains far ∧ v.virtAddr + v.areaSize < 2 ^ 64 ∨ v.virtAddr + v.areaSize = far)
    (h64 : far < 2 ^ 64) :
    (vs.find? fun v => faultHits far v) = (vs.find? fun v => v.Contains far) ↔ Unshadowed far vs := by
  induction vs with
  | nil => simp [Unshadowed]
  | cons v vs ih =>
      have hv := hhits v List.mem_cons_self
      have ih := ih fun w hw => hhits w (List.mem_cons_of_mem v hw)
      unfold Unshadowed
      by_cases hc : v.Contains far
      · rw [if_pos hc]
        by_cases hend : v.virtAddr + v.areaSize < 2 ^ 64
        · have hh : faultHits far v := hv.2 (Or.inl ⟨hc, hend⟩)
          rw [List.find?_cons_of_pos (by simpa using hh), List.find?_cons_of_pos (by simpa using hc)]
          exact iff_of_true rfl hend
        · have hh : ¬ faultHits far v := fun hh => by
            have := hv.1 hh
            omega
          refine iff_of_false (fun he => ?_) hend
          rw [List.find?_cons_of_neg (by simpa using hh), List.find?_cons_of_pos (by simpa using hc)] at he
          exact hh (by simpa using List.find?_some he)
      · rw [if_neg hc]
        by_cases hend : v.virtAddr + v.areaSize = far
        · have hh : faultHits far v := hv.2 (Or.inr hend)
          refine iff_of_false (fun he => ?_) fun hu => hu.1 hend
          rw [List.find?_cons_of_pos (by simpa using hh), List.find?_cons_of_neg (by simpa using hc)] at he
          exact hc (by simpa using List.find?_some he.symm)
        · have hh : ¬ faultHits far v := fun hh => by
            rcases hv.1 hh with h | h
            · exact hc h.1
            · exact hend h
          rw [List.find?_cons_of_neg (by simpa using hh), List.find?_cons_of_neg (by simpa using hc), ih]
          exact ⟨fun hu => ⟨hend, hu⟩, fun hu => hu.2⟩

/-- At most one area contains an address. -/
theorem FaultAreas.find_contains (h : FaultAreas vs) (hv : v ∈ vs) (hc : v.Contains far) :
    (vs.find? fun v => v.Contains far) = some v := by
  cases hf : vs.find? fun v => v.Contains far with
  | none => exact absurd hc (by simpa using List.find?_eq_none.1 hf v hv)
  | some w =>
      by_contra hne
      have hwv : w ≠ v := fun he => hne (he ▸ rfl)
      have hw : w.Contains far := by simpa using List.find?_some hf
      have hsymm : Std.Symm fun v w : Vma => v.range.Apart w.range := ⟨fun _ _ hxy => hxy.symm⟩
      exact h.apart.forall (List.mem_of_find?_eq_some hf) hv hwv far ⟨hw, hc⟩

/-! ## the handler -/

/-- The page of `far` is mapped to `pa`, with the rights of an area. -/
def mapPage (far pa rwx : Nat) (k : Kernel) : Option TableMem :=
  mapOnePage (physToVirt (k.procs k.sched.currThread).context.pgd) (pageStart far) pa (faultFlag rwx)
    k.toTableMem

variable {k : Kernel} {iss : Nat}

theorem memfailAbort_none
    (hf : ((k.procs k.sched.currThread).vmaList.find? fun v => faultHits far v) = none) :
    memfailAbort far iss k =
      some (true, { k with sched := k.sched.setStatus k.sched.currThread .zombie }) := by
  unfold memfailAbort
  rw [currThread_bind, proc_bind, hf]
  rfl

theorem onTables_then (f : TableMem → Option TableMem) (b : Bool) :
    (onTables f >>= fun _ => pure b) k = (f k.toTableMem).map fun m => (b, { k with toTableMem := m }) := by
  show ((f k.toTableMem).map _).bind _ = _
  cases f k.toTableMem <;> rfl

theorem memfailAbort_page
    (hf : ((k.procs k.sched.currThread).vmaList.find? fun v => faultHits far v) = some v)
    (hiss : iss &&& 0x3f ∈ translationFaults) (hv : v.virtAddr % 0x1000 = 0) (h64 : far < 2 ^ 64) :
    memfailAbort far iss k =
      (mapPage far (v.pageOf far) v.rwx k).map fun m => (false, { k with toTableMem := m }) := by
  have hle : v.virtAddr ≤ far := by
    have hh := List.find?_some hf
    simp only [decide_eq_true_eq] at hh
    exact hh.1
  have hoff : far - v.virtAddr - (far - v.virtAddr) % 0x1000 = pageStart far - v.virtAddr := by
    unfold pageStart
    omega
  have hva : (v.virtAddr + (pageStart far - v.virtAddr)) % 2 ^ 64 = pageStart far := by
    unfold pageStart
    omega
  unfold memfailAbort
  rw [currThread_bind, proc_bind, hf]
  simp only [if_pos hiss, hoff, hva]
  exact onTables_then _ false

/-- The handler maps the page of `far` as the area that contains `far` says,
within the memory of that area, and ends the thread when there is none. -/
structure Isolated (far iss : Nat) (k : Kernel) : Prop where
  inside : ∀ v ∈ (k.procs k.sched.currThread).vmaList, v.Contains far →
    memfailAbort far iss k = (mapPage far (v.physAddr + (pageStart far - v.virtAddr)) v.rwx k).map
      (fun m => (false, { k with toTableMem := m })) ∧
    pageStart far - v.virtAddr + 0x1000 ≤ v.areaSize
  outside : (∀ v ∈ (k.procs k.sched.currThread).vmaList, ¬ v.Contains far) →
    memfailAbort far iss k =
      some (true, { k with sched := k.sched.setStatus k.sched.currThread .zombie })

/-- The area that is taken and the one that contains `far` give the same
descriptor, or there is no memory for a table. -/
def Coincides (far : Nat) (k : Kernel) : Prop :=
  ∃ v c, ((k.procs k.sched.currThread).vmaList.find? fun v => faultHits far v) = some v ∧
    c ∈ (k.procs k.sched.currThread).vmaList ∧ c.Contains far ∧
    (pageEntry (v.pageOf far) (faultFlag v.rwx) = pageEntry (c.pageOf far) (faultFlag c.rwx) ∨
      mapPage far (v.pageOf far) v.rwx k = none)

/-- The page lies in the memory of the area. -/
theorem FaultAreas.page (h : FaultAreas vs) (hv : v ∈ vs) (hc : v.Contains far) :
    v.pageOf far = v.physAddr + (pageStart far - v.virtAddr) ∧
      pageStart far - v.virtAddr + 0x1000 ≤ v.areaSize := by
  obtain ⟨ha, hs, hp⟩ := h.aligned v hv
  obtain ⟨-, hb, hpb⟩ := h.bounded v hv
  unfold Vma.Contains at hc
  unfold Vma.pageOf pageStart
  omega

theorem map_page_inj {o o' : Option TableMem}
    (h : o.map (fun m => (false, ({ k with toTableMem := m } : Kernel))) =
      o'.map fun m => (false, ({ k with toTableMem := m } : Kernel))) : o = o' := by
  refine Option.map_injective (fun m m' he => ?_) h
  exact congrArg (fun r : Bool × Kernel => r.2.toTableMem) he

/-- **Page faults.**  On a translation fault the page of the address is mapped
into the area that contains it, and into no other memory, exactly when no area
that ends at the address is taken first, or that makes no difference. -/
theorem memfailAbort_isolated (h : FaultAreas (k.procs k.sched.currThread).vmaList)
    (h64 : far < 2 ^ 64) (hiss : iss &&& 0x3f ∈ translationFaults) :
    Isolated far iss k ↔
      Unshadowed far (k.procs k.sched.currThread).vmaList ∨ Coincides far k := by
  have hiff := find_hits_eq_iff (fun v hv => h.hits_iff hv h64) h64
  constructor
  case mp =>
    intro hi
    rw [← hiff]
    by_contra hno
    rw [not_or] at hno
    obtain ⟨hne, hco⟩ := hno
    cases hc : (k.procs k.sched.currThread).vmaList.find? fun v => v.Contains far with
    | none =>
        have hout := hi.outside fun v hv => by simpa using List.find?_eq_none.1 hc v hv
        cases hf : (k.procs k.sched.currThread).vmaList.find? fun v => faultHits far v with
        | none => exact hne (hf.trans hc.symm)
        | some v =>
            have hv := h.aligned v (List.mem_of_find?_eq_some hf)
            rw [memfailAbort_page hf hiss hv.1 h64] at hout
            obtain ⟨m, -, hm⟩ := Option.map_eq_some_iff.1 hout
            cases (Prod.mk.inj hm).1
    | some c =>
        have hcm := List.mem_of_find?_eq_some hc
        have hcc : c.Contains far := by simpa using List.find?_some hc
        have hin := (hi.inside c hcm hcc).1
        rw [← (h.page hcm hcc).1] at hin
        cases hf : (k.procs k.sched.currThread).vmaList.find? fun v => faultHits far v with
        | none =>
            rw [memfailAbort_none hf] at hin
            obtain ⟨m, -, hm⟩ := Option.map_eq_some_iff.1 hin.symm
            cases (Prod.mk.inj hm).1
        | some v =>
            have hv := h.aligned v (List.mem_of_find?_eq_some hf)
            rw [memfailAbort_page hf hiss hv.1 h64] at hin
            exact hco ⟨v, c, hf, hcm, hcc, mapLoop_eq_iff.1 (map_page_inj hin)⟩
  case mpr =>
    intro hor
    constructor
    case inside =>
      intro c hcm hcc
      refine ⟨?_, (h.page hcm hcc).2⟩
      rw [← (h.page hcm hcc).1]
      rcases hor with hun | ⟨v, c', hf, hcm', hcc', hsame⟩
      · have hf := (hiff.2 hun).trans (h.find_contains hcm hcc)
        exact memfailAbort_page hf hiss (h.aligned c hcm).1 h64
      · have hcc'' := (h.find_contains hcm hcc).symm.trans (h.find_contains hcm' hcc')
        obtain rfl := Option.some.inj hcc''
        rw [memfailAbort_page hf hiss (h.aligned v (List.mem_of_find?_eq_some hf)).1 h64]
        exact congrArg _ (mapLoop_eq_iff.2 hsame)
    case outside =>
      intro hall
      rcases hor with hun | ⟨v, c, -, hcm, hcc, -⟩
      · refine memfailAbort_none ((hiff.2 hun).trans ?_)
        rw [List.find?_eq_none]
        exact fun v hv => by simpa using hall v hv
      · exact absurd hcc (hall c hcm)

/-- A thread with one area of one page. -/
def onePage : Kernel :=
  smallKernel.setProc smallKernel.sched.currThread fun p =>
    { p with vmaList := [⟨0, 0x1000, 0x100000, 0x1000, 0b011, true⟩] }

theorem onePage_areas : (onePage.procs onePage.sched.currThread).vmaList =
    [⟨0, 0x1000, 0x100000, 0x1000, 0b011, true⟩] := by
  unfold onePage
  rw [setProc_sched, setProc_procs]

theorem onePage_faultAreas : FaultAreas (onePage.procs onePage.sched.currThread).vmaList := by
  rw [onePage_areas]
  exact ⟨by simp, by simp, List.pairwise_singleton _ _⟩

theorem memfailAbort_isolated_inside : Isolated 0x1004 0b000111 onePage :=
  (memfailAbort_isolated onePage_faultAreas (by decide) (by decide)).2
    (Or.inl (by rw [onePage_areas]; decide))

/-- The byte behind the area: the frame behind its memory is mapped. -/
theorem memfailAbort_behind : ¬ Isolated 0x2000 0b000111 onePage := by
  intro hi
  have hmem := onePage_areas
  have hout := hi.outside fun v hv => by
    rw [hmem, List.mem_singleton] at hv
    subst hv
    decide
  have hf : ((onePage.procs onePage.sched.currThread).vmaList.find? fun v => faultHits 0x2000 v) =
      some ⟨0, 0x1000, 0x100000, 0x1000, 0b011, true⟩ := by
    rw [hmem]
    decide
  rw [memfailAbort_page hf (by decide) (by decide) (by decide)] at hout
  obtain ⟨m, -, hm⟩ := Option.map_eq_some_iff.1 hout
  cases (Prod.mk.inj hm).1

end Kernel

end RpiKernel
