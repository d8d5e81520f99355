import RpiKernel.Mmu.TableRun
import RpiKernel.Mmu.TableFree
import RpiKernel.Process.Frame

/-!
# RpiKernel.Process.Custody

What a thread holds: the records of its areas and their memory, its files, its
kernel stack and its page tables (`Process.blocks`).  Each part of a system call
is a lemma about the blocks of the thread it works for; the blocks of everybody
else are the `base` of `Alloc.Holds`.

How many bytes of an area's memory a thread relies on is a parameter, `size`, of
the length of the area.
-/

namespace RpiKernel

open Custody Sched Runs

/-! ## the blocks of a thread -/

/-- The record and the memory of an area. -/
def Vma.blocks (size : Nat → Nat) (v : Vma) : Blocks :=
  (v.addr, vmaBytes) ::
    if v.isAlloced then ownBlock (physToVirt v.physAddr) (size v.areaSize) else []

/-- The records and the memory of areas. -/
def areaBlocks (size : Nat → Nat) (vs : List Vma) : Blocks := vs.flatMap (Vma.blocks size)

/-- The files in some entries of a table. -/
def fileBlocks (table : Nat → Nat) (is : List Nat) : Blocks :=
  is.flatMap fun i => ownBlock (table i) fileBytes

/-- The page tables from `pgd` on. -/
def tableBlocks (w : Nat → Nat) (pgd : Nat) : Blocks := pageBlocks (pgd :: subTables 3 w pgd)

/-- What a thread holds; its `pgd` is a physical address. -/
def Process.blocks (size : Nat → Nat) (w : Nat → Nat) (p : Process) : Blocks :=
  areaBlocks size p.vmaList ++ (fileBlocks p.fileDescriptorsTable (List.range (maxFd + 1)) ++
    (ownBlock p.kernelSp kstackSize ++ tableBlocks w (physToVirt p.context.pgd)))

section

variable {size : Nat → Nat} {v : Vma} {vs vs' : List Vma} {table : Nat → Nat} {is is' : List Nat}
  {i f n p : Nat}

theorem ownBlock_of_ne (h : p ≠ 0) : ownBlock p n = [(p, n)] := if_neg h

@[simp] theorem ownBlock_null (n : Nat) : ownBlock 0 n = [] := rfl

@[simp] theorem areaBlocks_nil : areaBlocks size [] = [] := rfl

@[simp] theorem areaBlocks_cons : areaBlocks size (v :: vs) = v.blocks size ++ areaBlocks size vs :=
  rfl

theorem areaBlocks_append :
    areaBlocks size (vs ++ vs') = areaBlocks size vs ++ areaBlocks size vs' := List.flatMap_append

@[simp] theorem fileBlocks_nil : fileBlocks table [] = [] := rfl

@[simp] theorem fileBlocks_cons :
    fileBlocks table (i :: is) = ownBlock (table i) fileBytes ++ fileBlocks table is := rfl

theorem fileBlocks_append :
    fileBlocks table (is ++ is') = fileBlocks table is ++ fileBlocks table is' := List.flatMap_append

theorem fileBlocks_congr {table' : Nat → Nat} (h : ∀ i ∈ is, table' i = table i) :
    fileBlocks table' is = fileBlocks table is := by
  unfold fileBlocks
  exact List.flatMap_congr fun i hi => by rw [h i hi]

/-- An entry that is not looked at. -/
theorem fileBlocks_update (hi : i ∉ is) :
    fileBlocks (Function.update table i f) is = fileBlocks table is :=
  fileBlocks_congr fun j hj => by
    have hne : j ≠ i := fun he => hi (he ▸ hj)
    rw [Function.update_of_ne hne]

/-- Lists of blocks are compared by counting. -/
theorem perm_of_count {L L' : Blocks} (h : ∀ e, L.count e = L'.count e) : L.Perm L' :=
  List.perm_iff_count.2 h

/-- One entry of a table and the others. -/
theorem fileBlocks_set (table : Nat → Nat) (hnd : is.Nodup) (hi : i ∈ is) (f : Nat) : ∃ rest,
    (fileBlocks table is).Perm (ownBlock (table i) fileBytes ++ rest) ∧
      (fileBlocks (Function.update table i f) is).Perm (ownBlock f fileBytes ++ rest) := by
  obtain ⟨l₁, l₂, rfl⟩ := List.append_of_mem hi
  rw [List.nodup_middle, List.nodup_cons, List.mem_append, not_or] at hnd
  refine ⟨fileBlocks table l₁ ++ fileBlocks table l₂, ?_, ?_⟩
  all_goals
    refine perm_of_count fun e => ?_
    simp only [fileBlocks_append, fileBlocks_cons, Function.update_self, fileBlocks_update hnd.1.1,
      fileBlocks_update hnd.1.2, List.count_append]
    omega

end

/-! ## calls of the allocator -/

section

variable {base : Nat → Nat → Prop} {L R : Blocks} {a a' : Alloc} {p n m : Nat}

/-- `kmalloc` gives its caller a block, or `NULL`. -/
theorem Alloc.Holds.kmalloc_own (h : a.Holds base L) (hk : RpiKernel.kmalloc n a = some (p, a'))
    (hm : m ≤ granted n) : a'.Holds base (ownBlock p m ++ L) := by
  obtain ⟨q, a₁, hres, hout⟩ := Alloc.Holds.kmalloc h n
  obtain ⟨rfl, rfl⟩ := Prod.mk.inj (Option.some.inj (hres.symm.trans hk))
  unfold ownBlock
  rcases hout with ⟨h0, rfl⟩ | ⟨h0, -, hall⟩
  · rwa [if_pos h0]
  · rw [if_neg h0]
    exact hall m hm

/-- `kfree` takes it back. -/
theorem Alloc.Holds.kfree_own (h : a.Holds base (ownBlock p m ++ L)) :
    ∃ a', RpiKernel.kfree p a = some a' ∧ a'.Holds base L := by
  unfold ownBlock at h
  by_cases h0 : p = 0
  · rw [if_pos h0] at h
    exact ⟨a, h0 ▸ kfree_null a, h⟩
  · rw [if_neg h0] at h
    exact Alloc.Holds.kfree h

theorem Alloc.Holds.kfree_eq (h : a.Holds base (ownBlock p m ++ L))
    (hk : RpiKernel.kfree p a = some a') : a'.Holds base L := by
  obtain ⟨a₁, hres, h'⟩ := h.kfree_own
  exact Option.some.inj (hres.symm.trans hk) ▸ h'

/-- A block that is given back leaves as much room. -/
theorem Alloc.Holds.kfree_own_room (h : a.Holds base (ownBlock p m ++ L)) (hr : a.Room n)
    (hk : RpiKernel.kfree p a = some a') : a'.Room n := by
  unfold ownBlock at h
  by_cases h0 : p = 0
  · subst h0
    rw [kfree_null, Option.some.injEq] at hk
    exact hk ▸ hr
  · rw [if_neg h0] at h
    exact Alloc.Holds.kfree_room h hr hk

/-- The blocks of some requests; of each the caller relies on as many bytes as
`ms` says. -/
def grantBlocks : List (Nat × Nat) → List Nat → Blocks
  | r :: rs, m :: ms => ownBlock r.2 m ++ grantBlocks rs ms
  | _, _ => []

theorem Grants.holds {rs : List (Nat × Nat)} {ms : List Nat} (h : Grants a rs a')
    (hh : a.Holds base L) (hs : List.Forall₂ (fun r m => m ≤ granted (r.1 % 2 ^ 32)) rs ms) :
    a'.Holds base (grantBlocks rs ms ++ L) := by
  induction h generalizing L ms with
  | nil a =>
      cases hs
      exact hh
  | @cons a a₁ a' n p rs hk _ ih =>
      cases hs with
      | @cons _ m _ ms hm hms =>
          refine (ih (hh.kmalloc_own hk hm) hms).perm (perm_of_count fun e => ?_)
          simp only [grantBlocks, List.count_append]
          omega

theorem mem_ownBlock (h : p ∈ addrs (ownBlock n m)) : p = n := by
  unfold ownBlock at h
  split at h
  · simp at h
  · simpa using h

/-- Only what was answered is granted. -/
theorem mem_grantBlocks {rs : List (Nat × Nat)} {ms : List Nat} {q : Nat} (h : q ∈ addrs (grantBlocks rs ms)) :
    ∃ r ∈ rs, r.2 = q := by
  induction rs generalizing ms with
  | nil => simp [grantBlocks] at h
  | cons r rs ih =>
      cases ms with
      | nil => simp [grantBlocks] at h
      | cons m ms =>
          rw [grantBlocks, addrs_append, List.mem_append] at h
          cases h with
          | inl hr => exact ⟨r, List.mem_cons_self, (mem_ownBlock hr).symm⟩
          | inr hrs =>
              obtain ⟨s, hs, he⟩ := ih hrs
              exact ⟨s, List.mem_cons_of_mem _ hs, he⟩

/-- The caller has nothing, and everything is somebody else's. -/
theorem Alloc.Settled.holds_nothing (h : a.Settled) : a.Holds a.Region [] :=
  ⟨h, fun _ _ hq => hq, List.nodup_nil, by simp, by simp, fun _ _ hq => Or.inl hq⟩

/-- What is live after some requests was live, or was granted. -/
theorem Grants.live {rs : List (Nat × Nat)} (h : Grants a rs a') (hs : a.Settled)
    (hlive : ∃ n, a'.Region p n) : (∃ n, a.Region p n) ∨ ∃ r ∈ rs, r.2 = p := by
  have hms : List.Forall₂ (fun (r : Nat × Nat) m => m ≤ granted (r.1 % 2 ^ 32)) rs (rs.map fun _ => 0) :=
    List.forall₂_map_right_iff.2 (List.forall₂_same.2 fun r _ => Nat.zero_le _)
  have hlater := h.holds hs.holds_nothing hms
  rw [List.append_nil] at hlater
  exact (hlater.holds.live_iff.1 hlive).imp_right mem_grantBlocks

/-- The first of some requests. -/
theorem Grants.head {rs : List (Nat × Nat)} (h : Grants a ((n, p) :: rs) a') :
    ∃ a₁, RpiKernel.kmalloc (n % 2 ^ 32) a = some (p, a₁) := by
  cases h with
  | cons hm _ => exact ⟨_, hm⟩

/-- The address of a block that is held. -/
theorem Alloc.Holds.managed (h : a.Holds base ((p, n) :: L)) :
    buddyMemoryBase ≤ p ∧ p < buddyMemoryBase + memorySize := by
  obtain ⟨m, hr, -⟩ := h.holds.backed _ List.mem_cons_self
  obtain ⟨h0, hlo, hhi⟩ := h.settled.managed hr
  exact ⟨hlo, by omega⟩

/-- Going to physical addresses and back. -/
theorem Alloc.Holds.physToVirt_own (h : a.Holds base (ownBlock p n ++ L)) :
    physToVirt (virtToPhys p) = p := by
  refine physToVirt_virtToPhys ?_
  by_cases h0 : p = 0
  · omega
  · rw [ownBlock_of_ne h0] at h
    have hm := Alloc.Holds.managed h
    unfold buddyMemoryBase memorySize totalFrame frameSize at hm
    omega

end

end RpiKernel
