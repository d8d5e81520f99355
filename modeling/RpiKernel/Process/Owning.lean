import RpiKernel.Process.Custody

/-!
# RpiKernel.Process.Owning

A thread holds its blocks (`Owns`), and every system call that it makes keeps
it so: what is allocated is recorded in the thread, and what is freed was.
-/

namespace RpiKernel

open Custody Sched Runs

/-- The parts of a thread that say what it holds. -/
structure Process.Alike (p p' : Process) : Prop where
  vmaList : p'.vmaList = p.vmaList
  files : p'.fileDescriptorsTable = p.fileDescriptorsTable
  kernelSp : p'.kernelSp = p.kernelSp
  pgd : p'.context.pgd = p.context.pgd

theorem Process.Alike.refl (p : Process) : p.Alike p := ⟨rfl, rfl, rfl, rfl⟩

theorem Process.Alike.blocks {p p' : Process} (h : p.Alike p') (size w : Nat → Nat) :
    p'.blocks size w = p.blocks size w := by
  unfold Process.blocks
  rw [h.vmaList, h.files, h.kernelSp, h.pgd]

section

variable (size w : Nat → Nat) (p : Process)

/-- New areas at the end. -/
theorem Process.blocks_addAreas (vs : List Vma) :
    ((p.addAreas vs).blocks size w).Perm (areaBlocks size vs ++ p.blocks size w) := by
  refine perm_of_count fun e => ?_
  simp only [Process.blocks, Process.addAreas, areaBlocks_append, List.count_append]
  omega

/-- One file and the other blocks. -/
theorem Process.blocks_setFile {i : Nat} (hi : i ≤ maxFd) (f : Nat) : ∃ rest,
    (p.blocks size w).Perm (ownBlock (p.fileDescriptorsTable i) fileBytes ++ rest) ∧
      ((p.setFile i f).blocks size w).Perm (ownBlock f fileBytes ++ rest) := by
  have hmem : i ∈ List.range (maxFd + 1) := List.mem_range.2 (by omega)
  obtain ⟨rest, h₁, h₂⟩ := fileBlocks_set p.fileDescriptorsTable List.nodup_range hmem f
  refine ⟨areaBlocks size p.vmaList ++ (rest ++ (ownBlock p.kernelSp kstackSize ++
    tableBlocks w (physToVirt p.context.pgd))), ?_, ?_⟩
  all_goals
    refine perm_of_count fun e => ?_
    have c₁ := h₁.count_eq e
    have c₂ := h₂.count_eq e
    simp only [Process.blocks, Process.setFile, List.count_append] at c₁ c₂ ⊢
    omega

theorem Process.mem_blocks_pgd :
    physToVirt p.context.pgd :: subTables 3 w (physToVirt p.context.pgd) ⊆
      addrs (p.blocks size w) := by
  unfold Process.blocks tableBlocks
  simp only [addrs_append, addrs_pageBlocks]
  intro q hq
  simp only [List.mem_append]
  exact Or.inr (Or.inr (Or.inr hq))

/-- The rest of what a thread holds. -/
theorem Process.blocks_tables : (p.blocks size w).Perm
    (pageBlocks (subTables 3 w (physToVirt p.context.pgd)) ++ (areaBlocks size p.vmaList ++
      (fileBlocks p.fileDescriptorsTable (List.range (maxFd + 1)) ++ (ownBlock p.kernelSp kstackSize ++
        [(physToVirt p.context.pgd, 0x1000)])))) := by
  refine perm_of_count fun e => ?_
  simp only [Process.blocks, tableBlocks, pageBlocks, List.map_cons, List.count_append, List.count_cons,
    List.count_nil]
  omega

end

namespace Kernel

variable {base : Nat → Nat → Prop} {L R : Blocks} {size : Nat → Nat} {k k' k₁ : Kernel} {t n : Nat}

/-- Thread `t` holds its blocks, and `R`; its page tables are a tree, and the
last entry of its table of files, which is never closed, is empty. -/
structure Owns (size : Nat → Nat) (base : Nat → Nat → Prop) (R : Blocks) (t : Nat) (k : Kernel) :
    Prop where
  holds : k.alloc.Holds base ((k.procs t).blocks size k.words ++ R)
  tree : Tree 3 k.words (physToVirt (k.procs t).context.pgd)
  last : (k.procs t).fileDescriptorsTable maxFd = 0

/-- Nobody else's page tables are written. -/
def SameTables (base : Nat → Nat → Prop) (k k' : Kernel) : Prop :=
  ∀ q, q % 0x1000 = 0 → (∃ n, base q n) → SameTable k.words k'.words q

theorem SameTables.of_words (h : k'.words = k.words) : SameTables base k k' :=
  fun _ _ _ _ _ => by rw [h]

theorem SameTables.trans (h : SameTables base k k₁) (h' : SameTables base k₁ k') :
    SameTables base k k' :=
  fun q hq hb i hi => (h' q hq hb i hi).trans (h q hq hb i hi)

/-- A request of `n` bytes is large enough for an area of `n` bytes. -/
def Covers (size : Nat → Nat) (n : Nat) : Prop := size (roundPage n) ≤ granted (n % 2 ^ 32)

/-- A step that changes nothing the thread holds. -/
theorem Owns.alike (h : Owns size base R t k) (hp : (k.procs t).Alike (k'.procs t))
    (hw : k'.words = k.words) (ha : k'.alloc = k.alloc) : Owns size base R t k' :=
  ⟨by rw [hw, ha, hp.blocks]; exact h.holds, by rw [hw, hp.pgd]; exact h.tree,
    by rw [hp.files]; exact h.last⟩

/-! ## areas -/

theorem Owns.addAreas (h : Owns size base R t k) {vs : List Vma}
    (hp : k'.procs t = (k.procs t).addAreas vs) (hw : k'.words = k.words)
    (hh : k'.alloc.Holds base (areaBlocks size vs ++ ((k.procs t).blocks size k.words ++ R))) :
    Owns size base R t k' := by
  refine ⟨?_, by rw [hp, hw]; exact h.tree, by rw [hp]; exact h.last⟩
  rw [hp, hw]
  refine hh.perm (perm_of_count fun e => ?_)
  have hc := (Process.blocks_addAreas size k.words (k.procs t) vs).count_eq e
  simp only [List.count_append] at hc ⊢
  omega

/-- A new area with a block of its own. -/
theorem area_holds {a a₁ a₂ : Alloc} {v : Vma} {q req : Nat} (hh : a.Holds base L)
    (h₁ : RpiKernel.kmalloc req a = some (q, a₁))
    (h₂ : RpiKernel.kmalloc (vmaBytes % 2 ^ 32) a₁ = some (v.addr, a₂)) (hne : v.addr ≠ 0)
    (hq : v.physAddr = virtToPhys q) (hal : v.isAlloced = true) (hs : size v.areaSize ≤ granted req) :
    a₂.Holds base (areaBlocks size [v] ++ L) := by
  have hb := hh.kmalloc_own h₁ hs
  have hphys := hb.physToVirt_own
  have hrec := hb.kmalloc_own h₂ (by decide : vmaBytes ≤ granted (vmaBytes % 2 ^ 32))
  rw [ownBlock_of_ne hne] at hrec
  simpa [Vma.blocks, hal, hq, hphys] using hrec

theorem Owns.mmap {addr len prot r : Nat} (h : Owns size base R k.sched.currThread k)
    (hs : Covers size (roundPage len)) (hm : Kernel.mmap n addr len prot k = some (r, k')) :
    Owns size base R k.sched.currThread k' := by
  obtain ⟨-, ptr, a₁, rec, a₂, mem, h₁, -, h₂, hne, rfl⟩ := mmap_some hm
  refine h.addAreas (setProc_procs _) rfl ?_
  unfold Covers at hs
  rw [roundPage_of_mod (roundPage_mod len)] at hs
  exact area_holds h.holds h₁ h₂ hne rfl rfl hs

/-! ## files -/

/-- A handle for an entry that was empty. -/
theorem Owns.opens {i flags : Nat} {node : VnodeRef} (h : Owns size base R t k) (hi : i < maxFd)
    (h0 : (k.procs t).fileDescriptorsTable i = 0) (ho : Opens t i node flags k k') :
    Owns size base R t k' := by
  obtain ⟨f, k₁, hn, rfl⟩ := ho
  obtain ⟨a, ha, rfl⟩ := hn.some
  refine ⟨?_, ?_, ?_⟩
  · rw [setProc_procs]
    obtain ⟨rest, hold, hnew⟩ :=
      Process.blocks_setFile size k.words (k.procs t) (Nat.le_of_lt hi) f
    rw [h0, ownBlock_null, List.nil_append] at hold
    have hh := (h.holds.perm (hold.append_right R)).kmalloc_own ha
      (by decide : fileBytes ≤ granted (fileBytes % 2 ^ 32))
    rw [← List.append_assoc] at hh
    exact hh.perm (hnew.append_right R).symm
  · rw [setProc_procs]
    exact h.tree
  · rw [setProc_procs]
    exact (Function.update_of_ne (by omega) _ _).trans h.last

/-- The blocks of a new file are not the thread's. -/
theorem creates_holds (hh : k.alloc.Holds base L) (hc : Creates k k') :
    ∃ new, k'.misc = new ++ k.misc ∧ k'.alloc.Holds base (new ++ L) := by
  rcases hc with rfl | ⟨v, hv⟩
  · exact ⟨[], rfl, hh⟩
  · obtain ⟨inode, data, a, hv0, hi0, hg, rfl⟩ := tmpfsCreateVnode_some hv
    refine ⟨vnodeBlocks v inode data, rfl, ?_⟩
    have hv : vnodeBytes ≤ granted (vnodeBytes % 2 ^ 32) := by decide
    have hi : tmpfsInodeBytes ≤ granted (tmpfsInodeBytes % 2 ^ 32) := by decide
    have hd : 0x1000 ≤ granted (0x1000 % 2 ^ 32) := by decide
    have hms : List.Forall₂ (fun (r : Nat × Nat) m => m ≤ granted (r.1 % 2 ^ 32))
        (vnodeRequests v inode data) [vnodeBytes, tmpfsInodeBytes, 0x1000] :=
      .cons hv (.cons hi (.cons hd .nil))
    have hb := hg.holds hh hms
    simpa [grantBlocks, vnodeRequests, vnodeBlocks, ownBlock_of_ne hv0, ownBlock_of_ne hi0] using hb

theorem Owns.close {fd : Int} {r : Bool} (h : Owns size base R k.sched.currThread k)
    (hc : Kernel.close fd k = some (r, k')) : Owns size base R k.sched.currThread k' := by
  obtain ⟨-, hfd, ⟨-, rfl⟩ | ⟨-, a, ha, rfl⟩⟩ := close_some hc
  · exact h
  refine ⟨?_, ?_, ?_⟩
  · rw [setProc_procs]
    obtain ⟨rest, hold, hnew⟩ := Process.blocks_setFile size k.words
      (k.procs k.sched.currThread) (by omega : fd.toNat ≤ maxFd) 0
    have hh := h.holds.perm (hold.append_right R)
    rw [List.append_assoc] at hh
    exact (hh.kfree_eq ha).perm (hnew.append_right R).symm
  · rw [setProc_procs]
    exact h.tree
  · rw [setProc_procs]
    show Function.update _ _ _ _ = 0
    by_cases hi : maxFd = fd.toNat
    · rw [← hi, Function.update_self]
    · rw [Function.update_of_ne hi]
      exact h.last

/-! ## page faults -/

/-- The pages for new tables go to the thread. -/
theorem Owns.mapPage {m : TableMem} {va pa flag : Nat} (h : Owns size base R t k)
    (hm : mapOnePage (physToVirt (k.procs t).context.pgd) va pa flag k.toTableMem = some m) :
    Owns size base R t { k with toTableMem := m } ∧
      SameTables base k { k with toTableMem := m } := by
  have hin : physToVirt (k.procs t).context.pgd ::
      subTables 3 k.words (physToVirt (k.procs t).context.pgd) ⊆
        addrs ((k.procs t).blocks size k.words ++ R) := by
    rw [addrs_append]
    exact fun q hq => List.mem_append_left _ (Process.mem_blocks_pgd size k.words (k.procs t) hq)
  obtain ⟨-, new, hnew, hmapped, htree⟩ := (mapOnePage_spec va pa flag h.tree h.holds hin).2 m hm
  refine ⟨⟨?_, htree, h.last⟩, fun q hq hb => hmapped.outside q hq fun hmem => ?_⟩
  · refine hnew.perm (perm_of_count fun e => ?_)
    have hc := (hmapped.subs.map fun p => (p, 0x1000)).count_eq e
    simp only [Process.blocks, tableBlocks, pageBlocks, List.map_cons, List.map_append,
      List.count_append, List.count_cons] at hc ⊢
    omega
  · obtain ⟨n, hb⟩ := hb
    have hq' : q ∈ addrs (pageBlocks new ++ ((k.procs t).blocks size k.words ++ R)) := by
      rw [addrs_append, addrs_pageBlocks, List.mem_append]
      cases List.mem_cons.1 hmem with
      | inl heq => exact Or.inr (heq ▸ hin List.mem_cons_self)
      | inr hmem =>
          cases List.mem_append.1 hmem with
          | inl hq => exact Or.inl hq
          | inr hq => exact Or.inr (hin (List.mem_cons_of_mem _ hq))
    obtain ⟨j, hj⟩ := mem_addrs.1 hq'
    exact hnew.holds.apart _ hj n hb

theorem Owns.memfailAbort {far iss : Nat} {b : Bool} (h : Owns size base R k.sched.currThread k)
    (hm : Kernel.memfailAbort far iss k = some (b, k')) :
    Owns size base R k.sched.currThread k' ∧ SameTables base k k' := by
  rcases memfailAbort_some hm with ⟨-, rfl⟩ | ⟨-, v, -, -, va, pa, m, hmap, rfl⟩
  · exact ⟨h.alike (.refl _) rfl rfl, .of_words rfl⟩
  · exact h.mapPage hmap

/-! ## giving back -/

/-- Deleting areas frees their records and their memory, and uses no room. -/
theorem delVmas_room {vs : List Vma} (hh : k.alloc.Holds base (areaBlocks size vs ++ L)) :
    ∃ a, delVmas vs k = some ((), { k with alloc := a }) ∧ a.Holds base L ∧
      ∀ n, k.alloc.Room n → a.Room n := by
  induction vs generalizing k with
  | nil => exact ⟨k.alloc, rfl, hh, fun _ hr => hr⟩
  | cons v vs ih =>
      unfold delVmas
      rw [areaBlocks_cons, Vma.blocks] at hh
      by_cases hv : v.isAlloced = true
      · rw [if_pos hv] at hh ⊢
        -- the memory first, then the record
        have hmem : k.alloc.Holds base (ownBlock (physToVirt v.physAddr) (size v.areaSize) ++
            ((v.addr, vmaBytes) :: (areaBlocks size vs ++ L))) := by
          refine hh.perm (perm_of_count fun e => ?_)
          simp only [List.count_append, List.count_cons]
          omega
        obtain ⟨a₁, h₁, hh₁⟩ := hmem.kfree_own
        obtain ⟨a₂, h₂, hh₂⟩ := hh₁.kfree
        obtain ⟨a, hrun, hfin, hroom⟩ := ih (k := { k with alloc := a₂ }) hh₂
        refine ⟨a, ?_, hfin, fun n hr => hroom n ?_⟩
        · exact bind_some.2 ⟨(), _, kfree_some.2 ⟨a₁, h₁, rfl⟩, bind_some.2 ⟨(), _,
            kfree_some.2 ⟨a₂, h₂, rfl⟩, hrun⟩⟩
        · exact hh₁.kfree_room (hmem.kfree_own_room hr h₁) h₂
      · rw [if_neg hv] at hh ⊢
        obtain ⟨a₂, h₂, hh₂⟩ := hh.kfree
        obtain ⟨a, hrun, hfin, hroom⟩ := ih (k := { k with alloc := a₂ }) hh₂
        refine ⟨a, bind_some.2 ⟨(), _, kfree_some.2 ⟨a₂, h₂, rfl⟩, hrun⟩, hfin, fun n hr => ?_⟩
        exact hroom n (hh.kfree_room hr h₂)

theorem delVmas_holds {vs : List Vma} (hh : k.alloc.Holds base (areaBlocks size vs ++ L)) :
    ∃ a, delVmas vs k = some ((), { k with alloc := a }) ∧ a.Holds base L := by
  obtain ⟨a, hrun, hfin, -⟩ := delVmas_room hh
  exact ⟨a, hrun, hfin⟩

theorem closeFiles_holds {is : List Nat}
    (hh : k.alloc.Holds base (fileBlocks (k.procs t).fileDescriptorsTable is ++ L)) :
    ∃ a, closeFiles t is k = some ((), { k with alloc := a }) ∧ a.Holds base L ∧
      ∀ n, k.alloc.Room n → a.Room n := by
  induction is generalizing k with
  | nil => exact ⟨k.alloc, rfl, hh, fun _ hr => hr⟩
  | cons i is ih =>
      rw [fileBlocks_cons, List.append_assoc] at hh
      unfold closeFiles
      obtain ⟨a₁, h₁, hh₁⟩ := hh.kfree_own
      obtain ⟨a, hrun, hfin, hroom⟩ := ih (k := { k with alloc := a₁ }) hh₁
      refine ⟨a, ?_, hfin, fun n hr => hroom n (hh.kfree_own_room hr h₁)⟩
      rw [proc_bind]
      by_cases hf : (k.procs t).fileDescriptorsTable i = 0
      · rw [hf, kfree_null] at h₁
        obtain rfl := Option.some.inj h₁
        simpa only [hf, ne_eq, not_true_eq_false, if_false] using hrun
      · simp only [hf, ne_eq, not_false_eq_true, if_true, vfsClose]
        exact bind_some.2 ⟨(), _, kfree_some.2 ⟨a₁, h₁, rfl⟩, hrun⟩

/-- The page tables below the first one are freed, and its entries are empty. -/
theorem Owns.freeTables (h : Owns size base R t k) : ∃ m,
    mmuFreePageTables 2 (k.procs t).context.pgd k.toTableMem = some m ∧
      m.alloc.Holds base (areaBlocks size (k.procs t).vmaList ++
        (fileBlocks (k.procs t).fileDescriptorsTable (List.range (maxFd + 1)) ++
          (ownBlock (k.procs t).kernelSp kstackSize ++
            ((physToVirt (k.procs t).context.pgd, 0x1000) :: R)))) ∧
      (∀ n, k.alloc.Room n → m.alloc.Room n) ∧
      (∀ i < 512, m.words (physToVirt (k.procs t).context.pgd + 8 * i) = 0) ∧
      SameTables base k { k with toTableMem := m } := by
  have hperm := (Process.blocks_tables size k.words (k.procs t)).append_right R
  simp only [List.append_assoc, List.cons_append, List.nil_append] at hperm
  have hh := h.holds.perm hperm
  obtain ⟨m, hm, hrest, hroom, hzero, hout⟩ := mmuFreePageTables_spec 2 _ k.toTableMem _ h.tree hh
  refine ⟨m, hm, hrest, hroom, hzero, fun q hq hb => hout q hq fun hmem => ?_⟩
  obtain ⟨n, hb⟩ := hb
  have hown := Process.mem_blocks_pgd size k.words (k.procs t) hmem
  obtain ⟨j, hj⟩ := mem_addrs.1 hown
  exact h.holds.holds.apart _ (List.mem_append_left _ hj) n hb

/-- **Reaping.**  Everything the thread holds is freed, and nothing else. -/
theorem Owns.reap (h : Owns size base R t k) : ∃ k', Kernel.reap t k = some ((), k') ∧
    k'.alloc.Holds base R ∧ (∀ n, k.alloc.Room n → k'.alloc.Room n) ∧ SameTables base k k' := by
  obtain ⟨m, hm, hh, hroom, -, hsame⟩ := h.freeTables
  obtain ⟨a₁, hdel, hh₁, hroom₁⟩ := delVmas_room (k := { k with toTableMem := m }) hh
  have hlast : fileBlocks (k.procs t).fileDescriptorsTable (List.range (maxFd + 1)) =
      fileBlocks (k.procs t).fileDescriptorsTable (List.range maxFd) := by
    rw [List.range_succ, fileBlocks_append, fileBlocks_cons, h.last]
    simp
  rw [hlast] at hh₁
  let k₁ := setProc t Process.noAreas { k with alloc := a₁, words := m.words }
  have hproc : k₁.procs t = (k.procs t).noAreas := setProc_procs _
  have hfiles : k₁.alloc.Holds base (fileBlocks (k₁.procs t).fileDescriptorsTable (List.range maxFd) ++
      (ownBlock (k.procs t).kernelSp kstackSize ++
        ((physToVirt (k.procs t).context.pgd, 0x1000) :: R))) := by
    rw [hproc]
    exact hh₁
  obtain ⟨a₂, hclose, hh₂, hroom₂⟩ := closeFiles_holds hfiles
  obtain ⟨a₃, hstack, hh₃⟩ := hh₂.kfree_own
  obtain ⟨a₄, hpgd, hh₄⟩ := hh₃.kfree
  refine ⟨{ k₁ with alloc := a₄, sched := reapThread t k.sched }, ?_, hh₄, fun n hr => ?_, hsame⟩
  case refine_2 =>
    have hr₂ := hroom₂ n (hroom₁ n (hroom n hr))
    exact hh₃.kfree_room (hh₂.kfree_own_room hr₂ hstack) hpgd
  unfold Kernel.reap
  rw [proc_bind]
  refine bind_some.2 ⟨(), _, onTables_some.2 ⟨m, hm, rfl⟩, ?_⟩
  refine bind_some.2 ⟨(), k₁, ?_, ?_⟩
  · unfold mmuDelAllVma
    rw [proc_bind]
    exact bind_some.2 ⟨(), _, hdel, rfl⟩
  refine bind_some.2 ⟨(), _, hclose, ?_⟩
  rw [proc_bind]
  refine bind_some.2 ⟨(), _, kfree_some.2 ⟨a₃, by rw [hproc]; exact hstack, rfl⟩, ?_⟩
  rw [proc_bind]
  refine bind_some.2 ⟨(), _, kfree_some.2 ⟨a₄, by rw [hproc]; exact hpgd, rfl⟩, ?_⟩
  exact onSched_some.2 ⟨_, rfl, rfl⟩

end Kernel

end RpiKernel
