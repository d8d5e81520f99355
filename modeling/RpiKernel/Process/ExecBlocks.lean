import RpiKernel.Memory.SlabRun
import RpiKernel.Process.Ownership
import RpiKernel.Process.Progress

/-!
# RpiKernel.Process.ExecBlocks

The blocks that are live before and after `exec`.

`exec` asks twice for the memory of the image and keeps the second block only,
so it loses the first one, unless there is no such block (`exec_leaks_iff`).
-/

namespace RpiKernel

open Custody

namespace Kernel

variable {base : Nat → Nat → Prop} {R : Blocks} {k k' : Kernel} {f : ExecFile} {t n p : Nat}

/-! ## what is live, and what refers to it -/

/-- A block starts at `p`. -/
def Live (k : Kernel) (p : Nat) : Prop := ∃ n, k.alloc.Region p n

/-- The records and the memory of areas. -/
abbrev areaAddrs (vs : List Vma) : List Nat := addrs (areaBlocks (fun _ => 0) vs)

/-- The image of a thread: the records and the memory of its areas, and the page
tables below the first one. -/
def image (t : Nat) (k : Kernel) : List Nat :=
  areaAddrs (k.procs t).vmaList ++ subTables 3 k.words (physToVirt (k.procs t).context.pgd)

/-- The pointers in the other fields of a thread. -/
def fields (p : Process) : List Nat :=
  [p.data, p.userSp, p.signalSp, p.kernelSp, physToVirt p.context.pgd] ++
    (List.range (maxFd + 1)).map p.fileDescriptorsTable

/-- A thread refers to `p`: it is the record of an area, the memory of an area or
in a field. -/
def Referenced (t : Nat) (k : Kernel) (p : Nat) : Prop :=
  p ∈ areaAddrs (k.procs t).vmaList ∨ p ∈ fields (k.procs t)

/-- From `k` to `k'` the image of the current thread is replaced, and nothing is
left behind. -/
structure LeaksNothing (k k' : Kernel) : Prop where
  kept : ∀ p, Live k p → p ∉ image k.sched.currThread k → Live k' p
  rest : ∀ p, Live k' p →
    (Live k p ∧ p ∉ image k.sched.currThread k) ∨ Referenced k.sched.currThread k' p

/-- What `exec` leaves alone: the files, the kernel stack and the first page
table. -/
def keptBlocks (p : Process) : Blocks :=
  fileBlocks p.fileDescriptorsTable (List.range (maxFd + 1)) ++
    (ownBlock p.kernelSp kstackSize ++ [(physToVirt p.context.pgd, 0x1000)])

/-- The image and the rest. -/
theorem blocks_image (w : Nat → Nat) (p : Process) : (p.blocks (fun _ => 0) w).Perm
    ((areaBlocks (fun _ => 0) p.vmaList ++ pageBlocks (subTables 3 w (physToVirt p.context.pgd))) ++
      keptBlocks p) := by
  refine (Process.blocks_tables _ w p).trans (perm_of_count fun e => ?_)
  simp only [keptBlocks, List.count_append]
  omega

/-! ## `exec` -/

theorem exec_keptBlocks (hx : exec (some f) k = some ((), k')) :
    keptBlocks (k'.procs k.sched.currThread) = keptBlocks (k.procs k.sched.currThread) := by
  obtain ⟨-, data, userSp, signalSp, a₁, a₂, a₃, a₄, a₅, hp⟩ := exec_procs hx
  rw [hp]
  rfl

/-- The thread's blocks before, as those it gives up and those it keeps, and
after, with the one that is lost. -/
theorem Owns.exec_blocks (h : Owns (fun _ => 0) base R k.sched.currThread k)
    (hx : Kernel.exec (some f) k = some ((), k')) : ∃ k₁ dropped a₁ O K N,
    mmuDelAllVma k.sched.currThread k = some ((), k₁) ∧
      RpiKernel.kmalloc (getsize f % 2 ^ 32) k₁.alloc = some (dropped, a₁) ∧
      k.alloc.Holds base (O ++ K) ∧ k'.alloc.Holds base (N ++ ownBlock dropped 0 ++ K) ∧
      addrs O = image k.sched.currThread k ∧
      N = areaBlocks (fun _ => 0) (k'.procs k.sched.currThread).vmaList ∧
      keptBlocks (k'.procs k.sched.currThread) ⊆ K := by
  obtain ⟨k₁, dropped, a₁, hdel, hfirst, hown, hempty, -⟩ :=
    h.exec_dropped (covers_zero _) (covers_zero _) (covers_zero _) hx
  rw [Nat.mod_mod] at hfirst
  have hkept := exec_keptBlocks hx
  refine ⟨k₁, dropped, a₁, areaBlocks (fun _ => 0) (k.procs k.sched.currThread).vmaList ++
      pageBlocks (subTables 3 k.words (physToVirt (k.procs k.sched.currThread).context.pgd)),
    keptBlocks (k.procs k.sched.currThread) ++ R,
    areaBlocks (fun _ => 0) (k'.procs k.sched.currThread).vmaList, hdel, hfirst,
    h.holds.perm ?_, hown.holds.perm ?_, ?_, rfl, ?_⟩
  · refine perm_of_count fun e => ?_
    have hc := (blocks_image k.words (k.procs k.sched.currThread)).count_eq e
    simp only [List.count_append] at hc ⊢
    omega
  · refine perm_of_count fun e => ?_
    have hc := (blocks_image k'.words (k'.procs k.sched.currThread)).count_eq e
    rw [hempty, hkept] at hc
    simp only [pageBlocks, List.map_nil, List.append_nil, List.count_append] at hc ⊢
    omega
  · rw [addrs_append, addrs_pageBlocks]
    rfl
  · rw [hkept]
    exact List.subset_append_left _ _

/-- There is no block for the image once the old areas are deleted. -/
def RefusesImage (f : ExecFile) (k : Kernel) : Prop :=
  ∃ k₁, mmuDelAllVma k.sched.currThread k = some ((), k₁) ∧ k₁.alloc.Refuses (getsize f % 2 ^ 32)

theorem refusesImage_iff {k₁ : Kernel} {dropped : Nat} {a₁ : Alloc}
    (h : Owns (fun _ => 0) base R k.sched.currThread k)
    (hdel : mmuDelAllVma k.sched.currThread k = some ((), k₁))
    (hfirst : RpiKernel.kmalloc (getsize f % 2 ^ 32) k₁.alloc = some (dropped, a₁)) :
    RefusesImage f k ↔ dropped = 0 := by
  have hh := h.holds
  unfold Process.blocks at hh
  rw [List.append_assoc] at hh
  obtain ⟨a, hrun, hafter⟩ := delVmas_holds hh
  obtain ⟨k₂, hvmas, rfl⟩ := mmuDelAllVma_some hdel
  obtain ⟨-, rfl⟩ := Prod.mk.inj (Option.some.inj (hvmas.symm.trans hrun))
  obtain ⟨T, hT⟩ := hafter.settled
  rw [hT.kmalloc_null_iff hfirst]
  constructor
  · rintro ⟨k₃, hdel', href⟩
    obtain ⟨-, rfl⟩ := Prod.mk.inj (Option.some.inj (hdel.symm.trans hdel'))
    exact href
  · exact fun href => ⟨_, hdel, href⟩

/-- A field refers to the image or to what is left alone. -/
theorem mem_fields {q : Process} (h : p ∈ fields q) (hp : p ≠ 0) :
    p ∈ [q.data, q.userSp, q.signalSp] ∨ p ∈ addrs (keptBlocks q) := by
  unfold keptBlocks
  rw [addrs_append, addrs_append, List.mem_append, List.mem_append]
  rw [fields, List.mem_append] at h
  cases h with
  | inl h =>
      simp only [List.mem_cons, List.not_mem_nil, or_false] at h ⊢
      rcases h with h | h | h | h | h
      · exact Or.inl (Or.inl h)
      · exact Or.inl (Or.inr (Or.inl h))
      · exact Or.inl (Or.inr (Or.inr h))
      · rw [← h, ownBlock_of_ne hp]
        simp
      · simp [h]
  | inr h =>
      obtain ⟨i, hi, rfl⟩ := List.mem_map.1 h
      refine Or.inr (Or.inl (mem_addrs.2 ⟨fileBytes, List.mem_flatMap.2 ⟨i, hi, ?_⟩⟩))
      rw [ownBlock_of_ne hp]
      exact List.mem_singleton_self _

/-- The new image is the memory of areas. -/
theorem exec_imageAreas (hx : exec (some f) k = some ((), k')) {q : Nat}
    (hq : q ∈ [(k'.procs k.sched.currThread).data, (k'.procs k.sched.currThread).userSp,
      (k'.procs k.sched.currThread).signalSp]) :
    ∃ v ∈ (k'.procs k.sched.currThread).vmaList, v.isAlloced = true ∧ v.physAddr = virtToPhys q := by
  obtain ⟨-, data, userSp, signalSp, a₁, a₂, a₃, a₄, a₅, hp⟩ := exec_procs hx
  rw [hp] at hq ⊢
  simp only [Process.inherit, Process.addAreas, Process.load, Process.noAreas, List.mem_cons,
    List.not_mem_nil, or_false] at hq
  simp only [Process.inherit, Process.addAreas, Process.load, Process.noAreas, imageAreas, fixedAreas,
    List.mem_append, List.mem_cons, List.not_mem_nil, or_false]
  rcases hq with rfl | rfl | rfl
  · exact ⟨_, Or.inl (Or.inr (Or.inl rfl)), rfl, rfl⟩
  · exact ⟨_, Or.inl (Or.inr (Or.inr rfl)), rfl, rfl⟩
  · exact ⟨_, Or.inr (Or.inr (Or.inr rfl)), rfl, rfl⟩

/-- A block that is lost is not referred to. -/
theorem not_referenced {K : Blocks} (hh : k'.alloc.Holds base
      (areaBlocks (fun _ => 0) (k'.procs t).vmaList ++ ownBlock p 0 ++ K)) (hp : p ≠ 0)
    (hkept : keptBlocks (k'.procs t) ⊆ K)
    (hareas : ∀ q ∈ [(k'.procs t).data, (k'.procs t).userSp, (k'.procs t).signalSp],
      ∃ v ∈ (k'.procs t).vmaList, v.isAlloced = true ∧ v.physAddr = virtToPhys q) :
    ¬ Referenced t k' p := by
  have hblock : k'.alloc.Holds base
      (ownBlock p 0 ++ (areaBlocks (fun _ => 0) (k'.procs t).vmaList ++ K)) := by
    refine hh.perm (perm_of_count fun e => ?_)
    simp only [List.count_append]
    omega
  have hphys := hblock.physToVirt_own
  have hnd := hh.holds.nodup
  rw [ownBlock_of_ne hp, addrs_append, addrs_append, List.nodup_append, List.nodup_append] at hnd
  have hin : p ∈ addrs [(p, 0)] := List.mem_singleton_self p
  have harea : p ∉ areaAddrs (k'.procs t).vmaList := fun hm => hnd.1.2.2 p hm p hin rfl
  have hK : p ∉ addrs K := fun hm => hnd.2.2 p (List.mem_append_right _ hin) p hm rfl
  intro href
  cases href with
  | inl hm => exact harea hm
  | inr hm =>
      cases mem_fields hm hp with
      | inr hm =>
          obtain ⟨m, hm⟩ := mem_addrs.1 hm
          exact hK (mem_addrs.2 ⟨m, hkept hm⟩)
      | inl hm =>
          obtain ⟨v, hv, hall, hphysAddr⟩ := hareas p hm
          refine harea (mem_addrs.2 ⟨0, List.mem_flatMap.2 ⟨v, hv, ?_⟩⟩)
          rw [Vma.blocks, if_pos hall, hphysAddr, hphys, ownBlock_of_ne hp]
          simp

/-- **`exec` leaks** the first block it asks for: nothing is left behind exactly
when there was no block to be had. -/
theorem exec_leaks_iff (h : Owns (fun _ => 0) base R k.sched.currThread k)
    (hx : exec (some f) k = some ((), k')) : LeaksNothing k k' ↔ RefusesImage f k := by
  obtain ⟨k₁, dropped, a₁, O, K, N, hdel, hfirst, hO, hN, haddrO, rfl, hK⟩ := h.exec_blocks hx
  have hlive (p : Nat) := hO.holds.replace hN.holds (p := p)
  simp only [haddrO, addrs_append, List.mem_append] at hlive
  rw [refusesImage_iff h hdel hfirst]
  constructor
  · intro hnone
    by_contra hne
    have hmem : dropped ∈ addrs (ownBlock dropped 0) := by simp [ownBlock_of_ne hne]
    cases hnone.rest dropped ((hlive dropped).2 (Or.inr (Or.inr hmem))) with
    | inl hold =>
        rw [← haddrO] at hold
        refine hO.holds.replace_new hN.holds ?_ hold
        rw [addrs_append]
        exact List.mem_append_right _ hmem
    | inr href => exact not_referenced hN hne hK (fun q hq => exec_imageAreas hx hq) href
  · rintro rfl
    refine ⟨fun p hp hout => (hlive p).2 (Or.inl ⟨hp, hout⟩), fun p hp => ?_⟩
    simp only [ownBlock_null, addrs_nil, List.not_mem_nil, or_false] at hlive
    exact ((hlive p).1 hp).imp_right Or.inl

/-! ## a program that replaces another -/

/-- The first page table is mapped. -/
theorem Owns.pgd_mapped (h : Owns (fun _ => 0) base R t k) :
    Mapped (physToVirt (k.procs t).context.pgd) 0x1000 := by
  have hm : (physToVirt (k.procs t).context.pgd, 0x1000) ∈ (k.procs t).blocks (fun _ => 0) k.words ++ R := by
    simp [Process.blocks, tableBlocks, pageBlocks]
  obtain ⟨n, hn, hle⟩ := h.holds.holds.backed _ hm
  exact mapped_of_region h.holds.settled hn hle

theorem Owns.mmuDelAllVma_returns (h : Owns (fun _ => 0) base R t k) (hroom : k.alloc.Room n) :
    Returns (mmuDelAllVma t) k n fun _ k' => k'.sched = k.sched ∧ k'.words = k.words ∧
      k'.procs t = (k.procs t).noAreas := by
  have hh := h.holds
  unfold Process.blocks at hh
  rw [List.append_assoc] at hh
  obtain ⟨a, hrun, -, hr⟩ := delVmas_room hh
  unfold mmuDelAllVma
  refine .step (proc_some.2 rfl) rfl (.step hrun rfl ?_)
  refine .modify (hr n hroom) rfl ⟨rfl, rfl, ?_⟩
  exact Function.update_self ..

/-- Nothing is freed below an empty table. -/
theorem mmuFreePageTables_empty {m : TableMem} {d pageTable : Nat}
    (h : ∀ i < 512, m.words (physToVirt pageTable + 8 * i) = 0) :
    mmuFreePageTables d pageTable m = some m := by
  have hloop (below : Nat → TableMem → Option TableMem) (is : List Nat) (his : ∀ i ∈ is, i < 512) :
      is.foldlM (fun m i => freeEntry below (physToVirt pageTable) i m) m = some m := by
    induction is with
    | nil => rfl
    | cons i is ih =>
        have hi := h i (his i List.mem_cons_self)
        rw [List.foldlM_cons, freeEntry, if_neg (by simp [hi])]
        exact ih fun j hj => his j (List.mem_cons_of_mem _ hj)
  cases d with
  | zero => exact hloop _ _ fun i hi => List.mem_range.1 hi
  | succ d => exact hloop _ _ fun i hi => List.mem_range.1 hi

theorem entries_zero {w : Nat → Nat} {d pgd i : Nat} (h : subTables (d + 1) w pgd = []) (hi : i < 512) :
    w (pgd + 8 * i) = 0 := by
  by_contra hne
  have hm : tableChild (w (pgd + 8 * i)) ∈ subTables (d + 1) w pgd :=
    mem_subTables.2 ⟨i, hi, hne, Or.inl rfl⟩
  rw [h] at hm
  cases hm

/-- The `vfs_read` of `exec` comes back. -/
def Reads (f : ExecFile) : Prop :=
  ∀ (handle : FileHandle) (data : Nat) (k : Kernel), handle.fPos = 0 →
    Mapped data (granted (getsize f % 2 ^ 32)) →
      ∃ k', vfsRead f handle data (getsize f % 2 ^ 32) k = some ((), k') ∧ k'.alloc = k.alloc ∧ k'.oom = k.oom

theorem reads_tmpfs (hf : f.node.fOps = .tmpfs) (hsize : f.size ≤ 0x4000) : Reads f := by
  intro handle data k hpos hm
  have hget : getsize f % 2 ^ 32 = f.size := by
    simp only [getsize, hf]
    exact Nat.mod_eq_of_lt (by omega)
  rw [hget] at hm ⊢
  have hle : f.size ≤ granted f.size := le_granted (by unfold maxRequest frameSize; omega)
  unfold vfsRead
  simp only [hf, hpos]
  rw [if_neg (by omega)]
  exact ⟨_, store_some.2 ⟨hm.mono hle, rfl⟩, rfl, rfl⟩

/-- All but the UART start at the front. -/
theorem openHandle_fPos {node : VnodeRef} (h : node.fOps ≠ .uart) (content : FileHandle) :
    (openHandle node content).fPos = 0 := by
  unfold openHandle
  cases hf : node.fOps with
  | uart => exact absurd hf h
  | tmpfs => rfl
  | initramfs => rfl
  | framebuffer => rfl

/-- A handle that was just opened is closed again. -/
theorem vfsClose_returns {handle : Nat} {content : FileHandle} {k₁ : Kernel}
    (hopen : NewFile handle content k k₁) (hroom : k.alloc.Room (n + 1))
    (ha : k'.alloc = k₁.alloc) :
    Returns (vfsClose handle) k' n fun _ _ => True := by
  obtain ⟨a, hk, rfl⟩ := hopen.some
  obtain ⟨p, a₁, hres, -, hadds, hr⟩ := hroom.kmalloc (by decide : fileBytes % 2 ^ 32 ≤ 0x4000)
  obtain ⟨rfl, rfl⟩ := Prod.mk.inj (Option.some.inj (hres.symm.trans hk))
  obtain ⟨a₂, hfree, -, hr'⟩ := hr.kfree ((hadds.region _ _).2 (Or.inr ⟨rfl, rfl⟩))
  refine ⟨(), _, kfree_some.2 ⟨a₂, ?_, rfl⟩, hr', rfl, trivial⟩
  rw [ha]
  exact hfree

/-- `exec` comes back when there is room for ten blocks and no page is mapped, for
a file that takes a small order. -/
theorem exec_returns (h : Owns (fun _ => 0) base R k.sched.currThread k)
    (hempty : subTables 3 k.words (physToVirt (k.procs k.sched.currThread).context.pgd) = [])
    (hf : f.node.fOps ≠ .uart) (ho : size2order (getsize f % 2 ^ 32) ≤ 2) (hread : Reads f)
    (hroom : k.alloc.Room (n + 10)) :
    Returns (exec (some f)) k n fun _ _ => True := by
  have hlt : getsize f % 2 ^ 32 < 2 ^ 32 := Nat.mod_lt _ (by decide)
  have hstack : ustackSize ≤ 0x4000 := by decide
  have hframe : frameSize ≤ 0x4000 := by decide
  unfold exec
  refine .step (currThread_some.2 rfl) rfl ?_
  refine (h.mmuDelAllVma_returns hroom).bind fun _ k₁ _ h₁ ⟨hs₁, hw₁, hp₁⟩ => ?_
  dsimp only
  refine (kmalloc_adds h₁ ho hlt).bind fun dropped k₂ _ h₂ ⟨_, _, a₂, hk₂, _⟩ => ?_
  refine (kmalloc_adds h₂ ho hlt).bind fun data k₃ _ h₃ ⟨_, hdata, a₃, hk₃, _⟩ => ?_
  refine (kmalloc_returns h₃ hstack).bind fun userSp k₄ _ h₄ ⟨_, _, a₄, hk₄⟩ => ?_
  refine (kmalloc_returns h₄ hframe).bind fun signalSp k₅ _ h₅ ⟨_, _, a₅, hk₅⟩ => ?_
  refine .step (modifyProc_some.2 rfl) rfl (.step (proc_some.2 rfl) rfl ?_)
  subst hk₂ hk₃ hk₄ hk₅
  rw [setProc_procs]
  dsimp only
  have hpgd : (k₁.procs k.sched.currThread).context.pgd = (k.procs k.sched.currThread).context.pgd := by
    rw [hp₁]
    rfl
  rw [hpgd]
  -- there is no table below the first one
  refine .step (onTables_some.2 ⟨_, mmuFreePageTables_empty fun i hi => ?_, rfl⟩) rfl ?_
  · rw [setProc_words]
    dsimp only
    rw [hw₁]
    exact entries_zero hempty hi
  have h₅' : a₅.Room (n + 6) := h₅
  refine Returns.bind (clearTable_returns (n := n + 6) ?_ h.pgd_mapped) fun _ k₆ _ h₆ _ => ?_
  · rw [setProc_alloc]
    exact h₅'
  refine (addImageAreas_returns h₆).bind fun _ k₇ _ h₇ _ => ?_
  refine (addFixedAreas_returns h₇).bind fun _ k₈ _ h₈ _ => ?_
  refine (openNode_returns f.node 0 h₈).bind fun handle k₉ hopen h₉ _ => ?_
  have hnew := openNode_some hopen
  refine .step (get_some.2 rfl) rfl ?_
  have hpos : (k₉.files handle).fPos = 0 := by
    obtain ⟨a, -, rfl⟩ := hnew.some
    simp [openHandle_fPos hf]
  obtain ⟨k₁₀, hk₁₀, ha, hoom⟩ := hread (k₉.files handle) data k₉ hpos hdata
  refine .step hk₁₀ hoom ?_
  refine (vfsClose_returns hnew h₈ ha).bind fun _ k₁₁ _ h₁₁ _ => ?_
  refine .step (get_some.2 rfl) rfl ?_
  exact .modify h₁₁ rfl trivial

/-- The first program holds its blocks. -/
theorem Booted.owns {data filesize : Nat} {uart : VnodeRef} (h : k.Booted data filesize uart) :
    ∃ base, Owns (fun _ => 0) base [] k.sched.currThread k := by
  have hok := h.ok_zero
  exact ⟨_, hok.owns (hok.living h.curr_ne)⟩

/-- With room left there is a block for the image. -/
theorem Owns.not_refuses (h : Owns (fun _ => 0) base R k.sched.currThread k)
    (hx : Kernel.exec (some f) k = some ((), k')) (hroom : k.alloc.Room 1)
    (hsize : getsize f % 2 ^ 32 ≤ 0x4000) : ¬ RefusesImage f k := by
  obtain ⟨k₁, dropped, a₁, -, -, -, hdel, hfirst, -⟩ := h.exec_blocks hx
  rw [refusesImage_iff h hdel hfirst]
  obtain ⟨⟨⟩, k₂, hdel', hr, -⟩ := h.mmuDelAllVma_returns hroom
  obtain ⟨-, rfl⟩ := Prod.mk.inj (Option.some.inj (hdel.symm.trans hdel'))
  obtain ⟨p, a, hk, hp, -⟩ := Alloc.Room.kmalloc hr hsize
  obtain ⟨rfl, -⟩ := Prod.mk.inj (Option.some.inj (hfirst.symm.trans hk))
  exact hp

/-- A file of one byte. -/
def byteFile : ExecFile := ⟨⟨0, .tmpfs⟩, 1, fun _ => 0⟩

/-- The first program replaces itself by a file of one byte. -/
theorem exec_boot : ∃ (k₀ k' : Kernel) (base : Nat → Nat → Prop), k₀.Booted 0 1 ⟨0, .uart⟩ ∧
    Owns (fun _ => 0) base [] k₀.sched.currThread k₀ ∧ exec (some byteFile) k₀ = some ((), k') ∧
    ¬ RefusesImage byteFile k₀ := by
  obtain ⟨k₀, hb, hroom, -⟩ := smallBooted ⟨0, .uart⟩ (by decide : 1 ≤ 0x4000)
  obtain ⟨base, hown⟩ := hb.owns
  have hroom' : k₀.alloc.Room (1 + 10) := hroom.mono (by decide)
  obtain ⟨⟨⟩, k', hx, -⟩ := exec_returns (f := byteFile) hown hb.noTables (by decide) (by decide)
    (reads_tmpfs rfl (by decide)) hroom'
  exact ⟨k₀, k', base, hb, hown, hx, hown.not_refuses hx (hroom.mono (by decide)) (by decide)⟩

theorem exec_leaks_iff_boot : ∃ k₀ k' : Kernel, k₀.Booted 0 1 ⟨0, .uart⟩ ∧
    exec (some byteFile) k₀ = some ((), k') ∧ (LeaksNothing k₀ k' ↔ RefusesImage byteFile k₀) := by
  obtain ⟨k₀, k', base, hb, hown, hx, -⟩ := exec_boot
  exact ⟨k₀, k', hb, hx, exec_leaks_iff hown hx⟩

/-- A page is lost. -/
theorem exec_leaks : ¬ ∀ (base : Nat → Nat → Prop) (R : Blocks) (k k' : Kernel) (f : ExecFile),
    Owns (fun _ => 0) base R k.sched.currThread k → exec (some f) k = some ((), k') →
      LeaksNothing k k' := by
  intro hall
  obtain ⟨k₀, k', base, -, hown, hx, hnot⟩ := exec_boot
  exact hnot ((exec_leaks_iff hown hx).1 (hall base [] k₀ k' byteFile hown hx))

end Kernel

end RpiKernel
