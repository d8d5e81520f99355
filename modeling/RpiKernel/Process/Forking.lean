import RpiKernel.Process.Owning

/-!
# RpiKernel.Process.Forking

What new programs hold: the blocks that `thread_create` asks for end up in the
areas of the program (`thread_exec`, `exec`), or are freed when the copy of an
area of the parent replaces them (`fork`).
-/

namespace RpiKernel

open Custody Sched Runs

/-- An empty page is a tree. -/
theorem Tree.empty {w : Nat → Nat} {p : Nat} (hp : p % 0x1000 = 0) (h : ∀ i < 512, w (p + 8 * i) = 0) :
    Tree 3 w p ∧ subTables 3 w p = [] := by
  obtain ⟨hsub, hent, -⟩ := empty_table (d := 3) h 0
  exact ⟨⟨hp, hent, by rw [hsub]; exact List.nodup_singleton p⟩, hsub⟩

namespace Kernel

variable {base : Nat → Nat → Prop} {L R : Blocks} {size : Nat → Nat} {k k' k₁ : Kernel} {t n : Nat}

/-- A page that is held. -/
theorem page_of_holds {a : Alloc} {p : Nat} (h : a.Holds base ((p, 0x1000) :: L)) :
    p % 0x1000 = 0 := by
  obtain ⟨m, hr, hm⟩ := h.holds.backed _ List.mem_cons_self
  exact h.settled.page_aligned hr hm

/-! ## the areas of a program -/

/-- The image and the stack of a program go to its areas. -/
theorem addImageAreas_holds (hh : k.alloc.Holds base
      (ownBlock (k.procs t).data (size (roundPage (k.procs t).datasize)) ++
        (ownBlock (k.procs t).userSp (size (roundPage ustackSize)) ++ L)))
    (h : addImageAreas t k = some ((), k')) : ∃ a₁ a₂,
    k'.procs t = (k.procs t).addAreas (imageAreas (k.procs t) a₁ a₂) ∧
      k'.alloc.Holds base (areaBlocks size (imageAreas (k.procs t) a₁ a₂) ++ L) := by
  obtain ⟨a₁, a₂, a, hne, hg, hr⟩ := addImageAreas_some h
  obtain ⟨-, rfl⟩ := Prod.mk.inj hr
  refine ⟨a₁, a₂, setProc_procs _, ?_⟩
  have hrec : vmaBytes ≤ granted (vmaBytes % 2 ^ 32) := by decide
  have hms : List.Forall₂ (fun (r : Nat × Nat) m => m ≤ granted (r.1 % 2 ^ 32)) (records [a₁, a₂])
      [vmaBytes, vmaBytes] := .cons hrec (.cons hrec .nil)
  have hdata := hh.physToVirt_own
  have hswap : k.alloc.Holds base (ownBlock (k.procs t).userSp (size (roundPage ustackSize)) ++
      (ownBlock (k.procs t).data (size (roundPage (k.procs t).datasize)) ++ L)) :=
    hh.perm (perm_of_count fun e => by simp only [List.count_append]; omega)
  have huser := hswap.physToVirt_own
  have hb := hg.holds hh hms
  refine hb.perm (perm_of_count fun e => ?_)
  simp only [grantBlocks, records, imageAreas, List.map_cons, List.map_nil, areaBlocks_cons,
    areaBlocks_nil, Vma.blocks, hdata, huser, if_true, ownBlock_of_ne (hne a₁ (by simp)),
    ownBlock_of_ne (hne a₂ (by simp)), List.count_append, List.count_cons, List.count_nil]
  omega

/-- The signal stack goes to its area. -/
theorem addFixedAreas_holds
    (hh : k.alloc.Holds base (ownBlock (k.procs t).signalSp (size (roundPage frameSize)) ++ L))
    (h : addFixedAreas t k = some ((), k')) : ∃ vs, k'.procs t = (k.procs t).addAreas vs ∧
      k'.alloc.Holds base (areaBlocks size vs ++ L) := by
  obtain ⟨a₁, a₂, a₃, a, hne, hg, hr⟩ := addFixedAreas_some h
  obtain ⟨-, rfl⟩ := Prod.mk.inj hr
  refine ⟨_, setProc_procs _, ?_⟩
  have hrec : vmaBytes ≤ granted (vmaBytes % 2 ^ 32) := by decide
  have hms : List.Forall₂ (fun (r : Nat × Nat) m => m ≤ granted (r.1 % 2 ^ 32)) (records [a₁, a₂, a₃])
      [vmaBytes, vmaBytes, vmaBytes] := .cons hrec (.cons hrec (.cons hrec .nil))
  have hsignal := hh.physToVirt_own
  have hb := hg.holds hh hms
  refine hb.perm (perm_of_count fun e => ?_)
  simp only [grantBlocks, records, fixedAreas, List.map_cons, List.map_nil, areaBlocks_cons,
    areaBlocks_nil, Vma.blocks, hsignal, if_true, Bool.false_eq_true, if_false,
    ownBlock_of_ne (hne a₁ (by simp)), ownBlock_of_ne (hne a₂ (by simp)),
    ownBlock_of_ne (hne a₃ (by simp)), List.count_append, List.count_cons, List.count_nil]
  omega

/-- The areas of a program, and those that every process gets. -/
theorem programAreas_holds (hh : k.alloc.Holds base
      (ownBlock (k.procs t).data (size (roundPage (k.procs t).datasize)) ++
        (ownBlock (k.procs t).userSp (size (roundPage ustackSize)) ++
          (ownBlock (k.procs t).signalSp (size (roundPage frameSize)) ++ L))))
    (h : addImageAreas t k = some ((), k₁)) (h' : addFixedAreas t k₁ = some ((), k')) : ∃ vs,
    k'.procs t = (k.procs t).addAreas vs ∧ k'.alloc.Holds base (areaBlocks size vs ++ L) := by
  obtain ⟨a₁, a₂, hp, hh₁⟩ := addImageAreas_holds hh h
  have hsig : (k₁.procs t).signalSp = (k.procs t).signalSp := by rw [hp]; rfl
  have hfixed : k₁.alloc.Holds base (ownBlock (k₁.procs t).signalSp (size (roundPage frameSize)) ++
      (areaBlocks size (imageAreas (k.procs t) a₁ a₂) ++ L)) := by
    rw [hsig]
    refine hh₁.perm (perm_of_count fun e => ?_)
    simp only [List.count_append]
    omega
  obtain ⟨vs, hp', hh'⟩ := addFixedAreas_holds hfixed h'
  refine ⟨imageAreas (k.procs t) a₁ a₂ ++ vs, ?_, ?_⟩
  · rw [hp', hp, Process.addAreas_addAreas]
  · refine hh'.perm (perm_of_count fun e => ?_)
    simp only [areaBlocks_append, List.count_append]
    omega

/-! ## new threads -/

/-- The blocks of `thread_create`, of which `d`, `u` and `g` bytes of the image
and the stacks are relied on. -/
def NewThread.blocks (b : NewThread) (d u g : Nat) : Blocks :=
  ownBlock b.data d ++ (ownBlock b.userSp u ++ (ownBlock b.signalSp g ++
    (ownBlock b.kernelSp kstackSize ++ [(b.pgd, 0x1000)])))

/-- What `thread_create` leaves: a thread with its blocks, and an empty table. -/
structure Creation (base : Nat → Nat → Prop) (L : Blocks) (t d u g : Nat) (b : NewThread)
    (k k' : Kernel) : Prop where
  holds : k'.alloc.Holds base (b.blocks d u g ++ L)
  pgd : physToVirt (virtToPhys b.pgd) = b.pgd
  tree : Tree 3 k'.words b.pgd
  empty : subTables 3 k'.words b.pgd = []
  tables : SameTables base k k'
  other : ∀ u, u ≠ t → k'.procs u = k.procs u

theorem threadCreate_holds {start filesize d u g : Nat} (hh : k.alloc.Holds base L)
    (h : threadCreate start filesize k = some (some t, k')) (hd : d ≤ granted (filesize % 2 ^ 32))
    (hu : u ≤ granted (ustackSize % 2 ^ 32)) (hg : g ≤ granted (frameSize % 2 ^ 32)) :
    ∃ b : NewThread, k'.procs t = b.process start filesize k.defaultHandler (k.procs t) ∧
      Creation base L t d u g b k k' := by
  obtain ⟨s, b, a, -, hgr, hmap, rfl⟩ := threadCreate_some h
  have hk : kstackSize ≤ granted (kstackSize % 2 ^ 32) := by decide
  have hp : 0x1000 ≤ granted (0x1000 % 2 ^ 32) := by decide
  have hms : List.Forall₂ (fun (r : Nat × Nat) m => m ≤ granted (r.1 % 2 ^ 32)) (b.requests filesize)
      [u, kstackSize, g, d, 0x1000] := .cons hu (.cons hk (.cons hg (.cons hd (.cons hp .nil))))
  have hpgd : b.pgd ≠ 0 := by
    unfold Mapped kernelMapSize at hmap
    omega
  have hb : a.Holds base ((b.pgd, 0x1000) :: (ownBlock b.data d ++ (ownBlock b.userSp u ++
      (ownBlock b.signalSp g ++ (ownBlock b.kernelSp kstackSize ++ L))))) := by
    refine (hgr.holds hh hms).perm (perm_of_count fun e => ?_)
    simp only [grantBlocks, NewThread.requests, ownBlock_of_ne hpgd, List.count_append,
      List.count_cons, List.count_nil]
    omega
  have hpage := page_of_holds hb
  have hzero : ∀ i < 512, zeroPage b.pgd k.words (b.pgd + 8 * i) = 0 := fun i hi => zeroPage_here hi
  obtain ⟨htree, hempty⟩ := Tree.empty hpage hzero
  refine ⟨b, setProc_procs _, ?_, ?_, htree, hempty, fun q hq hbase i hi => ?_, fun u hu =>
    setProc_procs_other _ hu⟩
  · refine hb.perm (perm_of_count fun e => ?_)
    simp only [NewThread.blocks, List.count_append, List.count_cons, List.count_nil]
    omega
  · rw [← List.singleton_append, ← ownBlock_of_ne hpgd] at hb
    exact hb.physToVirt_own
  · obtain ⟨n, hbase⟩ := hbase
    refine zeroPage_other hpage hq (fun he => ?_) hi
    exact hb.holds.apart _ List.mem_cons_self n (he ▸ hbase)

/-! ## `exec` -/

/-- A state whose tables and one thread were replaced, by its parts.  The
kernel compares the records faster when the parts are variables. -/
theorem setProc_parts {P : Kernel → Prop} (k : Kernel) (a : Alloc) (w : Nat → Nat) (f : Process → Process)
    (h : P (setProc t f { k with alloc := a, words := w })) :
    ∃ k', P k' ∧ k'.procs t = f (k.procs t) ∧ k'.alloc = a ∧ k'.words = w :=
  ⟨_, h, setProc_procs _, rfl, rfl⟩

/-- A handle that is closed at once. -/
theorem NewFile.closed {handle : Nat} {content : FileHandle} {a : Alloc}
    (h : NewFile handle content k k') (hh : k.alloc.Holds base L)
    (hc : RpiKernel.kfree handle k'.alloc = Option.some a) : a.Holds base L := by
  obtain ⟨a₁, ha, rfl⟩ := h.some
  have hb := hh.kmalloc_own ha (by decide : fileBytes ≤ granted (fileBytes % 2 ^ 32))
  exact hb.kfree_eq hc

/-- The thread gives its areas and tables back and gets new ones; the block of
the first request is lost. -/
theorem Owns.exec_dropped {f : ExecFile} (h : Owns size base R k.sched.currThread k)
    (hf : Covers size (getsize f % 2 ^ 32)) (hu : Covers size ustackSize)
    (hg : Covers size frameSize) (hx : Kernel.exec (some f) k = some ((), k')) :
    ∃ k₁ dropped a₁, mmuDelAllVma k.sched.currThread k = some ((), k₁) ∧
      RpiKernel.kmalloc (getsize f % 2 ^ 32 % 2 ^ 32) k₁.alloc = some (dropped, a₁) ∧
      Owns size base (ownBlock dropped 0 ++ R) k.sched.currThread k' ∧
      subTables 3 k'.words (physToVirt (k'.procs k.sched.currThread).context.pgd) = [] ∧
      SameTables base k k' := by
  obtain ⟨f', k₁, dropped, data, userSp, signalSp, a, m, k₃, k₄, handle, k₅, mem, a', he, hdel, hgr,
    hfree, -, himg, hfix, hopen, hclose, hk'⟩ := exec_some hx
  obtain rfl := Option.some.inj he
  obtain ⟨a₁, hfirst⟩ := hgr.head
  refine ⟨k₁, dropped, a₁, hdel, hfirst, ?_⟩
  clear hfirst
  generalize k.sched.currThread = t at *
  generalize getsize f % 2 ^ 32 = ds at *
  obtain ⟨k₂, hvmas, rfl⟩ := mmuDelAllVma_some hdel
  -- the areas
  have hh := h.holds
  unfold Process.blocks at hh
  rw [List.append_assoc] at hh
  obtain ⟨a₀, hdel', hh₀⟩ := delVmas_holds hh
  obtain ⟨-, rfl⟩ := Prod.mk.inj (Option.some.inj (hvmas.symm.trans hdel'))
  have hms : List.Forall₂ (fun (r : Nat × Nat) m => m ≤ granted (r.1 % 2 ^ 32))
      (execRequests ds dropped data userSp signalSp)
      [0, size (roundPage ds), size (roundPage ustackSize), size (roundPage frameSize)] :=
    .cons (Nat.zero_le _) (.cons hf (.cons hu (.cons hg .nil)))
  have hgrant := hgr.holds hh₀ hms
  generalize hrs : grantBlocks (execRequests ds dropped data userSp signalSp)
    [0, size (roundPage ds), size (roundPage ustackSize), size (roundPage frameSize)] = rs at hgrant
  -- the page tables
  obtain ⟨kx, hproc, hkw, hka, hkm⟩ : ∃ kx : Kernel, kx.procs t = (k.procs t).noAreas ∧
      kx.words = k.words ∧ kx.alloc = a ∧ kx.toTableMem = ⟨a, k.words⟩ :=
    ⟨setProc t Process.noAreas { k with alloc := a }, setProc_procs _, rfl, rfl, rfl⟩
  have hown : Owns size base (rs ++ R) t kx := by
    refine ⟨?_, by rw [hproc, hkw]; exact h.tree, by rw [hproc]; exact h.last⟩
    rw [hproc, hkw, hka]
    refine hgrant.perm (perm_of_count fun e => ?_)
    simp only [Process.blocks, Process.noAreas, areaBlocks_nil, List.nil_append, List.count_append]
    omega
  obtain ⟨m', hm', hh₁, -, -, hsame⟩ := hown.freeTables
  rw [hproc, hkm] at hm'
  rw [hproc] at hh₁
  rw [setProc_procs] at hfree himg
  rw [setProc_words] at hfree
  obtain rfl := Option.some.inj (hfree.symm.trans hm')
  have hpgd : (k.procs t).noAreas.context.pgd = (k.procs t).context.pgd := rfl
  rw [hpgd] at himg hh₁
  have hpage := h.tree.aligned
  obtain ⟨htree, hempty⟩ := Tree.empty hpage (w := zeroPage (physToVirt (k.procs t).context.pgd) m.words)
    fun i hi => zeroPage_here hi
  have hpgd' : physToVirt (k.procs t).noAreas.context.pgd = physToVirt (k.procs t).context.pgd := rfl
  generalize physToVirt (k.procs t).context.pgd = pgd at himg hh₁ hpage htree hempty hpgd'
  -- the new areas
  obtain ⟨kI, hI, hprocI, hallocI, hwordsI⟩ :=
    setProc_parts (P := fun kI => addImageAreas t kI = some ((), k₃)) _ _ _ _ himg
  have hprocI : kI.procs t = (k.procs t).noAreas.load ds data userSp signalSp := by
    rw [hprocI]
    dsimp only [took]
    rw [setProc_procs]
  have hprogram : kI.alloc.Holds base
      (ownBlock (kI.procs t).data (size (roundPage (kI.procs t).datasize)) ++
        (ownBlock (kI.procs t).userSp (size (roundPage ustackSize)) ++
          (ownBlock (kI.procs t).signalSp (size (roundPage frameSize)) ++
            (fileBlocks (k.procs t).fileDescriptorsTable (List.range (maxFd + 1)) ++
              (ownBlock (k.procs t).kernelSp kstackSize ++ ((pgd, 0x1000) ::
                (ownBlock dropped 0 ++ R))))))) := by
    rw [hallocI, hprocI]
    refine hh₁.perm (perm_of_count fun e => ?_)
    have hc := congrArg (List.count e) hrs
    simp only [grantBlocks, execRequests, Process.noAreas, Process.load, areaBlocks_nil,
      List.count_append, List.count_cons, List.count_nil] at hc ⊢
    omega
  obtain ⟨vs, hprocs, hh₂⟩ := programAreas_holds hprogram hI hfix
  have hh₃ := hopen.closed hh₂ hclose
  have hframe := ((addImageAreas_frame hI).trans (addFixedAreas_frame hfix)).trans hopen.frame
  have hwords : k'.words = zeroPage pgd m.words := by
    rw [hk', setProc_words]
    exact hframe.words.trans hwordsI
  have hproc' : k'.procs t = (((k.procs t).noAreas.load ds data userSp signalSp).addAreas vs).inherit
      fun _ => k₅.defaultHandler := by
    rw [hk', setProc_procs]
    dsimp only
    rw [hopen.procs, hprocs, hprocI]
  have hpgd'' : physToVirt (k'.procs t).context.pgd = pgd := by
    rw [hproc']
    exact hpgd'
  have halloc : k'.alloc = a' := by rw [hk', setProc_alloc]
  refine ⟨⟨?_, ?_, ?_⟩, by rw [hpgd'', hwords]; exact hempty, fun q hq hb i hi => ?_⟩
  · rw [halloc]
    refine hh₃.perm (perm_of_count fun e => ?_)
    rw [Process.blocks, hpgd'', hwords, tableBlocks, hempty, hproc']
    simp only [Process.inherit, Process.addAreas, Process.load, Process.noAreas, List.nil_append,
      pageBlocks, List.map_cons, List.map_nil, List.count_append, List.count_cons, List.count_nil]
    omega
  · rw [hpgd'', hwords]
    exact htree
  · rw [hproc']
    exact h.last
  · obtain ⟨n, hn⟩ := hb
    have hne : q ≠ pgd := fun he => hh₂.holds.apart (pgd, 0x1000) (by simp) n (he ▸ hn)
    rw [hwords, zeroPage_other hpage hq hne hi]
    have hq' := hsame q hq ⟨n, hn⟩ i hi
    rw [hkw] at hq'
    exact hq'

theorem Owns.exec {f : ExecFile} (h : Owns size base R k.sched.currThread k)
    (hf : Covers size (getsize f % 2 ^ 32)) (hu : Covers size ustackSize)
    (hg : Covers size frameSize) (hx : Kernel.exec (some f) k = some ((), k')) :
    ∃ lost, Owns size base (lost ++ R) k.sched.currThread k' ∧ SameTables base k k' := by
  obtain ⟨k₁, dropped, a₁, -, -, hown, -, hsame⟩ := h.exec_dropped hf hu hg hx
  exact ⟨ownBlock dropped 0, hown, hsame⟩

/-! ## the files of a child -/

/-- Entries that are not looked at stay. -/
theorem copyFiles_entry {parent i : Nat} {is : List Nat} (hi : i ∉ is)
    (h : copyFiles parent t is k = some ((), k')) :
    (k'.procs t).fileDescriptorsTable i = (k.procs t).fileDescriptorsTable i := by
  induction is generalizing k with
  | nil =>
      unfold copyFiles at h
      obtain ⟨-, rfl⟩ := Prod.mk.inj (pure_some.1 h)
      rfl
  | cons j is ih =>
      rw [List.mem_cons, not_or] at hi
      obtain ⟨k₁, hc, h⟩ := copyFiles_cons h
      rw [ih hi.2 h]
      rcases hc with ⟨-, rfl⟩ | ⟨-, f, k₂, hn, rfl⟩
      · rfl
      · rw [setProc_procs, ← hn.procs]
        exact Function.update_of_ne hi.1 _ _

/-- An entry that the parent does not have stays. -/
theorem copyFiles_absent {parent i : Nat} {is : List Nat} (hne : parent ≠ t)
    (h0 : (k.procs parent).fileDescriptorsTable i = 0)
    (h : copyFiles parent t is k = some ((), k')) :
    (k'.procs t).fileDescriptorsTable i = (k.procs t).fileDescriptorsTable i := by
  induction is generalizing k with
  | nil =>
      unfold copyFiles at h
      obtain ⟨-, rfl⟩ := Prod.mk.inj (pure_some.1 h)
      rfl
  | cons j is ih =>
      obtain ⟨k₁, hc, hrun⟩ := copyFiles_cons h
      rcases hc with ⟨-, rfl⟩ | ⟨hj, f, k₂, hn, rfl⟩
      · exact ih h0 hrun
      · have hij : i ≠ j := fun he => hj (he ▸ h0)
        have hparent : ((k₂.setProc t (Process.setFile j f)).procs parent).fileDescriptorsTable i = 0 := by
          rw [setProc_procs_other _ hne, hn.procs]
          exact h0
        rw [ih hparent hrun, setProc_procs, ← hn.procs]
        exact Function.update_of_ne hij _ _

/-- A table without the entries that `p` does not have. -/
def Process.dropStale (p c : Process) : Process :=
  { c with fileDescriptorsTable := fun i =>
      if p.fileDescriptorsTable i = 0 then 0 else c.fileDescriptorsTable i }

/-- The child holds the copies; nothing is said of the other entries. -/
theorem copyFiles_holds {parent : Nat} {is : List Nat} (hne : parent ≠ t) (hnd : is.Nodup)
    (hh : k.alloc.Holds base L) (h : copyFiles parent t is k = some ((), k')) :
    k'.alloc.Holds base
      (fileBlocks (Process.dropStale (k.procs parent) (k'.procs t)).fileDescriptorsTable is ++ L) := by
  induction is generalizing k L with
  | nil =>
      unfold copyFiles at h
      obtain ⟨-, rfl⟩ := Prod.mk.inj (pure_some.1 h)
      exact hh
  | cons i is ih =>
      rw [List.nodup_cons] at hnd
      obtain ⟨k₁, hc, hrun⟩ := copyFiles_cons h
      have hentry := copyFiles_entry hnd.1 hrun
      rw [fileBlocks_cons]
      rcases hc with ⟨hz, rfl⟩ | ⟨hz, f, k₂, hn, rfl⟩
      · have hdrop : (Process.dropStale (k₁.procs parent) (k'.procs t)).fileDescriptorsTable i = 0 := if_pos hz
        rw [hdrop, ownBlock_null, List.nil_append]
        exact ih hnd.2 hh hrun
      · obtain ⟨a, ha, hk₂⟩ := hn.some
        have hb := hh.kmalloc_own ha (by decide : fileBytes ≤ granted (fileBytes % 2 ^ 32))
        have hb₂ : (k₂.setProc t (Process.setFile i f)).alloc.Holds base (ownBlock f fileBytes ++ L) := by
          rw [setProc_alloc, hk₂]
          exact hb
        have hparent : (k₂.setProc t (Process.setFile i f)).procs parent = k.procs parent := by
          rw [setProc_procs_other _ hne, hn.procs]
        have hrest := ih hnd.2 hb₂ hrun
        rw [hparent] at hrest
        have hkeep : (Process.dropStale (k.procs parent) (k'.procs t)).fileDescriptorsTable i = f := by
          refine (if_neg hz).trans (hentry.trans ?_)
          rw [setProc_procs]
          exact Function.update_self ..
        rw [hkeep]
        refine hrest.perm (perm_of_count fun e => ?_)
        simp only [List.count_append]
        omega

/-! ## the areas of a child -/

/-- The blocks that copies of areas will replace. -/
def pending (p : Process) (vs : List Vma) : Blocks :=
  vs.flatMap fun v => ownBlock (replaced v.virtAddr p) 0

/-- At most one area at the address of the image, and one at that of the
stack. -/
def SingleHomes (vs : List Vma) : Prop :=
  (vs.countP fun v => v.virtAddr = userKernelBase) ≤ 1 ∧
    (vs.countP fun v => v.virtAddr = userStackBase - ustackSize) ≤ 1

theorem pending_count (p : Process) (vs : List Vma) (e : Nat × Nat) :
    (pending p vs).count e =
      (vs.countP fun v => v.virtAddr = userKernelBase) * (ownBlock p.data 0).count e +
        (vs.countP fun v => v.virtAddr = userStackBase - ustackSize) *
          (ownBlock p.userSp 0).count e := by
  have hne : userStackBase - ustackSize ≠ userKernelBase := by decide
  induction vs with
  | nil => simp [pending]
  | cons v vs ih =>
      unfold pending at ih ⊢
      rw [List.flatMap_cons, List.count_append, ih]
      unfold replaced
      by_cases h₁ : v.virtAddr = userKernelBase
      · have h₂ : v.virtAddr ≠ userStackBase - ustackSize := fun he => hne (he ▸ h₁)
        simp [h₁, hne.symm]
        ring
      · by_cases h₂ : v.virtAddr = userStackBase - ustackSize
        · simp [h₂, hne]
          ring
        · simp [h₁, h₂]

theorem SingleHomes.tail {v : Vma} {vs : List Vma} (h : SingleHomes (v :: vs)) : SingleHomes vs := by
  unfold SingleHomes at h ⊢
  simp only [List.countP_cons] at h
  omega

/-- What replaces the image or the stack is replaced by no other area. -/
theorem pending_adopt {v : Vma} {vs : List Vma} (h : SingleHomes (v :: vs)) (q : Nat) (p : Process) :
    pending (adopt v.virtAddr q p) vs = pending p vs := by
  unfold pending
  refine List.flatMap_congr fun w hw => ?_
  have hsame : ∀ a : Nat, (v :: vs).countP (fun u => u.virtAddr = a) ≤ 1 → v.virtAddr = a →
      w.virtAddr ≠ a := by
    intro a hc hv hwa
    have hpos : 0 < vs.countP fun u => u.virtAddr = a :=
      List.countP_pos_iff.2 ⟨w, hw, by simpa using hwa⟩
    rw [List.countP_cons_of_pos (by simpa using hv)] at hc
    omega
  have himage := hsame _ h.1
  have hstack := hsame _ h.2
  unfold replaced adopt
  grind

theorem adopt_vmaList (va q : Nat) (p : Process) : (adopt va q p).vmaList = p.vmaList := by
  unfold adopt
  grind

/-- What is not copied replaces nothing. -/
theorem pending_skipped {v : Vma} (hskip : skipped v) (p : Process) (vs : List Vma) :
    pending p (v :: vs) = pending p vs := by
  have himage : userKernelBase ∉ [userSignalWrapperVa, peripheralStart, userSignalStkstartVa] := by decide
  have hstack : userStackBase - ustackSize ∉ [userSignalWrapperVa, peripheralStart, userSignalStkstartVa] := by
    decide
  have hzero : replaced v.virtAddr p = 0 := by
    unfold skipped at hskip
    unfold replaced
    grind
  unfold pending
  rw [List.flatMap_cons, hzero, ownBlock_null, List.nil_append]

/-- The child holds one more copy; the block it replaces is freed. -/
theorem CopiesArea.holds {v : Vma} {vs : List Vma} {q addr : Nat} {a₁ a₂ a₃ : Alloc}
    (h : CopiesArea t v q addr a₁ a₂ a₃ k k') (hs : SingleHomes (v :: vs)) (hcov : Covers size v.areaSize)
    (hh : k.alloc.Holds base
      (pending (k.procs t) (v :: vs) ++ (areaBlocks size (k.procs t).vmaList ++ L))) :
    k'.alloc.Holds base (pending (k'.procs t) vs ++ (areaBlocks size (k'.procs t).vmaList ++ L)) := by
  have hsplit : pending (k.procs t) (v :: vs) =
      ownBlock (replaced v.virtAddr (k.procs t)) 0 ++ pending (k.procs t) vs := List.flatMap_cons
  rw [hsplit] at hh
  have hproc : k'.procs t = adopt v.virtAddr q ((k.procs t).addAreas [v.copyTo q addr]) := by
    rw [h.eq, setProc_procs]
  have hkeep : pending ((k.procs t).addAreas [v.copyTo q addr]) vs = pending (k.procs t) vs := rfl
  have harea := area_holds (v := v.copyTo q addr) hh h.block h.record h.ne rfl rfl hcov
  have hfree : a₂.Holds base (ownBlock (replaced v.virtAddr (k.procs t)) 0 ++
      (areaBlocks size [v.copyTo q addr] ++
        (pending (k.procs t) vs ++ (areaBlocks size (k.procs t).vmaList ++ L)))) := by
    refine harea.perm (perm_of_count fun e => ?_)
    simp only [List.count_append]
    omega
  have hrest := hfree.kfree_eq h.free
  rw [hproc, pending_adopt hs, hkeep, adopt_vmaList, h.eq, setProc_alloc]
  refine hrest.perm (perm_of_count fun e => ?_)
  simp only [Process.addAreas, areaBlocks_append, List.count_append]
  omega

/-- The child holds the copies; the blocks they replace are freed. -/
theorem copyAreas_holds {vs : List Vma} (hs : SingleHomes vs)
    (hcov : ∀ v ∈ vs, ¬ skipped v → Covers size v.areaSize)
    (hh : k.alloc.Holds base
      (pending (k.procs t) vs ++ (areaBlocks size (k.procs t).vmaList ++ L)))
    (h : copyAreas t vs k = some ((), k')) :
    k'.alloc.Holds base (areaBlocks size (k'.procs t).vmaList ++ L) := by
  induction vs generalizing k with
  | nil =>
      unfold copyAreas at h
      obtain ⟨-, rfl⟩ := Prod.mk.inj (pure_some.1 h)
      exact hh
  | cons v vs ih =>
      obtain ⟨k₁, hc, hrun⟩ := copyAreas_cons h
      have hcov' : ∀ w ∈ vs, ¬ skipped w → Covers size w.areaSize :=
        fun w hw => hcov w (List.mem_cons_of_mem _ hw)
      rcases hc with ⟨hskip, rfl⟩ | ⟨hskip, q, addr, a₁, a₂, a₃, hc⟩
      · rw [pending_skipped hskip] at hh
        exact ih hs.tail hcov' hh hrun
      · exact ih hs.tail hcov' (hc.holds hs (hcov v List.mem_cons_self hskip) hh) hrun

/-- Copying areas leaves the files alone. -/
theorem copyAreas_files {vs : List Vma} (h : copyAreas t vs k = some ((), k')) :
    (k'.procs t).fileDescriptorsTable = (k.procs t).fileDescriptorsTable := by
  induction vs generalizing k with
  | nil =>
      unfold copyAreas at h
      obtain ⟨-, rfl⟩ := Prod.mk.inj (pure_some.1 h)
      rfl
  | cons v vs ih =>
      obtain ⟨k₁, hc, hrun⟩ := copyAreas_cons h
      rcases hc with ⟨-, hk₁⟩ | ⟨-, q, addr, a₁, a₂, a₃, hc⟩
      · exact ih (hk₁ ▸ hrun)
      · rw [ih hrun, hc.eq, setProc_procs]
        unfold adopt
        split
        · rfl
        · split <;> rfl

/-! ## `fork` -/

/-- One area at the address of the image, and one at that of the stack. -/
def OneHome (vs : List Vma) : Prop :=
  (vs.countP fun v => v.virtAddr = userKernelBase) = 1 ∧
    (vs.countP fun v => v.virtAddr = userStackBase - ustackSize) = 1

instance (vs : List Vma) : Decidable (OneHome vs) := inferInstanceAs (Decidable (_ ∧ _))

theorem OneHome.single {vs : List Vma} (h : OneHome vs) : SingleHomes vs := ⟨h.1.le, h.2.le⟩

/-- The slot has no file that the parent lacks. -/
def NoStaleFile (p c : Process) : Prop :=
  ∀ i ≤ maxFd, p.fileDescriptorsTable i = 0 → c.fileDescriptorsTable i = 0

/-- Of the image and the stack of a new thread, copies of areas replace those that have an area. -/
theorem pending_split {vs : List Vma} (hs : SingleHomes vs) (p : Process) : ∃ lost,
    (ownBlock p.data 0 ++ ownBlock p.userSp 0).Perm (pending p vs ++ lost) ∧ (OneHome vs → lost = []) := by
  obtain ⟨himage, hstack⟩ := hs
  refine ⟨(if (vs.countP fun v => v.virtAddr = userKernelBase) = 0 then ownBlock p.data 0 else []) ++
    (if (vs.countP fun v => v.virtAddr = userStackBase - ustackSize) = 0 then ownBlock p.userSp 0 else []),
    perm_of_count fun e => ?_, fun hone => ?_⟩
  · simp only [List.count_append, pending_count]
    generalize (vs.countP fun v => v.virtAddr = userKernelBase) = i at *
    generalize (vs.countP fun v => v.virtAddr = userStackBase - ustackSize) = j at *
    obtain rfl | rfl : i = 0 ∨ i = 1 := by omega
    all_goals
      obtain rfl | rfl : j = 0 ∨ j = 1 := by omega
      all_goals simp [Nat.add_comm]
  · rw [hone.1, hone.2]
    rfl

/-- Before the areas are copied: the child holds what `thread_create` asked for and the copies of
the files. -/
theorem newChild_holds {handlers : Nat → Nat} {start filesize child parent : Nat} {k₂ : Kernel}
    (hne : parent ≠ child) (hg : Covers size frameSize) (hh : k.alloc.Holds base L)
    (h₁ : threadCreate start filesize k = some (some child, k₁))
    (h₂ : copyFiles parent child (List.range (maxFd + 1)) (k₁.setProc child (Process.inherit handlers)) =
      some ((), k₂)) : ∃ b : NewThread,
    k₁.procs child = b.process start filesize k.defaultHandler (k.procs child) ∧
      Creation base L child 0 0 (size (roundPage frameSize)) b k k₁ ∧ (k₂.procs child).vmaList = [] ∧
      k₂.alloc.Holds base (ownBlock (k₂.procs child).data 0 ++ (ownBlock (k₂.procs child).userSp 0 ++
        (ownBlock b.signalSp (size (roundPage frameSize)) ++
          (fileBlocks (Process.dropStale (k.procs parent) (k₂.procs child)).fileDescriptorsTable
            (List.range (maxFd + 1)) ++
            (ownBlock b.kernelSp kstackSize ++ ((b.pgd, 0x1000) :: L)))))) := by
  obtain ⟨b, hp₁, hnew⟩ := threadCreate_holds (d := 0) (u := 0) hh h₁ (Nat.zero_le _) (Nat.zero_le _) hg
  have hholds : (k₁.setProc child (Process.inherit handlers)).alloc.Holds base
      (b.blocks 0 0 (size (roundPage frameSize)) ++ L) := hnew.holds
  have hh₂ := copyFiles_holds hne List.nodup_range hholds h₂
  rw [setProc_procs_other _ hne, hnew.other _ hne] at hh₂
  obtain ⟨table, hp₂⟩ := copyFiles_child h₂
  rw [setProc_procs, hp₁] at hp₂
  refine ⟨b, hp₁, hnew, by rw [hp₂]; rfl, ?_⟩
  have hdata : (k₂.procs child).data = b.data := by rw [hp₂]; rfl
  have huser : (k₂.procs child).userSp = b.userSp := by rw [hp₂]; rfl
  rw [hdata, huser]
  refine hh₂.perm (perm_of_count fun e => ?_)
  simp only [List.count_append, NewThread.blocks, List.count_cons, List.count_nil]
  omega

/-- The child holds its own blocks and nobody else's, but for the files that were
in its slot. -/
theorem fork_copies {cpu : ThreadContext} {child : Nat} (hne : k.sched.currThread ≠ child)
    (hhome : SingleHomes (k.procs k.sched.currThread).vmaList)
    (hcov : ∀ v ∈ (k.procs k.sched.currThread).vmaList, ¬ skipped v → Covers size v.areaSize)
    (hg : Covers size frameSize) (hlast : (k.procs k.sched.currThread).fileDescriptorsTable maxFd = 0)
    (hh : k.alloc.Holds base L) (h : fork cpu k = some (child, k')) :
    ∃ lost, (OneHome (k.procs k.sched.currThread).vmaList → lost = []) ∧
      Owns size base (lost ++ L) child (k'.setProc child (Process.dropStale (k.procs k.sched.currThread))) ∧
      SameTables base k k' ∧ ∀ u, u ≠ child → (k.procs u).Alike (k'.procs u) := by
  obtain ⟨k₁, k₂, k₃, k₄, h₁, h₂, h₃, h₄, -, -, hk'⟩ := fork_some h
  generalize k.sched.currThread = parent at *
  obtain ⟨b, hp₁, hnew, hvma₂, hholds⟩ := newChild_holds hne hg hh h₁ h₂
  obtain ⟨lost, hsplit, hone⟩ := pending_split hhome (k₂.procs child)
  refine ⟨lost, hone, ?_⟩
  have hareas : k₂.alloc.Holds base (pending (k₂.procs child) (k.procs parent).vmaList ++
      (areaBlocks size (k₂.procs child).vmaList ++ (ownBlock b.signalSp (size (roundPage frameSize)) ++
        (fileBlocks (Process.dropStale (k.procs parent) (k₂.procs child)).fileDescriptorsTable
          (List.range (maxFd + 1)) ++
          (ownBlock b.kernelSp kstackSize ++ ((b.pgd, 0x1000) :: (lost ++ L))))))) := by
    refine hholds.perm (perm_of_count fun e => ?_)
    have hc := hsplit.count_eq e
    rw [hvma₂]
    simp only [List.count_append, areaBlocks_nil, List.nil_append, List.count_cons] at hc ⊢
    omega
  generalize hkA : k₁.setProc child (Process.inherit (k.procs parent).signalHandler) = kA at h₂
  have hpA : kA.procs child = (b.process (k.procs parent).data (k.procs parent).datasize
      k.defaultHandler (k.procs child)).inherit (k.procs parent).signalHandler := by
    rw [← hkA, setProc_procs, hp₁]
  have hwordsA : kA.words = k₁.words := by rw [← hkA, setProc_words]
  have hh₃ := copyAreas_holds hhome hcov hareas h₃
  have hkeep := (copyFiles_frame h₂).trans (copyAreas_frame h₃)
  have hsignal : (k₃.procs child).signalSp = b.signalSp := by
    rw [hkeep.keeps.signalSp, hpA]
    rfl
  have hfixed : k₃.alloc.Holds base (ownBlock (k₃.procs child).signalSp (size (roundPage frameSize)) ++
      (areaBlocks size (k₃.procs child).vmaList ++
          (fileBlocks (Process.dropStale (k.procs parent) (k₂.procs child)).fileDescriptorsTable
            (List.range (maxFd + 1)) ++
            (ownBlock b.kernelSp kstackSize ++ ((b.pgd, 0x1000) :: (lost ++ L)))))) := by
    rw [hsignal]
    refine hh₃.perm (perm_of_count fun e => ?_)
    simp only [List.count_append]
    omega
  obtain ⟨vs, hp₄, hh₄⟩ := addFixedAreas_holds hfixed h₄
  -- the child
  have hframe := hkeep.trans (addFixedAreas_frame h₄)
  have hpc : k'.procs child = Process.resume cpu (k.procs parent).kernelSp
      ((k₃.procs child).addAreas vs) := by
    rw [hk', setProc_procs, setProc_procs_other _ hne.symm]
    dsimp only
    rw [hp₄]
  have hpd : (k'.setProc child (Process.dropStale (k.procs parent))).procs child =
      Process.dropStale (k.procs parent) (Process.resume cpu (k.procs parent).kernelSp
        ((k₃.procs child).addAreas vs)) := by
    rw [setProc_procs, hpc]
  have hpgd : physToVirt ((k'.setProc child (Process.dropStale (k.procs parent))).procs child).context.pgd =
      b.pgd := by
    have hctx : (k₃.procs child).context.pgd = b.pgd := by
      rw [hkeep.keeps.context, hpA]
      rfl
    rw [hpd]
    show physToVirt (virtToPhys (k₃.procs child).context.pgd) = b.pgd
    rw [hctx]
    exact hnew.pgd
  have hwords : k'.words = k₁.words := by
    rw [hk', setProc_words, setProc_words]
    exact hframe.words.trans hwordsA
  have halloc : k'.alloc = k₄.alloc := by rw [hk', setProc_alloc, setProc_alloc]
  have hfiles : (k₃.procs child).fileDescriptorsTable = (k₂.procs child).fileDescriptorsTable :=
    copyAreas_files h₃
  have hstack : (k₃.procs child).kernelSp = b.kernelSp := by
    rw [hkeep.keeps.kernelSp, hpA]
    rfl
  refine ⟨⟨?_, ?_, ?_⟩, fun q hq hb i hi => ?_, fun u hu => ?_⟩
  · rw [setProc_alloc, halloc]
    refine hh₄.perm (perm_of_count fun e => ?_)
    rw [Process.blocks, hpgd, setProc_words, hwords, tableBlocks, hnew.empty, hpd]
    simp only [Process.dropStale, Process.resume, Process.addAreas, areaBlocks_append, hfiles, hstack,
      pageBlocks, List.map_cons, List.map_nil, List.count_append, List.count_cons, List.count_nil]
    omega
  · rw [hpgd, setProc_words, hwords]
    exact hnew.tree
  · rw [hpd]
    exact if_pos hlast
  · rw [hwords]
    exact hnew.tables q hq hb i hi
  · have hother : k₄.procs u = k.procs u := by
      rw [hframe.other u hu, ← hkA, setProc_procs_other _ hu, hnew.other u hu]
    rw [hk', setProc_procs_other _ hu]
    by_cases hup : u = parent
    · subst hup
      rw [setProc_procs]
      dsimp only
      rw [hother]
      exact ⟨rfl, rfl, rfl, rfl⟩
    · rw [setProc_procs_other _ hup]
      dsimp only
      rw [hother]
      exact .refl _

/-- After the files were copied the table of the child does not change. -/
theorem fork_table {cpu : ThreadContext} {parent child kernelSp : Nat} {mem : Nat → UInt8} {k₂ k₃ k₄ : Kernel}
    (hne : parent ≠ child) (h₃ : copyAreas child (k.procs parent).vmaList k₂ = some ((), k₃))
    (h₄ : addFixedAreas child k₃ = some ((), k₄))
    (hk' : k' = (({ k₄ with bytes := mem } : Kernel).setProc parent (Process.save cpu)).setProc child
      (Process.resume cpu kernelSp)) :
    (k'.procs child).fileDescriptorsTable = (k₂.procs child).fileDescriptorsTable := by
  obtain ⟨a₁, a₂, a₃, hp₄⟩ := addFixedAreas_child h₄
  rw [hk', setProc_procs, setProc_procs_other _ hne.symm]
  dsimp only
  rw [hp₄]
  exact copyAreas_files h₃

/-- An entry that the parent does not have is as it was in the slot. -/
theorem fork_absent {cpu : ThreadContext} {child i : Nat} (hne : k.sched.currThread ≠ child)
    (h0 : (k.procs k.sched.currThread).fileDescriptorsTable i = 0) (h : fork cpu k = some (child, k')) :
    (k'.procs child).fileDescriptorsTable i = (k.procs child).fileDescriptorsTable i := by
  obtain ⟨k₁, k₂, k₃, k₄, h₁, h₂, h₃, h₄, -, -, hk'⟩ := fork_some h
  obtain ⟨s, b, a, -, -, -, hk₁⟩ := threadCreate_some h₁
  generalize k.sched.currThread = parent at *
  generalize hkA : k₁.setProc child (Process.inherit (k.procs parent).signalHandler) = kA at h₂
  have hparentA : kA.procs parent = k.procs parent := by
    rw [← hkA, setProc_procs_other _ hne, hk₁, setProc_procs_other _ hne, took]
  have hchildA : (kA.procs child).fileDescriptorsTable = (k.procs child).fileDescriptorsTable := by
    rw [← hkA, setProc_procs, hk₁, setProc_procs, took]
    simp only [Process.inherit, NewThread.process]
  rw [fork_table hne h₃ h₄ hk', copyFiles_absent hne (by rw [hparentA]; exact h0) h₂, hchildA]

/-- With a slot that has no other files it holds what is in its table. -/
theorem fork_holds {cpu : ThreadContext} {child : Nat} (hne : k.sched.currThread ≠ child)
    (hstale : NoStaleFile (k.procs k.sched.currThread) (k.procs child)) (h : fork cpu k = some (child, k'))
    (hown : Owns size base R child (k'.setProc child (Process.dropStale (k.procs k.sched.currThread)))) :
    Owns size base R child k' := by
  have hentry : ∀ i ≤ maxFd, (Process.dropStale (k.procs k.sched.currThread)
      (k'.procs child)).fileDescriptorsTable i = (k'.procs child).fileDescriptorsTable i := by
    intro i hi
    by_cases h0 : (k.procs k.sched.currThread).fileDescriptorsTable i = 0
    · rw [fork_absent hne h0 h, hstale i hi h0]
      exact if_pos h0
    · exact if_neg h0
  have hfiles : fileBlocks (Process.dropStale (k.procs k.sched.currThread)
      (k'.procs child)).fileDescriptorsTable (List.range (maxFd + 1)) =
        fileBlocks (k'.procs child).fileDescriptorsTable (List.range (maxFd + 1)) :=
    fileBlocks_congr fun i hi => hentry i (Nat.le_of_lt_succ (List.mem_range.1 hi))
  have hholds := hown.holds
  have htree := hown.tree
  rw [setProc_procs, Process.blocks, hfiles] at hholds
  rw [setProc_procs] at htree
  exact ⟨hholds, htree, (hentry maxFd (Nat.le_refl _)).symm.trans (by rw [← hown.last, setProc_procs])⟩

/-- **Fork.**  The child holds its own blocks and nobody else's. -/
theorem fork_owns {cpu : ThreadContext} {child : Nat} (hne : k.sched.currThread ≠ child)
    (hhome : OneHome (k.procs k.sched.currThread).vmaList)
    (hstale : NoStaleFile (k.procs k.sched.currThread) (k.procs child))
    (hcov : ∀ v ∈ (k.procs k.sched.currThread).vmaList, ¬ skipped v → Covers size v.areaSize)
    (hg : Covers size frameSize) (hlast : (k.procs k.sched.currThread).fileDescriptorsTable maxFd = 0)
    (hh : k.alloc.Holds base L) (h : fork cpu k = some (child, k')) :
    Owns size base L child k' ∧ SameTables base k k' ∧
      ∀ u, u ≠ child → (k.procs u).Alike (k'.procs u) := by
  obtain ⟨lost, hone, hown, hrest⟩ := fork_copies hne hhome.single hcov hg hlast hh h
  obtain rfl := hone hhome
  exact ⟨fork_holds hne hstale h hown, hrest⟩

/-! ## `thread_exec` -/

theorem Opens.entry {i j flags : Nat} {node : VnodeRef} (h : Opens t i node flags k k')
    (hj : j ≠ i) :
    (k'.procs t).fileDescriptorsTable j = (k.procs t).fileDescriptorsTable j := by
  obtain ⟨f, k₁, hn, rfl⟩ := h
  rw [setProc_procs, ← hn.procs]
  exact Function.update_of_ne hj _ _

/-- The first program holds its blocks. -/
theorem threadExec_owns {data filesize : Nat} {uart : VnodeRef} (hh : k.alloc.Holds base L)
    (hfiles : ∀ t i, (k.procs t).fileDescriptorsTable i = 0) (hf : Covers size filesize)
    (hu : Covers size ustackSize) (hg : Covers size frameSize)
    (h : threadExec data filesize uart k = some ((), k')) :
    Owns size base L k'.sched.currThread k' ∧ SameTables base k k' ∧
      subTables 3 k'.words (physToVirt (k'.procs k'.sched.currThread).context.pgd) = [] := by
  obtain ⟨t, k₁, k₂, k₃, k₄, k₅, mem, h₁, h₂, h₃, h₄, h₅, h₆⟩ := threadExec_some h
  obtain ⟨b, hp₁, hnew⟩ := threadCreate_holds hh h₁ hf hu hg
  have hprogram : k₁.alloc.Holds base
      (ownBlock (k₁.procs t).data (size (roundPage (k₁.procs t).datasize)) ++
        (ownBlock (k₁.procs t).userSp (size (roundPage ustackSize)) ++
          (ownBlock (k₁.procs t).signalSp (size (roundPage frameSize)) ++
            (ownBlock b.kernelSp kstackSize ++ ((b.pgd, 0x1000) :: L))))) := by
    rw [hp₁]
    refine hnew.holds.perm (perm_of_count fun e => ?_)
    simp only [NewThread.blocks, NewThread.process, List.count_append, List.count_cons, List.count_nil]
    omega
  obtain ⟨vs, hp₃, hh₃⟩ := programAreas_holds hprogram h₂ h₃
  have hframe := (addImageAreas_frame h₂).trans (addFixedAreas_frame h₃)
  generalize hkE : ({ k₃.setProc t Process.enter with
    bytes := mem, sched := k₃.sched.setCurr t } : Kernel) = kE at h₄
  have hpE : kE.procs t = ((k₁.procs t).addAreas vs).enter := by
    rw [← hkE]
    dsimp only
    rw [setProc_procs, hp₃]
  have hallocE : kE.alloc = k₃.alloc := by rw [← hkE]; rfl
  have hwordsE : kE.words = k₁.words := by
    rw [← hframe.words, ← hkE]
    rfl
  have hpgd : physToVirt (kE.procs t).context.pgd = b.pgd := by
    rw [hpE, hp₁]
    exact hnew.pgd
  have hzero : ∀ i, (kE.procs t).fileDescriptorsTable i = 0 := by
    intro i
    rw [hpE, hp₁]
    exact hfiles t i
  have hown : Owns size base L t kE := by
    refine ⟨?_, ?_, hzero maxFd⟩
    · rw [hallocE]
      refine hh₃.perm (perm_of_count fun e => ?_)
      have hnone : fileBlocks (kE.procs t).fileDescriptorsTable (List.range (maxFd + 1)) = [] := by
        unfold fileBlocks
        simp [hzero]
      rw [Process.blocks, hpgd, hwordsE, tableBlocks, hnew.empty, hnone, hpE, hp₁]
      simp only [Process.enter, Process.addAreas, NewThread.process, List.nil_append, pageBlocks,
        List.map_cons, List.map_nil, List.count_append, List.count_cons, List.count_nil]
      omega
    · rw [hpgd, hwordsE]
      exact hnew.tree
  have h₀ : 0 < maxFd ∧ 1 < maxFd ∧ 2 < maxFd := by decide
  have hown₄ := hown.opens h₀.1 (hzero 0) h₄
  have hown₅ := hown₄.opens h₀.2.1 (by rw [h₄.entry (by decide)]; exact hzero 1) h₅
  have hown₆ := hown₅.opens h₀.2.2
    (by rw [h₅.entry (by decide), h₄.entry (by decide)]; exact hzero 2) h₆
  have hrest := (h₄.frame.trans h₅.frame).trans h₆.frame
  have hcurr : k'.sched.currThread = t := by
    rw [hrest.sched, ← hkE]
    rfl
  rw [hcurr]
  refine ⟨hown₆, fun q hq hb i hi => ?_, ?_⟩
  · rw [hrest.words, hwordsE]
    exact hnew.tables q hq hb i hi
  · rw [hrest.words, hwordsE, hrest.keeps.context, hpgd]
    exact hnew.empty

end Kernel

end RpiKernel
