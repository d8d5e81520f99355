import RpiKernel.Process.Dangling
import RpiKernel.Process.Handles

/-!
# RpiKernel.Process.Copying

What `fork` writes.  It writes to blocks that it has just got, so memory and handles that somebody
relies on stay as they are, and so do the copies until `fork` is done (`fork_areaBytes`,
`fork_files`).
-/

namespace RpiKernel

open Custody

/-! ## memory that somebody relies on -/

section

variable {base : Nat → Nat → Prop} {L L' : Blocks} {a : Alloc} {p n x : Nat}

/-- `x` lies in a block of somebody else, or in the bytes that the holder of `L` relies on. -/
def Used (base : Nat → Nat → Prop) (L : Blocks) (x : Nat) : Prop :=
  (∃ p n, base p n ∧ p ≤ x ∧ x < p + n) ∨ ∃ e ∈ L, e.1 ≤ x ∧ x < e.1 + e.2

theorem Used.mono (h : Used base L x) (hL : ∀ e ∈ L, e ∈ L') : Used base L' x :=
  h.imp_right fun ⟨e, he, hx⟩ => ⟨e, hL e he, hx⟩

/-- A block overlaps nothing that is used besides. -/
theorem Alloc.Holds.not_used (h : a.Holds base ((p, n) :: L)) (hx : Used base L x) : x < p ∨ p + n ≤ x := by
  obtain ⟨m, hm, hle⟩ := h.holds.backed _ List.mem_cons_self
  have hnd := h.holds.nodup
  rw [addrs_cons, List.nodup_cons] at hnd
  cases hx with
  | inl hbase =>
      obtain ⟨q, j, hq, hlo, hhi⟩ := hbase
      have hne : p ≠ q := fun he => h.holds.apart _ List.mem_cons_self j (he ▸ hq)
      have hdis := h.settled.disjoint hm (h.holds.keep q j hq) hne
      omega
  | inr hown =>
      obtain ⟨e, he, hlo, hhi⟩ := hown
      obtain ⟨j, hj, hej⟩ := h.holds.backed e (List.mem_cons_of_mem _ he)
      have hne : p ≠ e.1 := fun heq => hnd.1 (mem_addrs.2 ⟨e.2, heq ▸ he⟩)
      have hdis := h.settled.disjoint hm hj hne
      omega

end

/-! ## `memcpy` -/

namespace Kernel

section

variable {dst src n i x : Nat} {mem : Nat → UInt8}

/-- Only the destination is written. -/
theorem copied_outside (h : x < dst ∨ dst + n ≤ x) : copied dst src mem n x = mem x := by
  induction n with
  | zero => rfl
  | succ n ih =>
      have hne : x ≠ dst + n := by omega
      rw [copied, Function.update_of_ne hne, ih (by omega)]

/-- A source that is not written on the way arrives. -/
theorem copied_inside (h : ∀ j < n, src + j < dst ∨ dst + n ≤ src + j) (hi : i < n) :
    copied dst src mem n (dst + i) = mem (src + i) := by
  induction n with
  | zero => exact absurd hi (Nat.not_lt_zero i)
  | succ n ih =>
      rw [copied]
      by_cases hlast : i = n
      · subst hlast
        have hsrc := h i (Nat.lt_succ_self i)
        rw [Function.update_self, copied_outside (by omega)]
      · have hne : dst + i ≠ dst + n := by omega
        rw [Function.update_of_ne hne]
        exact ih (fun j hj => by have hsrc := h j (by omega); omega) (by omega)

end

variable {base : Nat → Nat → Prop} {L : Blocks} {k k' : Kernel} {t n : Nat}

/-! ## areas -/

/-- An area as the kernel makes it: it ends with a page, and what `fork` copies has memory of its
own. -/
structure Plain (v : Vma) : Prop where
  size : v.areaSize % 0x1000 = 0
  alloced : ¬ skipped v → v.isAlloced = true

theorem madeAreas_plain : MadeAreas Plain where
  image p a₁ a₂ v hv := by
    simp only [imageAreas, List.mem_cons, List.not_mem_nil, or_false] at hv
    rcases hv with rfl | rfl
    · exact ⟨roundPage_mod p.datasize, fun _ => rfl⟩
    · exact ⟨roundPage_mod ustackSize, fun _ => rfl⟩
  fixed w s a₁ a₂ a₃ v hv := by
    simp only [fixedAreas, List.mem_cons, List.not_mem_nil, or_false] at hv
    rcases hv with rfl | rfl | rfl
    · exact ⟨roundPage_mod (peripheralEnd - peripheralStart), fun hskip => absurd (Or.inr (Or.inl rfl)) hskip⟩
    · exact ⟨roundPage_mod 0x2000, fun hskip => absurd (Or.inl rfl) hskip⟩
    · exact ⟨roundPage_mod frameSize, fun _ => rfl⟩
  copy v _ _ _ := ⟨roundPage_mod v.areaSize, fun _ => rfl⟩
  mapped _ _ len _ _ _ := ⟨roundPage_mod len, fun _ => rfl⟩

/-- What `fork` reads when it copies an area: at most as much as can be asked for, and somebody
relies on it. -/
structure Source (base : Nat → Nat → Prop) (v : Vma) : Prop extends Plain v where
  le : v.areaSize ≤ maxRequest
  used : ∀ i < v.areaSize, Used base [] (physToVirt v.physAddr + i)

/-- `c` is a copy of the area `v` of `mem`. -/
structure CopyOf (mem mem' : Nat → UInt8) (v c : Vma) : Prop where
  eq : ∃ q addr, c = v.copyTo q addr
  ne : physToVirt c.physAddr ≠ 0
  bytes : ∀ i < v.areaSize, mem' (physToVirt c.physAddr + i) = mem (physToVirt v.physAddr + i)

/-- One copy: what is used stays, and the new block holds what the area held. -/
theorem CopiesArea.newBytes {v : Vma} {q addr : Nat} {a₁ a₂ a₃ : Alloc}
    (h : CopiesArea t v q addr a₁ a₂ a₃ k k') (hv : Source base v) (hq : q ≠ 0) (hh : k.alloc.Holds base L) :
    (∀ x, Used base L x → k'.bytes x = k.bytes x) ∧
      ∀ i < v.areaSize, k'.bytes (q + i) = k.bytes (physToVirt v.physAddr + i) := by
  have hlen : v.areaSize % 2 ^ 32 = v.areaSize := by
    have hle := hv.le
    unfold maxRequest frameSize at hle
    omega
  have hnew : v.areaSize ≤ granted (v.areaSize % 2 ^ 32) := by
    have hcov := covers_of_le hv.le
    unfold Covers at hcov
    rwa [roundPage_of_mod hv.size] at hcov
  have hblock := hh.kmalloc_own h.block hnew
  rw [ownBlock_of_ne hq, List.singleton_append] at hblock
  have hbytes : k'.bytes = copied q (physToVirt v.physAddr) k.bytes v.areaSize := by
    rw [h.eq, setProc_bytes, hlen]
  rw [hbytes]
  refine ⟨fun x hx => copied_outside (hblock.not_used hx), fun i hi => copied_inside (fun j hj => ?_) hi⟩
  exact hblock.not_used ((hv.used j hj).mono (by simp))

/-- Memory that is used stays, and every copy holds what its area held; `mem` is the memory before,
`mem'` the memory after more was written elsewhere. -/
theorem copyAreas_bytes {vs : List Vma} {mem mem' : Nat → UInt8} (hs : SingleHomes vs)
    (hvs : ∀ v ∈ vs, ¬ skipped v → Source base v) (hmem : ∀ x, Used base [] x → k.bytes x = mem x)
    (hmem' : ∀ x, Used base (areaBlocks (fun n => n) (k'.procs t).vmaList) x → mem' x = k'.bytes x)
    (hh : k.alloc.Holds base
      (pending (k.procs t) vs ++ (areaBlocks (fun n => n) (k.procs t).vmaList ++ L)))
    (h : copyAreas t vs k = some ((), k')) (ho : k'.oom = false) :
    (∀ x, Used base (areaBlocks (fun n => n) (k.procs t).vmaList) x → mem' x = k.bytes x) ∧
      ∃ cs, (k'.procs t).vmaList = (k.procs t).vmaList ++ cs ∧
        List.Forall₂ (CopyOf mem mem') (vs.filter fun v => ¬ skipped v) cs := by
  induction vs generalizing k with
  | nil =>
      unfold copyAreas at h
      obtain ⟨-, rfl⟩ := Prod.mk.inj (pure_some.1 h)
      exact ⟨hmem', [], by simp, .nil⟩
  | cons v vs ih =>
      obtain ⟨k₁, hc, hrun⟩ := copyAreas_cons h
      have hvs' : ∀ w ∈ vs, ¬ skipped w → Source base w := fun w hw => hvs w (List.mem_cons_of_mem _ hw)
      rcases hc with ⟨hskip, rfl⟩ | ⟨hskip, q, addr, a₁, a₂, a₃, hc⟩
      · rw [pending_skipped hskip] at hh
        rw [List.filter_cons_of_neg (by simpa using hskip)]
        exact ih hs.tail hvs' hmem hh hrun
      · have hv := hvs v List.mem_cons_self hskip
        have ho₁ := copyAreas_oom hrun ho
        have hq : q ≠ 0 := by
          rw [hc.eq, setProc_oom, Bool.or_eq_false_iff, beq_eq_false_iff_ne] at ho₁
          exact ho₁.2
        have hphys : physToVirt (virtToPhys q) = q :=
          (hh.kmalloc_own hc.block (Nat.zero_le _)).physToVirt_own
        obtain ⟨hold, hnew⟩ := hc.newBytes hv hq hh
        have hbase : ∀ x, Used base [] x → k₁.bytes x = mem x :=
          fun x hx => (hold x (hx.mono (by simp))).trans (hmem x hx)
        obtain ⟨hkeep, cs, hlist, hcopies⟩ :=
          ih hs.tail hvs' hbase (hc.holds hs (covers_of_le hv.le) hh) hrun
        rw [hc.list, areaBlocks_append] at hkeep
        rw [hc.list] at hlist
        refine ⟨fun x hx => ?_, v.copyTo q addr :: cs, ?_, ?_⟩
        · rw [hkeep x (hx.mono fun e he => List.mem_append_left _ he)]
          exact hold x (hx.mono fun e he => List.mem_append_right _ (List.mem_append_left _ he))
        · rw [hlist, List.append_assoc, List.singleton_append]
        · rw [List.filter_cons_of_pos (by simpa using hskip)]
          refine .cons ⟨⟨q, addr, rfl⟩, hphys.trans_ne hq, fun i hi => ?_⟩ hcopies
          have hblock : (q, v.areaSize) ∈ areaBlocks (fun n => n) [v.copyTo q addr] := by
            simp [Vma.blocks, Vma.copyTo, hphys, ownBlock_of_ne hq, roundPage_of_mod hv.size]
          have hin : Used base (areaBlocks (fun n => n) [v.copyTo q addr]) (q + i) :=
            Or.inr ⟨_, hblock, Nat.le_add_right _ _, Nat.add_lt_add_left hi _⟩
          show mem' (physToVirt (virtToPhys q) + i) = _
          rw [hphys, hkeep _ (hin.mono fun e he => List.mem_append_right _ he), hnew i hi]
          exact hmem _ (hv.used i hi)

theorem copyAreas_handles {vs : List Vma} (h : copyAreas t vs k = some ((), k')) : k'.files = k.files := by
  induction vs generalizing k with
  | nil =>
      unfold copyAreas at h
      obtain ⟨-, rfl⟩ := Prod.mk.inj (pure_some.1 h)
      rfl
  | cons v vs ih =>
      obtain ⟨k₁, hc, hrun⟩ := copyAreas_cons h
      rw [ih hrun]
      rcases hc with ⟨-, rfl⟩ | ⟨-, q, addr, a₁, a₂, a₃, hc⟩
      · rfl
      · rw [hc.eq, setProc_files]

/-! ## files -/

/-- A new handle is none that somebody has. -/
theorem NewFile.files {f p : Nat} {content : FileHandle} (h : NewFile f content k k')
    (hh : k.alloc.Holds base L) (hp : (∃ n, base p n) ∨ p ∈ addrs L) :
    k'.files f = content ∧ k'.files p = k.files p := by
  obtain ⟨a, ha, rfl⟩ := h.some
  have hb := hh.kmalloc_own ha (Nat.zero_le _)
  rw [ownBlock_of_ne h.ne, List.singleton_append] at hb
  have hnd := hb.holds.nodup
  rw [addrs_cons, List.nodup_cons] at hnd
  have hne : p ≠ f := by
    rintro rfl
    exact hp.elim (hb.holds.not_base List.mem_cons_self) hnd.1
  exact ⟨Function.update_self .., Function.update_of_ne hne ..⟩

/-- Handles that somebody has stay, and every copy holds what the handle held. -/
theorem copyFiles_files {parent : Nat} {is : List Nat} {fs : Nat → FileHandle} (hne : parent ≠ t)
    (hnd : is.Nodup)
    (hlive : ∀ i ∈ is, (k.procs parent).fileDescriptorsTable i ≠ 0 →
      ∃ n, base ((k.procs parent).fileDescriptorsTable i) n)
    (hfs : ∀ p, (∃ n, base p n) → k.files p = fs p) (hh : k.alloc.Holds base L)
    (h : copyFiles parent t is k = some ((), k')) :
    (∀ p, (∃ n, base p n) ∨ p ∈ addrs L → k'.files p = k.files p) ∧
      ∀ i ∈ is, (k.procs parent).fileDescriptorsTable i ≠ 0 →
        k'.files ((k'.procs t).fileDescriptorsTable i) = fs ((k.procs parent).fileDescriptorsTable i) := by
  induction is generalizing k L with
  | nil =>
      unfold copyFiles at h
      obtain ⟨-, rfl⟩ := Prod.mk.inj (pure_some.1 h)
      exact ⟨fun _ _ => rfl, by simp⟩
  | cons i is ih =>
      rw [List.nodup_cons] at hnd
      obtain ⟨k₁, hc, hrun⟩ := copyFiles_cons h
      have hparent := hc.parent hne
      have hentry := copyFiles_entry hnd.1 hrun
      have hlive' : ∀ j ∈ is, (k₁.procs parent).fileDescriptorsTable j ≠ 0 →
          ∃ n, base ((k₁.procs parent).fileDescriptorsTable j) n := by
        rw [hparent]
        exact fun j hj => hlive j (List.mem_cons_of_mem _ hj)
      rcases hc with ⟨hz, rfl⟩ | ⟨hz, f, k₂, hn, rfl⟩
      · obtain ⟨hkeep, hcopies⟩ := ih hnd.2 hlive' hfs hh hrun
        exact ⟨hkeep, List.forall_mem_cons.2 ⟨fun h0 => absurd hz h0, hcopies⟩⟩
      · have hb : (k₂.setProc t (Process.setFile i f)).alloc.Holds base ((f, 0) :: L) := by
          obtain ⟨a, ha, rfl⟩ := hn.some
          rw [setProc_alloc, ← List.singleton_append, ← ownBlock_of_ne hn.ne]
          exact hh.kmalloc_own ha (Nat.zero_le _)
        have hkept (p : Nat) (hp : (∃ n, base p n) ∨ p ∈ addrs L) :
            (k₂.setProc t (Process.setFile i f)).files p = k.files p := (hn.files hh hp).2
        have hcopy := hlive i List.mem_cons_self hz
        have hnew : (k₂.setProc t (Process.setFile i f)).files f =
            k.files ((k.procs parent).fileDescriptorsTable i) := (hn.files hh (Or.inl hcopy)).1
        obtain ⟨hkeep, hcopies⟩ :=
          ih hnd.2 hlive' (fun p hp => (hkept p (Or.inl hp)).trans (hfs p hp)) hb hrun
        rw [hparent] at hcopies
        refine ⟨fun p hp => ?_, List.forall_mem_cons.2 ⟨fun _ => ?_, hcopies⟩⟩
        · rw [hkeep p (hp.imp_right (List.mem_cons_of_mem f)), hkept p hp]
        · have hf : (k'.procs t).fileDescriptorsTable i = f := by
            rw [hentry, setProc_procs]
            exact Function.update_self ..
          rw [hf, hkeep f (Or.inr List.mem_cons_self), hnew, hfs _ hcopy]

/-! ## `fork` -/

section

variable {R : Blocks} {cpu : ThreadContext} {child : Nat}

/-- The handlers of the child are those of the parent. -/
theorem fork_handlers {i : Nat} (hi : i ≤ signalMax) (hf : fork cpu k = some (child, k')) :
    (k'.procs child).signalHandler i = (k.procs k.sched.currThread).signalHandler i := by
  obtain ⟨k₁, k₂, k₃, k₄, -, h₂, h₃, h₄, -, -, hk'⟩ := fork_some hf
  have hframe := ((copyFiles_frame h₂).trans (copyAreas_frame h₃)).trans (addFixedAreas_frame h₄)
  have hlate : (k'.procs child).signalHandler = (k₄.procs child).signalHandler := by
    rw [hk']
    exact (setProc_field (g := Process.signalHandler) (f := Process.resume cpu _) (fun _ => rfl) child).trans
      (setProc_field (g := Process.signalHandler) (f := Process.save cpu) (fun _ => rfl) child)
  rw [hlate, hframe.keeps.signalHandler, setProc_procs]
  exact if_pos hi

/-- Handles that were live stay, and the handles of the child hold what those of the parent held. -/
theorem fork_files (hs : k.alloc.Settled) (hne : k.sched.currThread ≠ child)
    (hlive : ∀ i ≤ maxFd, (k.procs k.sched.currThread).fileDescriptorsTable i ≠ 0 →
      Live k ((k.procs k.sched.currThread).fileDescriptorsTable i))
    (hf : fork cpu k = some (child, k')) :
    (∀ p, Live k p → k'.files p = k.files p) ∧
      ∀ i ≤ maxFd, (k.procs k.sched.currThread).fileDescriptorsTable i ≠ 0 →
        k'.files ((k'.procs child).fileDescriptorsTable i) =
          k.files ((k.procs k.sched.currThread).fileDescriptorsTable i) := by
  obtain ⟨k₁, k₂, k₃, k₄, h₁, h₂, h₃, h₄, -, -, hk'⟩ := fork_some hf
  generalize k.sched.currThread = parent at *
  obtain ⟨b, -, hnew⟩ := threadCreate_holds (d := 0) (u := 0) (g := 0) hs.holds_nothing h₁ (Nat.zero_le _)
    (Nat.zero_le _) (Nat.zero_le _)
  obtain ⟨s, b', a, -, -, -, hk₁⟩ := threadCreate_some h₁
  have hfiles₁ : k₁.files = k.files := by
    rw [hk₁, setProc_files]
    rfl
  have hfiles' : k'.files = k₂.files := by
    obtain ⟨a₁, a₂, a₃, a, -, -, hr⟩ := addFixedAreas_some h₄
    have hk₄ := (Prod.mk.inj hr).2
    rw [hk', setProc_files, setProc_files, ← copyAreas_handles h₃, hk₄, setProc_files]
  generalize hkA : k₁.setProc child (Process.inherit (k.procs parent).signalHandler) = kA at h₂
  have hparent : kA.procs parent = k.procs parent := by
    rw [← hkA, setProc_procs_other _ hne, hnew.other _ hne]
  have hfilesA : kA.files = k.files := by rw [← hkA, setProc_files, hfiles₁]
  have hholds : kA.alloc.Holds k.alloc.Region (b.blocks 0 0 0 ++ []) := by
    rw [← hkA, setProc_alloc]
    exact hnew.holds
  have hrange (i : Nat) : i ∈ List.range (maxFd + 1) ↔ i ≤ maxFd := List.mem_range.trans Nat.lt_succ_iff
  have hlive' : ∀ i ∈ List.range (maxFd + 1), (kA.procs parent).fileDescriptorsTable i ≠ 0 →
      ∃ n, k.alloc.Region ((kA.procs parent).fileDescriptorsTable i) n := by
    rw [hparent]
    exact fun i hi => hlive i ((hrange i).1 hi)
  obtain ⟨hkeep, hcopies⟩ :=
    copyFiles_files hne List.nodup_range hlive' (fun p _ => congrFun hfilesA p) hholds h₂
  rw [hparent] at hcopies
  rw [fork_table hne h₃ h₄ hk', hfiles']
  refine ⟨fun p hp => ?_, fun i hi => hcopies i ((hrange i).2 hi)⟩
  rw [hkeep p (Or.inl hp)]
  exact congrFun hfilesA p

/-- Memory that was live stays, and the copies of areas hold what the areas held. -/
theorem fork_areaBytes (hs : k.alloc.Settled) (hne : k.sched.currThread ≠ child)
    (hhome : SingleHomes (k.procs k.sched.currThread).vmaList)
    (hvs : ∀ v ∈ (k.procs k.sched.currThread).vmaList, ¬ skipped v → Source k.alloc.Region v)
    (hf : fork cpu k = some (child, k')) (ho : k'.oom = false)
    (hown : Owns (fun n => n) k.alloc.Region R child k') :
    (∀ x, Used k.alloc.Region [] x → k'.bytes x = k.bytes x) ∧
      ∃ cs w s r₁ r₂ r₃, (k'.procs child).vmaList = cs ++ fixedAreas w s r₁ r₂ r₃ ∧
        List.Forall₂ (CopyOf k.bytes k'.bytes)
          ((k.procs k.sched.currThread).vmaList.filter fun v => ¬ skipped v) cs := by
  obtain ⟨k₁, k₂, k₃, k₄, h₁, h₂, h₃, h₄, hmap, -, hk'⟩ := fork_some hf
  generalize k.sched.currThread = parent at *
  have hframe : Covers (fun n => n) frameSize := covers_of_le (by decide)
  obtain ⟨b, -, hnew, hvma₂, hholds⟩ := newChild_holds hne hframe hs.holds_nothing h₁ h₂
  obtain ⟨lost, hsplit, -⟩ := pending_split hhome (k₂.procs child)
  have hbytes₂ : k₂.bytes = k.bytes := by
    obtain ⟨s, b', a, -, -, -, hk₁⟩ := threadCreate_some h₁
    rw [(copyFiles_same h₂).2, setProc_bytes, hk₁, setProc_bytes]
    rfl
  obtain ⟨r₁, r₂, r₃, hp₄⟩ := addFixedAreas_child h₄
  have hbytes₄ : k₄.bytes = k₃.bytes := by
    obtain ⟨a₁, a₂, a₃, a, -, -, hr⟩ := addFixedAreas_some h₄
    rw [(Prod.mk.inj hr).2, setProc_bytes]
  have hlist : (k'.procs child).vmaList = (k₃.procs child).vmaList ++
      fixedAreas k₃.handlerWrapper (k₃.procs child).signalSp r₁ r₂ r₃ := by
    rw [hk', setProc_vmaList (Process.resume_vmaList cpu _), setProc_vmaList (Process.save_vmaList cpu)]
    dsimp only
    rw [hp₄]
    rfl
  have hstack : (k'.procs child).kernelSp = (k₄.procs child).kernelSp := by
    rw [hk']
    exact (setProc_field (g := Process.kernelSp) (f := Process.resume cpu _) (fun _ => rfl) child).trans
      (setProc_field (g := Process.kernelSp) (f := Process.save cpu) (fun _ => rfl) child)
  have hbytes' : k'.bytes =
      copied (k'.procs child).kernelSp (k.procs parent).kernelSp k₃.bytes kstackSize := by
    rw [hstack, ← hbytes₄, hk', setProc_bytes, setProc_bytes]
  -- the kernel stack of the child is written last
  have hlate : ∀ x, Used k.alloc.Region (areaBlocks (fun n => n) (k₃.procs child).vmaList) x →
      k'.bytes x = k₃.bytes x := by
    intro x hx
    have hne0 : (k'.procs child).kernelSp ≠ 0 := by
      have hk := hmap.resolve_left (by decide)
      omega
    have hblock : k'.alloc.Holds k.alloc.Region (((k'.procs child).kernelSp, kstackSize) ::
        (areaBlocks (fun n => n) (k'.procs child).vmaList ++
          (fileBlocks (k'.procs child).fileDescriptorsTable (List.range (maxFd + 1)) ++
            (tableBlocks k'.words (physToVirt (k'.procs child).context.pgd) ++ R)))) := by
      refine hown.holds.perm (perm_of_count fun e => ?_)
      rw [Process.blocks, ownBlock_of_ne hne0]
      simp only [List.count_append, List.count_cons, List.count_nil]
      omega
    rw [hbytes']
    refine copied_outside (hblock.not_used (hx.mono fun e he => List.mem_append_left _ ?_))
    rw [hlist, areaBlocks_append]
    exact List.mem_append_left _ he
  have hareas : k₂.alloc.Holds k.alloc.Region (pending (k₂.procs child) (k.procs parent).vmaList ++
      (areaBlocks (fun n => n) (k₂.procs child).vmaList ++ (lost ++
        (ownBlock b.signalSp (roundPage frameSize) ++
          (fileBlocks (Process.dropStale (k.procs parent) (k₂.procs child)).fileDescriptorsTable
            (List.range (maxFd + 1)) ++ (ownBlock b.kernelSp kstackSize ++ [(b.pgd, 0x1000)])))))) := by
    refine hholds.perm (perm_of_count fun e => ?_)
    have hc := hsplit.count_eq e
    rw [hvma₂]
    simp only [List.count_append, areaBlocks_nil, List.nil_append, List.count_cons] at hc ⊢
    omega
  have ho₃ : k₃.oom = false := by
    rw [hk', setProc_oom, setProc_oom] at ho
    exact (addFixedAreas_oom h₄).symm.trans ho
  obtain ⟨hkeep, cs, hcs, hcopies⟩ :=
    copyAreas_bytes hhome hvs (fun x _ => congrFun hbytes₂ x) hlate hareas h₃ ho₃
  rw [hvma₂, List.nil_append] at hcs
  refine ⟨fun x hx => ?_, cs, _, _, r₁, r₂, r₃, by rw [hlist, hcs], hcopies⟩
  rw [hkeep x (hx.mono (by simp)), hbytes₂]

end

end Kernel

end RpiKernel
