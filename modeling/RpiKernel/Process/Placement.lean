import RpiKernel.Lib.FirstFit
import RpiKernel.Process.Areas

/-!
# RpiKernel.Process.Placement

Where `mmap` puts an area.

Its recursion is the search of `Lib.FirstFit` with the areas of the thread as
obstacles, as long as the ends it computes fit into 64 bits.  So its answer is the first
place at or above the hint that is free, in whatever order the areas stand in the list.

`kmalloc` gets the low 32 bits of the length and `utils_memset` all of it, so that an
area of 2^32 bytes or more is cleared far behind its block.
-/

namespace RpiKernel

namespace Kernel

variable {vs vs' : List Vma} {addr len prot r x n : Nat} {k k' : Kernel}

/-! ## what it looks for -/

/-- Rounding up to a page. -/
def pageUp (x : Nat) : Nat := (x + 0xfff) / 0x1000 * 0x1000

/-- In 64 bits, when the result has 64 bits. -/
theorem roundPage_eq (h : pageUp x < 2 ^ 64) : roundPage x = pageUp x := by
  unfold pageUp at h ⊢
  unfold roundPage
  split <;> omega

theorem pageUp_le_iff {b : Nat} (hb : b % 0x1000 = 0) : pageUp x ≤ b ↔ x ≤ b := by
  unfold pageUp
  omega

/-- The areas of a list, page aligned, not empty, and with ends that fit into 64
bits. -/
structure AreaList (vs : List Vma) : Prop where
  nonempty : ∀ v ∈ vs, 0 < v.areaSize
  aligned : ∀ v ∈ vs, v.virtAddr % 0x1000 = 0 ∧ v.areaSize % 0x1000 = 0
  fin : ∀ v ∈ vs, v.virtAddr + v.areaSize < 2 ^ 64

theorem AreaList.perm (h : AreaList vs) (hp : vs.Perm vs') : AreaList vs' where
  nonempty v hv := h.nonempty v (hp.mem_iff.2 hv)
  aligned v hv := h.aligned v (hp.mem_iff.2 hv)
  fin v hv := h.fin v (hp.mem_iff.2 hv)

/-- The page-aligned addresses from `addr` on at which `len` bytes fit into 64 bits and
meet no area. -/
def places (vs : List Vma) (addr len : Nat) : Set Nat :=
  {b | b % 0x1000 = 0 ∧ addr ≤ b ∧ b + len ≤ 2 ^ 64 ∧
    ∀ v ∈ vs, Disjoint (Set.Ico b (b + len)) (Set.Ico v.virtAddr (v.virtAddr + v.areaSize))}

/-- The call that finds no area in its way. -/
def mapAt (addr len prot : Nat) : KernelM Nat := do
  let t ← currThread
  let ptr ← kmalloc len
  store ptr len fun _ => 0
  mmuAddVma t addr len (virtToPhys ptr) (protRwx prot) true
  return addr

theorem mmap_succ : mmap (n + 1) addr len prot k =
    match (k.procs k.sched.currThread).vmaList.find? fun v =>
        overlaps (roundPage addr) (roundPage len) v with
    | some v => mmap n ((v.virtAddr + v.areaSize) % 2 ^ 64) (roundPage len) prot k
    | none => mapAt (roundPage addr) (roundPage len) prot k := by
  rw [mmap, currThread_bind, proc_bind]
  cases (k.procs k.sched.currThread).vmaList.find? fun v =>
      overlaps (roundPage addr) (roundPage len) v with
  | some v => rfl
  | none =>
      dsimp only
      rw [mapAt, currThread_bind]

/-- The length is rounded up again in every call. -/
theorem mmap_len : mmap n addr len prot k = mmap n addr (roundPage len) prot k := by
  cases n with
  | zero => rfl
  | succ n => rw [mmap_succ, mmap_succ, roundPage_of_mod (roundPage_mod len)]

/-! ## the search -/

/-- The areas as ranges that are in the way of `len` bytes. -/
abbrev obstacles (len : Nat) : FirstFit.Obstacles Vma Nat :=
  FirstFit.ranges Vma.virtAddr (fun v => v.virtAddr + v.areaSize) len

/-- What `mmap` computes in 64 bits. -/
theorem AreaList.overlaps_iff (h : AreaList vs) {v : Vma} (hv : v ∈ vs) (hx : x + len < 2 ^ 64) :
    overlaps x len v ↔ (obstacles len).blocks v x := by
  have hfin := h.fin v hv
  have he : (x + len) % 2 ^ 64 = x + len := Nat.mod_eq_of_lt hx
  have hs : (v.virtAddr + v.areaSize) % 2 ^ 64 = v.virtAddr + v.areaSize := Nat.mod_eq_of_lt hfin
  simp only [overlaps, FirstFit.ranges, he, hs]
  omega

theorem find?_congr {p q : Vma → Bool} (h : ∀ v ∈ vs, p v = q v) : vs.find? p = vs.find? q := by
  induction vs with
  | nil => rfl
  | cons v vs ih =>
      simp only [List.find?_cons, h v (by simp), ih fun w hw => h w (by simp [hw])]

theorem AreaList.find?_overlaps (h : AreaList vs) (hx : x + len < 2 ^ 64) :
    (vs.find? fun v => overlaps x len v) = vs.find? fun v => (obstacles len).blocks v x :=
  find?_congr fun _ hv => decide_eq_decide.2 (h.overlaps_iff hv hx)

/-- The next call starts at the end of an area. -/
theorem AreaList.roundPage_fin (h : AreaList vs) {v : Vma} (hv : v ∈ vs) :
    roundPage ((v.virtAddr + v.areaSize) % 2 ^ 64) = v.virtAddr + v.areaSize := by
  obtain ⟨ha, hs⟩ := h.aligned v hv
  rw [Nat.mod_eq_of_lt (h.fin v hv), roundPage_of_mod (by omega)]

/-- At the end of the addresses it finds nothing in its way. -/
theorem find?_overlaps_end (hx : x + len = 2 ^ 64) : (vs.find? fun v => overlaps x len v) = none := by
  rw [List.find?_eq_none]
  intro v _
  simp [overlaps, hx]

/-- Where the search ends, `mmap` maps. -/
theorem AreaList.mmap_eq (h : AreaList (k.procs k.sched.currThread).vmaList)
    (hlen : len % 0x1000 = 0) (hr : r + len ≤ 2 ^ 64)
    (hs : FirstFit.search (obstacles len) (k.procs k.sched.currThread).vmaList n (roundPage addr) =
      some r) : mmap n addr len prot k = mapAt r len prot k := by
  induction n generalizing addr with
  | zero => simp [FirstFit.search] at hs
  | succ n ih =>
      have hle := FirstFit.search_le hs
      rw [mmap_succ, roundPage_of_mod hlen]
      cases Nat.lt_or_eq_of_le (show roundPage addr + len ≤ 2 ^ 64 by omega) with
      | inr hend =>
          obtain rfl : roundPage addr = r := by omega
          rw [find?_overlaps_end hend]
      | inl hx =>
          rw [h.find?_overlaps hx]
          cases hf : (k.procs k.sched.currThread).vmaList.find? fun v =>
              (obstacles len).blocks v (roundPage addr) with
          | some v =>
              obtain ⟨hv, -⟩ := FirstFit.blocks_of_find? hf
              rw [FirstFit.search_step hf] at hs
              refine ih ?_
              rw [h.roundPage_fin hv]
              exact hs
          | none =>
              rw [FirstFit.search_here hf, Option.some.injEq] at hs
              rw [← hs]

/-- When it answers, it has mapped. -/
theorem mmap_mapAt (h : mmap n addr len prot k = some (r, k')) :
    ∃ x, mapAt x (roundPage len) prot k = some (r, k') := by
  induction n generalizing addr len with
  | zero => exact absurd h (by simp [mmap, failure_some])
  | succ n ih =>
      rw [mmap_succ] at h
      split at h
      · obtain ⟨x, hx⟩ := ih h
        exact ⟨x, by rwa [roundPage_of_mod (roundPage_mod len)] at hx⟩
      · exact ⟨_, h⟩

/-! ## the answer -/

theorem AreaList.search_mod (h : AreaList vs)
    (hs : FirstFit.search (obstacles len) vs n (roundPage addr) = some r) : r % 0x1000 = 0 := by
  have hstop : ∀ v ∈ vs, (v.virtAddr + v.areaSize) % 0x1000 = 0 := fun v hv => by
    have hal := h.aligned v hv
    omega
  exact FirstFit.search_ind (P := fun b => b % 0x1000 = 0) hs (roundPage_mod addr) hstop

/-- The search finds the first place, when there is one. -/
theorem AreaList.search_isLeast (h : AreaList vs) (hlen : 0 < len) (haddr : pageUp addr < 2 ^ 64)
    (hs : FirstFit.search (obstacles len) vs n (roundPage addr) = some r)
    (hplaces : (places vs addr len).Nonempty) : IsLeast (places vs addr len) r := by
  have hmod := h.search_mod hs
  rw [roundPage_eq haddr] at hs
  obtain ⟨⟨hle, hfree⟩, hleast⟩ := FirstFit.search_isLeast hs
  have hout {v : Vma} (hv : v ∈ vs) (b : Nat) : ¬ (obstacles len).blocks v b ↔
      Disjoint (Set.Ico b (b + len)) (Set.Ico v.virtAddr (v.virtAddr + v.areaSize)) := by
    have hpos : v.virtAddr < v.virtAddr + v.areaSize := Nat.lt_add_of_pos_right (h.nonempty v hv)
    exact FirstFit.ranges_blocks_iff hlen hpos
  have hlower : ∀ b ∈ places vs addr len, r ≤ b := fun b ⟨hb, haddr, _, hdis⟩ =>
    hleast ⟨(pageUp_le_iff hb).2 haddr, fun v hv => (hout hv b).2 (hdis v hv)⟩
  obtain ⟨b, hb⟩ := hplaces
  have hrb := hlower b hb
  have hend := hb.2.2.1
  exact ⟨⟨hmod, (pageUp_le_iff hmod).1 hle, by omega, fun v hv => (hout hv r).1 (hfree v hv)⟩, hlower⟩

/-- `kmalloc` gives a block for an area, of the length that it gets, and one for its
record. -/
def GrantsArea (k : Kernel) (len : Nat) : Prop :=
  ∃ ptr a₁ rec a₂, RpiKernel.kmalloc (len % 2 ^ 32) k.alloc = some (ptr, a₁) ∧ ptr ≠ 0 ∧
    RpiKernel.kmalloc (vmaBytes % 2 ^ 32) a₁ = some (rec, a₂) ∧ rec ≠ 0

/-- An area of less than 2^32 bytes has all of them. -/
theorem GrantsArea.mapAt (h : GrantsArea k len) (ha : k.alloc.Settled) (hmod : len % 0x1000 = 0)
    (hlen : len < 2 ^ 32) (addr prot : Nat) : ∃ k', mapAt addr len prot k = some (addr, k') := by
  obtain ⟨ptr, a₁, rec, a₂, h₁, hptr, h₂, hne⟩ := h
  obtain ⟨T, hT⟩ := ha
  rw [Nat.mod_eq_of_lt hlen] at h₁
  obtain ⟨p, a', hres, hout⟩ := hT.kmalloc len
  obtain ⟨rfl, rfl⟩ : p = ptr ∧ a' = a₁ := by simpa using hres.symm.trans h₁
  obtain ⟨-, hadds, T', hT', -⟩ := hout.resolve_left fun hnull => hptr hnull.1
  have hregion : a'.Region p (granted len) := (hadds.region _ _).2 (Or.inr ⟨rfl, rfl⟩)
  have hle : len ≤ granted len := le_granted (by unfold maxRequest frameSize; omega)
  have hmap : Mapped p len := mapped_of_region ⟨T', hT'⟩ hregion hle
  have h₁' : RpiKernel.kmalloc (len % 2 ^ 32) k.alloc = some (p, a') := by rwa [Nat.mod_eq_of_lt hlen]
  refine ⟨_, bind_some.2 ⟨_, _, currThread_some.2 rfl, bind_some.2 ⟨_, _, kmalloc_some.2 ⟨a', h₁', rfl⟩,
    bind_some.2 ⟨_, _, store_some.2 ⟨hmap, rfl⟩, bind_some.2 ⟨_, _,
      mmuAddVma_some.2 ⟨rec, a₂, hne, h₂, rfl⟩, pure_some.2 rfl⟩⟩⟩⟩⟩

/-- A longer one is cleared beyond the kernel's map. -/
theorem mapAt_long (hlen : 2 ^ 32 ≤ len) (addr prot : Nat) : mapAt addr len prot k = none := by
  cases hm : mapAt addr len prot k with
  | none => rfl
  | some q =>
      obtain ⟨t, k₁, -, h₁⟩ := bind_some.1 hm
      obtain ⟨ptr, k₂, -, h₂⟩ := bind_some.1 h₁
      obtain ⟨u, k₃, hstore, -⟩ := bind_some.1 h₂
      have hmap : Mapped ptr len := (store_some.1 hstore).1
      unfold Mapped kernelMapSize at hmap
      omega

/-- **First fit.**  `mmap` returns the first place at or above the hint, whatever the
order of the areas and after at most one call for each of them, exactly when the length
has 32 bits and there is a place; and with a length of 2^32 or more it never returns. -/
theorem mmap_firstFit (hvs : AreaList vs) (hp : (k.procs k.sched.currThread).vmaList.Perm vs)
    (hlen : 0 < len) (hround : pageUp len < 2 ^ 64) (haddr : pageUp addr + pageUp len < 2 ^ 64)
    (ha : k.alloc.Settled) (hg : GrantsArea k (pageUp len)) :
    ((∃ r, IsLeast (places vs addr (pageUp len)) r ∧
        ∀ n, vs.length < n → ∃ k', mmap n addr len prot k = some (r, k')) ↔
      pageUp len < 2 ^ 32 ∧ (places vs addr (pageUp len)).Nonempty) ∧
    (2 ^ 32 ≤ pageUp len → ∀ n, mmap n addr len prot k = none) := by
  have hpos : 0 < pageUp len := Nat.lt_of_lt_of_le hlen ((pageUp_le_iff (by simp [pageUp])).1 le_rfl)
  have hmod : pageUp len % 0x1000 = 0 := by simp [pageUp]
  have hlong : 2 ^ 32 ≤ pageUp len → ∀ n, mmap n addr len prot k = none := fun hle n => by
    cases hm : mmap n addr len prot k with
    | none => rfl
    | some q =>
        obtain ⟨x, hx⟩ := mmap_mapAt hm
        rw [roundPage_eq hround, mapAt_long hle] at hx
        contradiction
  refine ⟨⟨fun ⟨r, hr, hall⟩ => ⟨?_, r, hr.1⟩, fun ⟨hsmall, hplaces⟩ => ?_⟩, hlong⟩
  · by_contra hn
    obtain ⟨k', hk'⟩ := hall (vs.length + 1) (Nat.lt_succ_self _)
    rw [hlong (Nat.le_of_not_lt hn)] at hk'
    exact nomatch hk'
  · obtain ⟨r, hr⟩ : ∃ r, FirstFit.search (obstacles (pageUp len)) vs (vs.length + 1) (roundPage addr) =
        some r := FirstFit.search_returns _ (Nat.lt_succ_self vs.length)
    have hleast := hvs.search_isLeast hpos (by omega) hr hplaces
    refine ⟨r, hleast, fun n hn => ?_⟩
    have hk : AreaList (k.procs k.sched.currThread).vmaList := hvs.perm hp.symm
    have hs := FirstFit.search_perm hp.symm hr (hp.length_eq ▸ hn)
    rw [mmap_len, roundPage_eq hround, hk.mmap_eq hmod hleast.1.2.2.1 hs]
    exact hg.mapAt ha hmod hsmall r prot

theorem GrantsArea.of_room {m : Nat} (h : k.alloc.Room (m + 2)) (hlen : len % 2 ^ 32 ≤ 0x4000) :
    GrantsArea k len := by
  obtain ⟨ptr, a₁, h₁, hp, hadds, hroom⟩ := h.kmalloc hlen
  obtain ⟨rec, a₂, h₂, hne, -, -⟩ := hroom.kmalloc (show vmaBytes ≤ 0x4000 by decide)
  exact ⟨ptr, a₁, rec, a₂, h₁, hp, h₂, hne⟩

theorem Booted.areaList {k₀ : Kernel} {data filesize : Nat} {uart : VnodeRef}
    (h : k₀.Booted data filesize uart) (hpos : 0 < filesize) (hle : filesize ≤ peripheralStart) :
    AreaList (k₀.procs k₀.sched.currThread).vmaList := by
  have hranges := h.ranges
  have hok : WellFormed (k₀.procs k₀.sched.currThread).vmaList :=
    (h.areas (hle.trans_lt (by decide))).iff.2 hle _
  refine ⟨fun v hv => ?_, fun v hv => hok.aligned _ (List.mem_map_of_mem hv), fun v hv => ?_⟩
  · have hm : v.range ∈ imageRanges filesize ++ fixedRanges := hranges ▸ List.mem_map_of_mem hv
    have hround := le_roundPage (x := filesize) (hle.trans (by decide))
    simp only [imageRanges, fixedRanges, List.cons_append, List.nil_append, List.mem_cons,
      List.not_mem_nil, or_false, Vma.range, Prod.mk.injEq] at hm
    rcases hm with h | h | h | h | h <;> rw [h.2]
    · omega
    all_goals decide
  · have hend := (hok.fin hv).1
    omega

/-- The first program asks for a page, with a hint in its image. -/
theorem mmap_firstFit_boot : ∃ (k₀ k' : Kernel) (r : Nat), k₀.Booted 0 1 ⟨0, .uart⟩ ∧
    IsLeast (places (k₀.procs k₀.sched.currThread).vmaList 0x10 0x1000) r ∧
    mmap ((k₀.procs k₀.sched.currThread).vmaList.length + 1) 0x10 1 3 k₀ = some (r, k') := by
  obtain ⟨k₀, hb, hroom, -⟩ := smallBooted ⟨0, .uart⟩ (by decide : 1 ≤ 0x4000)
  have hareas := hb.areaList (by decide) (by decide)
  have hok : WellFormed (k₀.procs k₀.sched.currThread).vmaList :=
    (hb.areas (by decide)).iff.2 (by decide) _
  have hroom' : k₀.alloc.Room (0x2ffe + 2) := hroom
  have hplaces : (places (k₀.procs k₀.sched.currThread).vmaList 0x10 0x1000).Nonempty := by
    -- behind all areas, which end below `2 ^ 48`
    refine ⟨2 ^ 63, by decide, by decide, by decide, fun v hv => ?_⟩
    have hend := (hok.fin hv).1
    rw [Set.Ico_disjoint_Ico]
    omega
  obtain ⟨r, hr, hall⟩ : ∃ r, IsLeast (places (k₀.procs k₀.sched.currThread).vmaList 0x10 (pageUp 1)) r ∧
      ∀ n, (k₀.procs k₀.sched.currThread).vmaList.length < n → ∃ k', mmap n 0x10 1 3 k₀ = some (r, k') :=
    (mmap_firstFit hareas (List.Perm.refl _) (by decide : 0 < 1) (by decide)
      (by decide : pageUp 0x10 + pageUp 1 < 2 ^ 64) hroom'.settled (.of_room hroom' (by decide))).1.2
      ⟨by decide, hplaces⟩
  obtain ⟨k', hk'⟩ := hall _ (Nat.lt_succ_self _)
  exact ⟨k₀, k', r, hb, hr, hk'⟩

/-- With a length of 4 GiB its `mmap` never returns, although there is a place, and
`kmalloc` gives a block. -/
theorem mmap_endless : ∃ k₀ : Kernel, k₀.Booted 0 1 ⟨0, .uart⟩ ∧
    AreaList (k₀.procs k₀.sched.currThread).vmaList ∧ GrantsArea k₀ (pageUp (2 ^ 32)) ∧
    (places (k₀.procs k₀.sched.currThread).vmaList 0x10 (pageUp (2 ^ 32))).Nonempty ∧
    ∀ n, mmap n 0x10 (2 ^ 32) 3 k₀ = none := by
  obtain ⟨k₀, hb, hroom, -⟩ := smallBooted ⟨0, .uart⟩ (by decide : 1 ≤ 0x4000)
  have hok : WellFormed (k₀.procs k₀.sched.currThread).vmaList :=
    (hb.areas (by decide)).iff.2 (by decide) _
  have hroom' : k₀.alloc.Room (0x2ffe + 2) := hroom
  refine ⟨k₀, hb, hb.areaList (by decide) (by decide), .of_room hroom' (by decide),
    ⟨2 ^ 63, by decide, by decide, by decide, fun v hv => ?_⟩, fun n => ?_⟩
  · have hend := (hok.fin hv).1
    rw [Set.Ico_disjoint_Ico]
    omega
  · cases hm : mmap n 0x10 (2 ^ 32) 3 k₀ with
    | none => rfl
    | some q =>
        obtain ⟨x, hx⟩ := mmap_mapAt hm
        rw [mapAt_long (by decide)] at hx
        contradiction

end Kernel

end RpiKernel
