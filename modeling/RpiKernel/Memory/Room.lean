import RpiKernel.Memory.Holding
import RpiKernel.Memory.KmallocRun

/-!
# RpiKernel.Memory.Room

How much memory is left.  A chunk is an aligned run of four frames; a request
for at most `0x4000` bytes uses bytes of one chunk only, and succeeds as long
as some chunk is untouched (`Alloc.Room.kmalloc`).
-/

namespace RpiKernel

open Dyadic

variable {a a' : Alloc} {T T' : Nat → Tag} {p q n m g size : Nat}

/-- Where chunk `g` starts. -/
def chunkBase (g : Nat) : Nat := buddyMemoryBase + g * 0x4000

/-- Chunk `g` is managed, no frame of it is reserved and no region touches
it. -/
structure Vacant (a : Alloc) (T : Nat → Tag) (g : Nat) : Prop where
  managed : (g + 1) * 4 ≤ totalFrame
  unreserved : ∀ f, f / 4 = g → T f ≠ .reserved
  untouched : ∀ p n, a.Region p n → p + n ≤ chunkBase g ∨ chunkBase (g + 1) ≤ p

/-- At least `n` chunks are vacant. -/
def Alloc.Room (n : Nat) (a : Alloc) : Prop :=
  ∃ (T : Nat → Tag) (gs : List Nat), a.Ok T ∧ n ≤ gs.length ∧ gs.Nodup ∧ ∀ g ∈ gs, Vacant a T g

/-- A small region lies in one chunk. -/
theorem Alloc.Ok.region_chunk (h : a.Ok T) (hr : a.Region p n) (hn : n ≤ 0x4000) :
    ∃ g, chunkBase g ≤ p ∧ p + n ≤ chunkBase (g + 1) := by
  obtain ⟨e, he, rfl, rfl⟩ := h.region_iff.mp hr
  have hlive := h.entry_live he
  have hord : (T e.frame).order? = some e.order := by rw [hlive.2]; rfl
  obtain ⟨hdvd, -, -⟩ := h.buddy.tiled.block _ hlive.1 _ hord
  obtain ⟨hsz, h1, h2⟩ := h.entry_inside he
  have hk : e.order ≤ 2 := by
    cases e with
    | slot b c i => exact Nat.zero_le _
    | block b k =>
        by_contra hk
        simp only [Entry.order] at hk
        have hpow : 2 ^ 3 ≤ 2 ^ k := Nat.pow_le_pow_right (by decide) (by omega)
        simp only [Entry.size, frameSize] at hn
        omega
  refine ⟨e.frame / 4, ?_⟩
  unfold chunkBase
  unfold frameSize at h1 h2
  have hcases : e.order = 0 ∨ e.order = 1 ∨ e.order = 2 := by omega
  obtain ⟨c, hc⟩ := hdvd
  rcases hcases with ho | ho | ho <;> rw [ho] at hc h2 <;> omega

/-- No live block has a frame of a vacant chunk. -/
theorem Vacant.not_live (h : Vacant a T g) (hT : a.Ok T) {f i k : Nat} (hf : f / 4 = g)
    (hi : i < totalFrame) (hl : T i = .live k) : ¬ Mem f i k := by
  intro hm
  obtain ⟨hlo, hhi⟩ := hm
  by_cases hp : a.IsPage i
  · -- a slab page has a slot in use
    obtain ⟨hlive, -, c, hok⟩ := hT.page i hi hp
    obtain rfl : k = 0 := by rw [hlive] at hl; exact (Tag.live.inj hl).symm
    obtain ⟨s, hs, hbit⟩ : ∃ s < slotCount c, (a.slabs i).bitmap s = true := by
      by_contra hno
      have hzero : usedSlots (a.slabs i).bitmap (slotCount c) = 0 := by
        unfold usedSlots
        rw [Nat.count_eq_card_filter_range, Finset.card_eq_zero, Finset.filter_eq_empty_iff]
        exact fun s hs hb => hno ⟨s, Finset.mem_range.mp hs, hb⟩
      have := hok.used_pos
      omega
    have hreg : a.Region (buddyMemoryBase + (Entry.slot i c s).offset) (Entry.slot i c s).size :=
      hT.region_iff.mpr ⟨.slot i c s, ⟨hi, hp, hok.slabType, hs, hbit⟩, rfl, rfl⟩
    have hin := hT.entry_inside (e := .slot i c s) ⟨hi, hp, hok.slabType, hs, hbit⟩
    have hout := h.untouched _ _ hreg
    simp only [Entry.frame, Entry.order, frameSize] at hin
    unfold chunkBase at hout
    omega
  · have hreg : a.Region (buddyMemoryBase + (Entry.block i k).offset) (Entry.block i k).size :=
      hT.region_iff.mpr ⟨.block i k, ⟨hi, hl, hp⟩, rfl, rfl⟩
    have hout := h.untouched _ _ hreg
    simp only [Entry.offset, Entry.size, frameSize] at hout
    unfold chunkBase at hout
    have hfk : f * 4096 < (i + 2 ^ k) * 4096 := Nat.mul_lt_mul_of_pos_right hhi (by decide)
    rw [Nat.add_mul] at hfk
    omega

/-- A vacant chunk is part of a free block. -/
theorem Vacant.free (h : Vacant a T g) (hT : a.Ok T) :
    ∃ i m, i < totalFrame ∧ T i = .free m ∧ 2 ≤ m := by
  have hm := h.managed
  have havail : IsAvail totalFrame
      (fun f => T f ≠ .reserved ∧ ∀ i k, i < totalFrame → T i = .live k → ¬ Mem f i k) (g * 4) 2 := by
    refine ⟨⟨g, by omega⟩, by omega, fun f hf => ?_⟩
    obtain ⟨hlo, hhi⟩ := hf
    have hfg : f / 4 = g := by omega
    exact ⟨h.unreserved f hfg, fun i k hi hl => h.not_live hT hfg hi hl⟩
  obtain ⟨i, k, ⟨hi, hfree⟩, hlo, hhi⟩ := hT.buddy.isCover.contains havail
  refine ⟨i, k, hi, hfree, ?_⟩
  by_contra hk
  have hpow : 2 ^ k ≤ 2 ^ 1 := Nat.pow_le_pow_right (by decide) (by omega)
  omega

/-! ## requests -/

theorem size2order_le (hs : size ≤ 0x4000) : size2order size ≤ 2 := by
  unfold size2order
  by_cases h0 : size = 0
  · simp [h0]
  · have hadj : (size + frameSize - 1) % 2 ^ 32 / frameSize ≤ 4 := by
      unfold frameSize
      omega
    have hord : ∀ k ≤ 4, orderLoop k 32 0 ≤ 2 := by decide
    rw [if_neg h0]
    exact hord _ hadj

theorem granted_le_of_order (ho : size2order size ≤ 2) : granted size ≤ 0x4000 := by
  unfold granted
  by_cases h0 : size = 0
  · rw [if_pos h0]
    decide
  · have hpow : 2 ^ size2order size ≤ 2 ^ 2 := Nat.pow_le_pow_right (by decide) ho
    rw [if_neg h0]
    unfold frameSize
    omega

/-- A slot is found as long as a frame is free. -/
theorem Alloc.Ok.mallocS_ne_zero (h : a.Ok T) {i m : Nat} (hi : i < totalFrame)
    (hfree : T i = .free m) : RpiKernel.mallocS 0 a ≠ some (0, a') := by
  have hcl : findClass 0 = some 0 := rfl
  have hc : 0 < slabType := by decide
  unfold RpiKernel.mallocS slabAllocate
  rw [hcl]
  dsimp only
  cases h.findSlot hc with
  | inr hsome =>
      obtain ⟨page, i, he, hb, hp, ht, hi, hbit⟩ := hsome
      have hst := (h.class_of_page hb hp ht).startAddress
      have hin := slot_inside (c := 0) (by decide) hi
      have hlt : (a.slabs page).startAddress + i * slabSize 0 < 2 ^ 64 := by
        rw [hst, index2address_of_lt hb]
        unfold buddyMemoryBase
        unfold frameSize at hin ⊢
        unfold totalFrame at hb
        omega
      have hpos : (a.slabs page).startAddress ≠ 0 := by
        rw [hst]
        exact index2address_pos hb
      rw [he]
      dsimp only
      rw [Nat.mod_eq_of_lt hlt]
      intro heq
      have := (Prod.mk.inj (Option.some.inj heq)).1
      omega
  | inl hnone =>
      rw [hnone]
      dsimp only
      cases h.buddy.buddyAllocate 0 with
      | inl hfail => exact absurd hfree (hfail.2 i hi m (Nat.zero_le m))
      | inr hsucc =>
          obtain ⟨b, m, T', hres, hb, -⟩ := hsucc
          cases hr : RpiKernel.buddyAllocate 0 a.buddy with
          | mk r s =>
              rw [hr] at hres
              dsimp only at hres
              subst hres
              exact fun heq => index2address_pos hb (Prod.mk.inj (Option.some.inj heq)).1

/-- A request of a small order is granted, from one chunk. -/
theorem Alloc.Room.kmalloc_order (h : a.Room (n + 1)) (ho : size2order size ≤ 2) :
    ∃ p a', kmalloc size a = some (p, a') ∧ p ≠ 0 ∧ a.Adds a' p (granted size) ∧ a'.Room n := by
  obtain ⟨T, gs, hT, hlen, hnd, hvac⟩ := h
  obtain ⟨g, hg⟩ := List.exists_mem_of_length_pos (by omega : 0 < gs.length)
  obtain ⟨i, m, hi, hfree, hm⟩ := (hvac g hg).free hT
  obtain ⟨p, a', hres, hout⟩ := hT.kmalloc size
  have hp : p ≠ 0 := by
    rintro rfl
    unfold RpiKernel.kmalloc at hres
    by_cases h0 : size = 0
    · subst h0
      rw [if_pos (Nat.zero_le _)] at hres
      exact hT.mallocS_ne_zero hi hfree hres
    · have hlast : slabSize (slabType - 1) = 0 := rfl
      rw [if_neg (by omega)] at hres
      have hne := hT.mallocB_ne_zero hi hfree (ho.trans hm)
      exact hne (congrArg Prod.fst (Option.some.inj hres))
  obtain ⟨-, hadds, T', hT', hres'⟩ := hout.resolve_left fun hnull => hp hnull.1
  refine ⟨p, a', hres, hp, hadds, T', ?_⟩
  obtain ⟨c, hlo, hhi⟩ := hT'.region_chunk ((hadds.region _ _).mpr (Or.inr ⟨rfl, rfl⟩)) (granted_le_of_order ho)
  refine ⟨gs.erase c, hT', ?_, hnd.erase c, fun g hg => ?_⟩
  · have := List.le_length_erase (l := gs) (a := c)
    omega
  · obtain ⟨hgc, hg⟩ := hnd.mem_erase_iff.mp hg
    have hv := hvac g hg
    refine ⟨hv.managed, fun f hf => mt (hres' f).mp (hv.unreserved f hf), fun q k hq => ?_⟩
    cases (hadds.region q k).mp hq with
    | inl hold => exact hv.untouched q k hold
    | inr hnew =>
        obtain ⟨rfl, rfl⟩ := hnew
        unfold chunkBase at hlo hhi ⊢
        omega

/-- So is a small request. -/
theorem Alloc.Room.kmalloc (h : a.Room (n + 1)) (hs : size ≤ 0x4000) :
    ∃ p a', kmalloc size a = some (p, a') ∧ p ≠ 0 ∧ a.Adds a' p (granted size) ∧ a'.Room n :=
  h.kmalloc_order (size2order_le hs)

/-- Giving a block back uses no chunk. -/
theorem Alloc.Room.kfree (h : a.Room n) (hr : a.Region p m) :
    ∃ a', kfree p a = some a' ∧ a.Removes a' p ∧ a'.Room n := by
  obtain ⟨T, gs, hT, hlen, hnd, hvac⟩ := h
  obtain ⟨a', hres, hrem, T', hT', hres'⟩ := hT.kfree hr
  refine ⟨a', hres, hrem, T', gs, hT', hlen, hnd, fun g hg => ?_⟩
  have hv := hvac g hg
  exact ⟨hv.managed, fun f hf => mt (hres' f).mp (hv.unreserved f hf),
    fun q k hq => hv.untouched q k ((hrem q k).mp hq).1⟩

/-- A block that is given back by the one who has it. -/
theorem Alloc.Holds.kfree_room {base : Nat → Nat → Prop} {L : Custody.Blocks}
    (h : a.Holds base ((p, m) :: L)) (hr : a.Room n) (hk : RpiKernel.kfree p a = some a') : a'.Room n := by
  obtain ⟨j, hreg, -⟩ := h.holds.backed _ List.mem_cons_self
  obtain ⟨a₁, hres, -, hroom⟩ := hr.kfree hreg
  exact Option.some.inj (hres.symm.trans hk) ▸ hroom

theorem Alloc.Room.mono (h : a.Room n) (hm : m ≤ n) : a.Room m := by
  obtain ⟨T, gs, hT, hlen, hrest⟩ := h
  exact ⟨T, gs, hT, hm.trans hlen, hrest⟩

theorem Alloc.Room.settled (h : a.Room n) : ∃ T, a.Ok T := by
  obtain ⟨T, gs, hT, -⟩ := h
  exact ⟨T, hT⟩

/-! ## after a boot -/

theorem smallBoot_misses {f : Nat} (hlo : 0x20000 ≤ f) (hhi : f < 0x30000) :
    ∀ r ∈ smallBoot.reservations, Misses f r := by
  have hrs : smallBoot.reservations = [(0xffff000000001000, 0xffff000000005000),
      (0xffff000000080000, 0xffff000006000000), (0xffff00003bf80000, 0xffff00003c000000),
      (0xffff000008000000, 0xffff000008001000)] := rfl
  rw [hrs]
  intro r hr
  unfold Misses buddyMemoryBase memorySize totalFrame frameSize
  simp only [List.mem_cons, List.not_mem_nil, or_false] at hr
  rcases hr with rfl | rfl | rfl | rfl <;> dsimp only <;> omega

/-- After a boot the chunks from frame `0x20000` on are vacant. -/
theorem smallBoot_room : (initAllocator zeroAlloc smallBoot).Room 0x4000 := by
  obtain ⟨T, hok, hnone, -, hres⟩ := initAllocator_ok zeroAlloc smallBoot
  refine ⟨T, (List.range 0x4000).map (· + 0x8000), hok, ?_, ?_, fun g hg => ?_⟩
  · rw [List.length_map, List.length_range]
  · exact List.nodup_range.map fun x y hxy => Nat.add_right_cancel hxy
  · obtain ⟨k, hk, rfl⟩ := List.mem_map.mp hg
    rw [List.mem_range] at hk
    refine ⟨by unfold totalFrame; omega, fun f hf hr => ?_, fun p m hr => absurd hr (hnone p m)⟩
    have hst := (hres f).mp hr
    unfold reserveAll at hst
    rw [reserve_misses _ _ _ (smallBoot_misses (by omega) (by omega))] at hst
    have hft : f < totalFrame := by unfold totalFrame; omega
    simp [clearFrames, hft, uninitFrame, reservedFrame] at hst

end RpiKernel
