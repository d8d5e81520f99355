import RpiKernel.Memory.BuddyRun

/-!
# RpiKernel.Memory.Partition

What `buddy_init` makes of the managed memory, and what `buddy_allocate`
finds in it.

* `buddyInit_partitioned`: the reserved frames are those that a reservation
  touches, every other frame lies in one free block, and the blocks are
  aligned and as large as they can be;
* `buddyAllocate_complete`: a request fails only when no aligned run of
  free frames is long enough, and then it changes nothing; otherwise the
  frames of one run change hands.
-/

namespace RpiKernel

open Dyadic

variable {s : Buddy} {T : Nat → Tag} {h : BuddyHistory} {reserved : Nat → Prop}
  {rs : List (Nat × Nat)} {r : Nat × Nat} {b f i k x y : Nat}

/-! ## reservations -/

/-- The range `[r.1, r.2)` lies in the managed memory. -/
structure InManaged (r : Nat × Nat) : Prop where
  le : r.1 ≤ r.2
  base : buddyMemoryBase ≤ r.1
  fin : r.2 ≤ buddyMemoryBase + memorySize

/-- Frame `f` and the range have a byte in common. -/
def Overlaps (f : Nat) (r : Nat × Nat) : Prop :=
  ∃ x, (r.1 ≤ x ∧ x < r.2) ∧ buddyMemoryBase + f * frameSize ≤ x ∧
    x < buddyMemoryBase + f * frameSize + frameSize

/-- The range is empty and lies inside frame `f`, not at its start. -/
def EmptyInside (f : Nat) (r : Nat × Nat) : Prop :=
  r.1 = r.2 ∧ buddyMemoryBase + f * frameSize < r.1 ∧
    r.1 < buddyMemoryBase + f * frameSize + frameSize

/-- The frames that `memory_reserve` marks, from its two indices. -/
theorem marked_iff (hxy : x ≤ y) :
    (x / frameSize ≤ f ∧ f < (y + (frameSize - 1)) / frameSize) ↔
      Overlaps f (buddyMemoryBase + x, buddyMemoryBase + y) ∨
        EmptyInside f (buddyMemoryBase + x, buddyMemoryBase + y) := by
  unfold Overlaps EmptyInside
  have hends : (x / frameSize ≤ f ∧ f < (y + (frameSize - 1)) / frameSize) ↔
      x < f * frameSize + frameSize ∧ f * frameSize < y := by
    unfold frameSize
    omega
  have hpos : 0 < frameSize := by decide
  rw [hends]
  dsimp only
  constructor
  · rintro ⟨hx, hy⟩
    by_cases hlt : x < y
    · left
      by_cases hle : f * frameSize ≤ x
      · exact ⟨buddyMemoryBase + x, by omega, by omega, by omega⟩
      · exact ⟨buddyMemoryBase + f * frameSize, by omega, by omega, by omega⟩
    · right
      omega
  · intro hm
    cases hm with
    | inl ho =>
        obtain ⟨z, hz, hz'⟩ := ho
        omega
    | inr he => omega

/-- One reservation. -/
theorem InManaged.status (hr : InManaged r) (s : Buddy) (f : Nat) :
    ((memoryReserve r.1 r.2 s).frames f).status = reservedFrame ↔
      (Overlaps f r ∨ EmptyInside f r) ∨ (s.frames f).status = reservedFrame := by
  obtain ⟨x, hx⟩ := Nat.exists_eq_add_of_le hr.base
  obtain ⟨y, hy⟩ := Nat.exists_eq_add_of_le (hr.base.trans hr.le)
  have hrange : r = (buddyMemoryBase + x, buddyMemoryBase + y) := Prod.ext hx hy
  have hle := hr.le
  have hfin := hr.fin
  rw [hrange] at hle hfin ⊢
  dsimp only at hle hfin ⊢
  rw [memoryReserve_status (by omega) (by omega), ← marked_iff (by omega)]
  split_ifs with hm <;> simp [hm]

/-- All reservations. -/
theorem reserveAll_iff (hrs : ∀ r ∈ rs, InManaged r) (hf : f < totalFrame) :
    ((reserveAll s rs).frames f).status = reservedFrame ↔
      ∃ r ∈ rs, Overlaps f r ∨ EmptyInside f r := by
  have hfold : ∀ (rs : List (Nat × Nat)) (s : Buddy), (∀ r ∈ rs, InManaged r) →
      (((rs.foldl (fun s r => memoryReserve r.1 r.2 s) s).frames f).status = reservedFrame ↔
        (∃ r ∈ rs, Overlaps f r ∨ EmptyInside f r) ∨ (s.frames f).status = reservedFrame) := by
    intro rs
    induction rs with
    | nil => simp
    | cons r rs ih =>
        intro s hrs
        rw [List.foldl_cons, ih _ fun q hq => hrs q (List.mem_cons_of_mem r hq),
          (hrs r List.mem_cons_self).status]
        simp only [List.mem_cons, exists_eq_or_imp]
        exact or_left_comm.trans or_assoc.symm
  have hclear : ((clearFrames s).frames f).status ≠ reservedFrame := by
    simp [clearFrames, hf, uninitFrame, reservedFrame]
  unfold reserveAll
  rw [hfold rs _ hrs]
  exact or_iff_left hclear

/-! ## what `buddy_init` builds -/

/-- The frames after the reservations `rs`: who owns which, and that the free
blocks are as large as possible. -/
structure Partitioned (rs : List (Nat × Nat)) (s : Buddy) : Prop where
  reserved : ∀ f < totalFrame, (s.frames f).status = reservedFrame ↔
    ∃ r ∈ rs, Overlaps f r ∨ EmptyInside f r
  outside : ∀ f < totalFrame, (s.frames f).status = reservedFrame →
    ∀ i k, FreeBlock s i k → ¬ Mem f i k
  unique : ∀ f < totalFrame, (s.frames f).status ≠ reservedFrame →
    ∃! block : Nat × Nat, FreeBlock s block.1 block.2 ∧ Mem f block.1 block.2
  block : ∀ i k, FreeBlock s i k → 2 ^ k ∣ i ∧ i + 2 ^ k ≤ totalFrame
  noBuddies : ∀ i k, k < maxOrder → FreeBlock s i k → ¬ FreeBlock s (buddy i k) k

/-- A settled history with no live block partitions the memory. -/
theorem BuddyHistory.Ok.partitioned (hok : h.Ok reserved T) (hlive : ∀ i, h.live i = none)
    (hres : ∀ f < totalFrame, reserved f ↔ ∃ r ∈ rs, Overlaps f r ∨ EmptyInside f r) :
    Partitioned rs h.buddy := by
  have hcover := hok.isCover
  have hst : ∀ f < totalFrame, (h.buddy.frames f).status = reservedFrame ↔ reserved f :=
    fun f hf => (hok.ok.reserved_iff hf).trans (hok.reserved f)
  constructor
  · exact fun f hf => (hst f hf).trans (hres f hf)
  · exact fun f hf hr i k hb hm => ((hcover.isAvail i k hb).avail f hm).1 ((hst f hf).mp hr)
  · intro f hf hr
    have hav : Available reserved h.live f :=
      ⟨mt (hst f hf).mpr hr, fun i k hl => by simp [hlive i] at hl⟩
    obtain ⟨i, k, hb, hm⟩ := hcover.cover f hf hav
    refine ⟨(i, k), ⟨hb, hm⟩, fun block hblock => ?_⟩
    obtain ⟨hi, hk⟩ := hcover.disjoint _ _ i k f hblock.1 hb hblock.2 hm
    exact Prod.ext hi hk
  · exact fun i k hb => ⟨(hcover.isAvail i k hb).dvd, (hcover.isAvail i k hb).le⟩
  · exact fun i k _ hb => hcover.noBuddies i k hb

/-- **`buddy_init`**: after any reservations in the managed memory the frames
are partitioned. -/
theorem buddyInit_partitioned (s : Buddy) (rs : List (Nat × Nat))
    (hrs : ∀ r ∈ rs, InManaged r) : Partitioned rs (buddyInit (reserveAll s rs)) := by
  obtain ⟨T, h₀⟩ := BuddyHistory.boot_ok s rs
  have hpart := h₀.partitioned (fun _ => rfl) fun f hf => reserveAll_iff hrs hf
  unfold BuddyHistory.boot at hpart
  dsimp only at hpart
  exact hpart

/-- Frame descriptors full of zeros. -/
def Buddy.zero : Buddy := ⟨fun _ => ⟨0, 0, none, none, 0, none, false⟩, fun _ => none⟩

/-- The first byte of the memory is reserved. -/
theorem buddyInit_partitioned_byte :
    Partitioned [(buddyMemoryBase, buddyMemoryBase + 1)]
      (buddyInit (reserveAll .zero [(buddyMemoryBase, buddyMemoryBase + 1)])) :=
  buddyInit_partitioned .zero _ fun r hr => by
    obtain rfl := List.mem_singleton.mp hr
    exact ⟨by decide, le_rfl, by decide⟩

/-- An empty range that starts inside the first frame reserves it. -/
theorem buddyInit_emptyRange : ¬ ∀ (s : Buddy) (rs : List (Nat × Nat)), (∀ r ∈ rs, InManaged r) →
    ∀ f < totalFrame, ((buddyInit (reserveAll s rs)).frames f).status = reservedFrame ↔
      ∃ r ∈ rs, Overlaps f r := by
  intro hall
  have hin : ∀ r ∈ [(buddyMemoryBase + 1, buddyMemoryBase + 1)], InManaged r := fun r hr => by
    obtain rfl := List.mem_singleton.mp hr
    exact ⟨le_rfl, by decide, by decide⟩
  have hpart := buddyInit_partitioned .zero _ hin
  have hres := (hpart.reserved 0 (by decide)).mpr
    ⟨_, List.mem_singleton_self _, Or.inr ⟨rfl, by decide, by decide⟩⟩
  obtain ⟨r, hr, x, hx, -⟩ := (hall .zero _ hin 0 (by decide)).mp hres
  obtain rfl := List.mem_singleton.mp hr
  omega

/-! ## what `buddy_allocate` finds -/

/-- Frame `f` lies in a free block. -/
def InFree (s : Buddy) (f : Nat) : Prop := ∃ i k, FreeBlock s i k ∧ Mem f i k

/-- A frame that is neither reserved nor in a live block. -/
def BuddyHistory.Unused (h : BuddyHistory) : Nat → Prop :=
  Available (fun f => (h.buddy.frames f).status = reservedFrame) h.live

theorem BuddyHistory.owns_live : h.Owns f (.live i k) ↔ h.live i = some k ∧ Mem f i k := Iff.rfl

theorem BuddyHistory.unused_iff :
    h.Unused f ↔ ¬ h.Owns f .reserved ∧ ∀ i k, ¬ h.Owns f (.live i k) :=
  and_congr_right fun _ => forall₂_congr fun _ _ => not_and.symm

/-- The frames of the block of order `k` at `b` change from free to live
between `h` and `h'`; the others stay what they are. -/
structure Handed (h h' : BuddyHistory) (b k : Nat) : Prop where
  dvd : 2 ^ k ∣ b
  le : b + 2 ^ k ≤ totalFrame
  free : ∀ f, Mem f b k → InFree h.buddy f
  live : ∀ f, Mem f b k → h'.Owns f (.live b k)
  reserved : ∀ f < totalFrame, h'.Owns f .reserved ↔ h.Owns f .reserved
  others : ∀ f < totalFrame, ¬ Mem f b k →
    (InFree h'.buddy f ↔ InFree h.buddy f) ∧ ∀ i l, h'.Owns f (.live i l) ↔ h.Owns f (.live i l)

/-- The free blocks cover the unused frames. -/
theorem BuddyHistory.Ok.isCover_unused (hok : h.Ok reserved T) :
    IsCover totalFrame h.Unused (FreeBlock h.buddy) := by
  have hcover := hok.isCover
  have hst : ∀ f < totalFrame, h.Unused f ↔ Available reserved h.live f := fun f hf => by
    have hres : (h.buddy.frames f).status = reservedFrame ↔ reserved f :=
      (hok.ok.reserved_iff hf).trans (hok.reserved f)
    exact and_congr_left fun _ => not_congr hres
  constructor
  · intro i k hb
    obtain ⟨hdvd, hle, hav⟩ := hcover.isAvail i k hb
    exact ⟨hdvd, hle, fun f hf => (hst f (by have := hf.2; omega)).mpr (hav f hf)⟩
  · exact hcover.disjoint
  · exact fun f hf hun => hcover.cover f hf ((hst f hf).mp hun)
  · exact hcover.noBuddies

/-- A frame is free exactly when it is unused. -/
theorem BuddyHistory.Ok.inFree_iff (hok : h.Ok reserved T) (hf : f < totalFrame) :
    InFree h.buddy f ↔ h.Unused f := by
  have hcover := hok.isCover_unused
  constructor
  · rintro ⟨i, k, hb, hm⟩
    exact (hcover.isAvail i k hb).avail f hm
  · exact hcover.cover f hf

/-- A call that makes one free block live. -/
theorem BuddyHistory.Ok.handed {h' : BuddyHistory} {T' : Nat → Tag} (hok : h.Ok reserved T)
    (hok' : h'.Ok reserved T') (hlive : h'.live = Function.update h.live b (some k))
    (hb : ∃ l, k ≤ l ∧ FreeBlock h.buddy b l) : Handed h h' b k := by
  obtain ⟨l, hkl, hfree⟩ := hb
  have hnot : h.live b = none := by
    cases hl : h.live b with
    | none => rfl
    | some m =>
        have hT := (hok.ok.freeBlock_iff.mp hfree).2
        rw [(hok.live b m).mpr hl] at hT
        contradiction
  have hb' : h'.live b = some k := by rw [hlive, Function.update_self]
  have hother : ∀ i, i ≠ b → h'.live i = h.live i := fun i hi => by
    rw [hlive, Function.update_of_ne hi]
  obtain ⟨hdvd, hle⟩ := hok'.invariant.block b k (Or.inr hb')
  have hinside : ∀ f, Mem f b k → Mem f b l := fun f hf =>
    ⟨hf.1, hf.2.trans_le (Nat.add_le_add_left (Nat.pow_le_pow_right (by decide) hkl) b)⟩
  have hres : ∀ f < totalFrame, h'.Owns f .reserved ↔ h.Owns f .reserved := fun f hf =>
    ((hok'.ok.reserved_iff hf).trans (hok'.reserved f)).trans
      ((hok.ok.reserved_iff hf).trans (hok.reserved f)).symm
  have hlives : ∀ f, ¬ Mem f b k → ∀ i m, h'.Owns f (.live i m) ↔ h.Owns f (.live i m) := by
    intro f hf i m
    rw [owns_live, owns_live]
    by_cases hi : i = b
    · subst hi
      rw [hb', hnot]
      grind
    · rw [hother i hi]
  constructor
  · exact hdvd
  · exact hle
  · exact fun f hf => ⟨b, l, hfree, hinside f hf⟩
  · exact fun f hf => ⟨hb', hf⟩
  · exact hres
  · intro f hf hout
    refine ⟨?_, hlives f hout⟩
    rw [hok'.inFree_iff hf, hok.inFree_iff hf, unused_iff, unused_iff]
    exact and_congr (not_congr (hres f hf))
      (forall₂_congr fun i m => not_congr (hlives f hout i m))

/-- What `buddy_allocate(k)` does in `h`: it fails exactly when no aligned run
of `2 ^ k` frames is unused, and then changes nothing; otherwise it hands out
such a run. -/
structure BuddyHistory.Complete (h : BuddyHistory) (k : Nat) : Prop where
  fails : (buddyAllocate k h.buddy).1 = none ↔ ∀ i, ¬ IsAvail totalFrame h.Unused i k
  unchanged : (buddyAllocate k h.buddy).1 = none →
    (buddyAllocate k h.buddy).2 = h.buddy ∧ (h.call (.allocate k)).live = h.live
  grants : ∀ b, (buddyAllocate k h.buddy).1 = some b → Handed h (h.call (.allocate k)) b k

theorem BuddyHistory.Ok.complete (hok : h.Ok reserved T) (k : Nat) : h.Complete k := by
  have hcover := hok.isCover_unused
  obtain ⟨T', hok'⟩ := hok.call (.allocate k)
  cases hok.ok.buddyAllocate k with
  | inl hnone =>
      have hlive : (h.call (.allocate k)).live = h.live := by
        unfold BuddyHistory.call
        dsimp only
        rw [hnone.1]
      constructor
      · -- an unused run lies in a free block, which is large enough
        refine iff_of_true (by rw [hnone.1]) fun i hav => ?_
        obtain ⟨j, m, hb, hji, hu⟩ := hcover.contains hav
        obtain ⟨hj, hT⟩ := hok.ok.freeBlock_iff.mp hb
        have hkm : k ≤ m := (Nat.pow_le_pow_iff_right (by decide : 1 < 2)).mp (by omega)
        exact hnone.2 j hj m hkm hT
      · exact fun _ => ⟨by rw [hnone.1], hlive⟩
      · intro b hb
        rw [hnone.1] at hb
        contradiction
  | inr hsome =>
      obtain ⟨b, m, T₁, hb, hlt, hkm, hT, -, -⟩ := hsome
      have hfree : FreeBlock h.buddy b m := hok.ok.freeBlock_iff.mpr ⟨hlt, hT⟩
      have hlive : (h.call (.allocate k)).live = Function.update h.live b (some k) := by
        unfold BuddyHistory.call
        dsimp only
        cases hres : buddyAllocate k h.buddy with
        | mk r s' =>
            rw [hres] at hb
            dsimp only at hb
            subst hb
            rfl
      have hhand := hok.handed hok' hlive ⟨m, hkm, hfree⟩
      constructor
      · refine iff_of_false (by simp [hb]) fun hall => hall b ⟨hhand.dvd, hhand.le, fun f hf => ?_⟩
        have hlt : f < totalFrame := hf.2.trans_le hhand.le
        exact (hok.inFree_iff hlt).mp (hhand.free f hf)
      · intro hn
        rw [hb] at hn
        contradiction
      · intro b' hb'
        obtain rfl := Option.some.inj (hb.symm.trans hb')
        exact hhand

/-- **`buddy_allocate`** never fails without need: this holds in every history
and for every order. -/
theorem buddyAllocate_complete (s : Buddy) (rs : List (Nat × Nat)) (cs : List BuddyCall)
    (k : Nat) : ((BuddyHistory.boot s rs).calls cs).Complete k := by
  obtain ⟨T₀, h₀⟩ := BuddyHistory.boot_ok s rs
  obtain ⟨T, hok⟩ := h₀.calls cs
  exact hok.complete k

end RpiKernel
