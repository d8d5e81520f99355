import RpiKernel.Memory.BuddyInit

/-!
# RpiKernel.Memory.BuddyRun

Histories of the page-frame allocator: any reservations, `buddy_init`, and
then any calls of `buddy_allocate` and `buddy_free`.  A history remembers
which blocks were handed out and not yet given back (`live`).

* `buddyHistory_invariant`: every frame has exactly one owner, and the
  statuses, links and list heads represent the blocks;
* `buddyHistory_coalesced`: the free blocks are the maximal aligned blocks
  of available frames, so they do not depend on the order of the calls.
-/

namespace RpiKernel

open Dyadic Dlist

/-! ## histories -/

/-- The frames after `init_allocator` has cleared the descriptors and made
its reservations. -/
def reserveAll (s : Buddy) (rs : List (Nat × Nat)) : Buddy :=
  rs.foldl (fun s r => memoryReserve r.1 r.2 s) (clearFrames s)

/-- The range `r` lies in the managed memory and does not touch frame `f`. -/
def Misses (f : Nat) (r : Nat × Nat) : Prop :=
  (buddyMemoryBase ≤ r.1 ∧ r.1 - buddyMemoryBase ≤ memorySize) ∧
    (buddyMemoryBase ≤ r.2 ∧ r.2 - buddyMemoryBase ≤ memorySize) ∧
    ¬ ((r.1 - buddyMemoryBase) / frameSize ≤ f ∧
      f < (r.2 - buddyMemoryBase + (frameSize - 1)) / frameSize)

instance (f : Nat) (r : Nat × Nat) : Decidable (Misses f r) :=
  inferInstanceAs (Decidable (_ ∧ _ ∧ _))

/-- A frame that no range touches keeps its status. -/
theorem reserve_misses (f : Nat) (rs : List (Nat × Nat)) (s : Buddy) (h : ∀ r ∈ rs, Misses f r) :
    ((rs.foldl (fun s r => memoryReserve r.1 r.2 s) s).frames f).status = (s.frames f).status := by
  induction rs generalizing s with
  | nil => rfl
  | cons r rs ih =>
      obtain ⟨⟨h1, hx⟩, ⟨h2, hy⟩, hout⟩ := h r List.mem_cons_self
      rw [List.foldl_cons, ih _ fun r' hr' => h r' (List.mem_cons_of_mem r hr')]
      have hst := memoryReserve_status hx hy s f
      rwa [Nat.add_sub_of_le h1, Nat.add_sub_of_le h2, if_neg hout] at hst

/-- One call of the allocator. -/
inductive BuddyCall where
  | allocate (order : Nat)
  | free (block : Fin totalFrame)

/-- A history: the allocator and the orders of the live blocks by head. -/
structure BuddyHistory where
  buddy : Buddy
  live : Nat → Option Nat

/-- Right after `buddy_init` nothing is live. -/
def BuddyHistory.boot (s : Buddy) (rs : List (Nat × Nat)) : BuddyHistory :=
  ⟨buddyInit (reserveAll s rs), fun _ => none⟩

/-- A successful allocation makes the returned block live; giving a frame
back ends the block it is the head of, if any. -/
def BuddyHistory.call (h : BuddyHistory) : BuddyCall → BuddyHistory
  | .allocate order =>
      match buddyAllocate order h.buddy with
      | (none, s) => ⟨s, h.live⟩
      | (some b, s) => ⟨s, Function.update h.live b (some order)⟩
  | .free block => ⟨buddyFree block h.buddy, Function.update h.live block none⟩

def BuddyHistory.calls (h : BuddyHistory) (cs : List BuddyCall) : BuddyHistory :=
  cs.foldl BuddyHistory.call h

variable {s : Buddy} {T : Nat → Tag} {h : BuddyHistory} {reserved : Nat → Prop} {i j k l f : Nat}

/-! ## the invariant of histories -/

/-- The tags agree with the history. -/
structure BuddyHistory.Ok (reserved : Nat → Prop) (h : BuddyHistory) (T : Nat → Tag) : Prop where
  ok : BuddyOk h.buddy T
  live : ∀ i k, T i = .live k ↔ h.live i = some k
  lt : ∀ i k, h.live i = some k → i < totalFrame
  reserved : ∀ i, T i = .reserved ↔ reserved i

theorem BuddyHistory.Ok.call (hok : h.Ok reserved T) (c : BuddyCall) :
    ∃ T', (h.call c).Ok reserved T' := by
  cases c with
  | allocate k =>
      unfold BuddyHistory.call
      dsimp only
      cases hok.ok.buddyAllocate k with
      | inl hnone =>
          rw [hnone.1]
          exact ⟨T, hok⟩
      | inr hsome =>
          obtain ⟨b, m, T', hb, hblt, -, hT, hok', hg⟩ := hsome
          cases hres : buddyAllocate k h.buddy with
          | mk r s =>
              rw [hres] at hb hok'
              dsimp only at hb hok'
              subst hb
              refine ⟨T', hok', fun i l => ?_, fun i l hl => ?_,
                fun i => (hg.reserved i).trans (hok.reserved i)⟩
              · rw [hg.live]
                by_cases hib : i = b
                · subst hib
                  simp [hT, eq_comm]
                · simp [hib, hok.live]
              · by_cases hib : i = b
                · exact hib ▸ hblt
                · dsimp only at hl
                  rw [Function.update_of_ne hib] at hl
                  exact hok.lt i l hl
  | free b =>
      unfold BuddyHistory.call
      dsimp only
      by_cases hlive : ∃ k, T b = .live k
      · obtain ⟨k, hk⟩ := hlive
        obtain ⟨T', hok', hl⟩ := hok.ok.buddyFree_live b.isLt hk
        refine ⟨T', hok', fun i l => ?_, fun i l hi => ?_,
          fun i => (hl.reserved i).trans (hok.reserved i)⟩
        · rw [hl.live, hok.live]
          by_cases hib : i = b
          · subst hib; simp
          · simp [hib]
        · by_cases hib : i = b
          · exact hib ▸ b.isLt
          · dsimp only at hi
            rw [Function.update_of_ne hib] at hi
            exact hok.lt i l hi
      · have hnl : ∀ k, T b ≠ .live k := fun k hk => hlive ⟨k, hk⟩
        rw [hok.ok.buddyFree_not_live b.isLt hnl]
        have hnone : h.live b = none := by
          cases hb : h.live b with
          | none => rfl
          | some k => exact absurd ((hok.live b k).mpr hb) (hnl k)
        rw [← hnone, Function.update_eq_self]
        exact ⟨T, hok⟩

theorem BuddyHistory.Ok.calls (hok : h.Ok reserved T) (cs : List BuddyCall) :
    ∃ T', (h.calls cs).Ok reserved T' := by
  induction cs generalizing h T with
  | nil => exact ⟨T, hok⟩
  | cons c cs ih =>
      obtain ⟨T₁, h₁⟩ := hok.call c
      exact ih h₁

theorem BuddyHistory.boot_ok (s : Buddy) (rs : List (Nat × Nat)) :
    ∃ T, (boot s rs).Ok (fun f => ((reserveAll s rs).frames f).status = reservedFrame) T := by
  obtain ⟨T, hok, hnl, hres⟩ := buddyInit_ok (reserveAll s rs)
  refine ⟨T, ?_⟩
  unfold boot
  constructor
  · dsimp only
    exact hok
  · intro i k
    simp [hnl i k]
  · simp
  · exact hres

/-! ## what the invariant says about the descriptors -/

/-- The block of order `k` at `i` is on its free list. -/
def FreeBlock (s : Buddy) (i k : Nat) : Prop :=
  k ≤ maxOrder ∧ ∃ xs q, IsSeg (fun i => (s.frames i).next) (fun i => (s.frames i).prev) none
    (s.freeLists k) xs q none ∧ i ∈ xs

theorem BuddyOk.freeBlock_iff (h : BuddyOk s T) :
    FreeBlock s i k ↔ i < totalFrame ∧ T i = .free k := by
  constructor
  · rintro ⟨hk, xs, q, hs, hi⟩
    obtain ⟨ys, r, hs', hmem⟩ := h.rep.lists k hk
    rw [hs.unique hs'] at hi
    exact (hmem i).mp hi
  · rintro ⟨hi, hT⟩
    have hk := (h.tiled.block i hi k (by rw [hT]; rfl)).2.2
    obtain ⟨xs, q, hs, hmem⟩ := h.rep.lists k hk
    exact ⟨hk, xs, q, hs, (hmem i).mpr ⟨hi, hT⟩⟩

/-- What a frame can belong to. -/
inductive Owner where
  | reserved
  | free (block order : Nat)
  | live (block order : Nat)

/-- The frame `f` belongs to the reserved memory, to a free block or to a
live block. -/
def BuddyHistory.Owns (h : BuddyHistory) (f : Nat) : Owner → Prop
  | .reserved => (h.buddy.frames f).status = reservedFrame
  | .free i k => FreeBlock h.buddy i k ∧ Mem f i k
  | .live i k => h.live i = some k ∧ Mem f i k

/-- A block of order `k`, free or live, starts at `i`. -/
def BuddyHistory.Block (h : BuddyHistory) (i k : Nat) : Prop :=
  FreeBlock h.buddy i k ∨ h.live i = some k

/-- The representation invariant of the page-frame allocator. -/
structure BuddyHistory.Invariant (h : BuddyHistory) : Prop where
  owner : ∀ f < totalFrame, ∃! o, h.Owns f o
  block : ∀ i k, h.Block i k → 2 ^ k ∣ i ∧ i + 2 ^ k ≤ totalFrame
  lists : ∀ k ≤ maxOrder, ∃ xs q,
    IsSeg (fun i => (h.buddy.frames i).next) (fun i => (h.buddy.frames i).prev) none
      (h.buddy.freeLists k) xs q none ∧ xs.Nodup ∧
    ∀ i, i ∈ xs ↔ i < totalFrame ∧ (h.buddy.frames i).status = (k : Int)
  head : ∀ i k, h.live i = some k →
    (h.buddy.frames i).status = allocatedFrame ∧ (h.buddy.frames i).allocatedOrder = (k : Int)
  tail : ∀ i k, h.Block i k → ∀ f, Mem f i k → f ≠ i →
    (h.buddy.frames f).status = belongedFrame

/-! ## the invariant holds in every history -/

/-- A frame of a block is not reserved. -/
theorem Tiled.not_reserved (hT : Tiled T) (hi : i < totalFrame) (hk : (T i).order? = some k)
    (hf : Mem f i k) : T f ≠ .reserved := fun hr => by
  by_cases hfi : f = i
  · subst hfi
    rw [hr] at hk
    contradiction
  · rw [hT.tail i hi k hk f hf hfi] at hr
    contradiction

/-- A settled frame is reserved or lies in a free or live block. -/
theorem BuddyOk.exists_block (h : BuddyOk s T) (hf : f < totalFrame) :
    T f = .reserved ∨ ∃ i k, i < totalFrame ∧ (T i = .free k ∨ T i = .live k) ∧ Mem f i k := by
  cases ht : T f with
  | reserved => exact Or.inl rfl
  | uninit => exact absurd ht (h.notUninit f hf)
  | held k => exact absurd ht (h.notHeld f hf k)
  | free k => exact Or.inr ⟨f, k, hf, Or.inl ht, mem_self f k⟩
  | live k => exact Or.inr ⟨f, k, hf, Or.inr ht, mem_self f k⟩
  | belonged =>
      obtain ⟨i, k, hi, hk, hm⟩ := h.tiled.owner f hf ht
      refine Or.inr ⟨i, k, hi, ?_, hm⟩
      cases hti : T i with
      | free l => rw [hti] at hk; exact Or.inl (congrArg Tag.free (Option.some.inj hk))
      | live l => rw [hti] at hk; exact Or.inr (congrArg Tag.live (Option.some.inj hk))
      | held l => exact absurd hti (h.notHeld i hi l)
      | reserved | uninit | belonged => rw [hti] at hk; contradiction

theorem BuddyOk.reserved_iff (h : BuddyOk s T) (hi : i < totalFrame) :
    (s.frames i).status = reservedFrame ↔ T i = .reserved := by
  have hok := h.rep.tag i hi
  cases ht : T i with
  | reserved => simp only [ht, TagOk] at hok; simp [hok]
  | held l => exact absurd ht (h.notHeld i hi l)
  | uninit | belonged =>
      simp only [ht, TagOk, uninitFrame, belongedFrame] at hok
      simp [hok, reservedFrame]
  | live l =>
      simp only [ht, TagOk, allocatedFrame] at hok
      simp [hok.1, reservedFrame]
  | free l =>
      simp only [ht, TagOk] at hok
      simp only [hok, reservedFrame, reduceCtorEq]

theorem BuddyHistory.Ok.block_iff (hok : h.Ok reserved T) :
    h.Block i k ↔ i < totalFrame ∧ (T i = .free k ∨ T i = .live k) := by
  unfold Block
  rw [hok.ok.freeBlock_iff, ← hok.live]
  constructor
  · intro hb
    cases hb with
    | inl hb => exact ⟨hb.1, Or.inl hb.2⟩
    | inr hb => exact ⟨hok.lt i k ((hok.live i k).mp hb), Or.inr hb⟩
  · intro hb
    cases hb.2 with
    | inl ht => exact Or.inl ⟨hb.1, ht⟩
    | inr ht => exact Or.inr ht

theorem BuddyHistory.Ok.block_order (hok : h.Ok reserved T) (hb : h.Block i k) :
    i < totalFrame ∧ (T i).order? = some k := by
  obtain ⟨hi, ht⟩ := hok.block_iff.mp hb
  cases ht with
  | inl ht => exact ⟨hi, by rw [ht]; rfl⟩
  | inr ht => exact ⟨hi, by rw [ht]; rfl⟩

/-- An owner other than the reserved memory is a block around the frame. -/
theorem BuddyHistory.Ok.owner_unique (hok : h.Ok reserved T) (hf : f < totalFrame)
    {o o' : Owner} (ho : h.Owns f o) (ho' : h.Owns f o') : o = o' := by
  have hres : ∀ i k, h.Block i k → Mem f i k → (h.buddy.frames f).status ≠ reservedFrame :=
    fun i k hb hm hr => by
      obtain ⟨hi, hord⟩ := hok.block_order hb
      exact hok.ok.tiled.not_reserved hi hord hm ((hok.ok.reserved_iff hf).mp hr)
  have heq : ∀ i k j l, h.Block i k → h.Block j l → Mem f i k → Mem f j l → i = j ∧ k = l :=
    fun i k j l hb hb' hm hm' => by
      obtain ⟨hi, hord⟩ := hok.block_order hb
      obtain ⟨hj, hord'⟩ := hok.block_order hb'
      obtain rfl := hok.ok.tiled.eq_of_mem hi hj hord hord' hm hm'
      exact ⟨rfl, Option.some.inj (hord.symm.trans hord')⟩
  have hkind : ∀ i k, FreeBlock h.buddy i k → h.live i = some k → False := fun i k hfr hl => by
    have ht := (hok.ok.freeBlock_iff.mp hfr).2
    rw [(hok.live i k).mpr hl] at ht
    contradiction
  cases o with
  | reserved =>
      cases o' with
      | reserved => rfl
      | free j l => exact absurd ho (hres j l (Or.inl ho'.1) ho'.2)
      | live j l => exact absurd ho (hres j l (Or.inr ho'.1) ho'.2)
  | free i k =>
      cases o' with
      | reserved => exact absurd ho' (hres i k (Or.inl ho.1) ho.2)
      | free j l =>
          obtain ⟨rfl, rfl⟩ := heq i k j l (Or.inl ho.1) (Or.inl ho'.1) ho.2 ho'.2
          rfl
      | live j l =>
          obtain ⟨rfl, rfl⟩ := heq i k j l (Or.inl ho.1) (Or.inr ho'.1) ho.2 ho'.2
          exact absurd ho'.1 (hkind i k ho.1)
  | live i k =>
      cases o' with
      | reserved => exact absurd ho' (hres i k (Or.inr ho.1) ho.2)
      | free j l =>
          obtain ⟨rfl, rfl⟩ := heq i k j l (Or.inr ho.1) (Or.inl ho'.1) ho.2 ho'.2
          exact absurd ho.1 (hkind i k ho'.1)
      | live j l =>
          obtain ⟨rfl, rfl⟩ := heq i k j l (Or.inr ho.1) (Or.inr ho'.1) ho.2 ho'.2
          rfl

theorem BuddyHistory.Ok.exists_owner (hok : h.Ok reserved T) (hf : f < totalFrame) :
    ∃ o, h.Owns f o := by
  cases hok.ok.exists_block hf with
  | inl hr => exact ⟨.reserved, (hok.ok.reserved_iff hf).mpr hr⟩
  | inr hb =>
      obtain ⟨i, k, hi, ht, hm⟩ := hb
      cases ht with
      | inl ht => exact ⟨.free i k, hok.ok.freeBlock_iff.mpr ⟨hi, ht⟩, hm⟩
      | inr ht => exact ⟨.live i k, (hok.live i k).mp ht, hm⟩

theorem BuddyHistory.Ok.invariant (hok : h.Ok reserved T) : h.Invariant := by
  constructor
  · intro f hf
    obtain ⟨o, ho⟩ := hok.exists_owner hf
    exact ⟨o, ho, fun o' ho' => hok.owner_unique hf ho' ho⟩
  · intro i k hb
    obtain ⟨hi, hord⟩ := hok.block_order hb
    obtain ⟨hdvd, hle, -⟩ := hok.ok.tiled.block i hi k hord
    exact ⟨hdvd, hle⟩
  · intro k hk
    obtain ⟨xs, q, hs, hmem⟩ := hok.ok.rep.lists k hk
    refine ⟨xs, q, hs, hs.nodup, fun i => (hmem i).trans (and_congr_right fun hi => ?_)⟩
    exact (hok.ok.rep.status_eq_iff hi (hok.ok.notHeld i hi)).symm
  · intro i k hl
    have htag := hok.ok.rep.tag i (hok.lt i k hl)
    rwa [(hok.live i k).mpr hl] at htag
  · intro i k hb f hf hfi
    obtain ⟨hi, hord⟩ := hok.block_order hb
    have htag := hok.ok.rep.tag f (hok.ok.tiled.mem_lt hi hord hf)
    rwa [hok.ok.tiled.tail i hi k hord f hf hfi] at htag

/-- **Representation invariant**: after any reservations, `buddy_init` and
any calls, every frame has exactly one owner, blocks are aligned and lie
in memory, and the descriptors and lists represent them.  The reserved
frames are those that the reservations marked. -/
theorem buddyHistory_invariant (s : Buddy) (rs : List (Nat × Nat)) (cs : List BuddyCall) :
    ((BuddyHistory.boot s rs).calls cs).Invariant ∧
      ∀ f < totalFrame,
        (((BuddyHistory.boot s rs).calls cs).buddy.frames f).status = reservedFrame ↔
          ((reserveAll s rs).frames f).status = reservedFrame := by
  obtain ⟨T₀, h₀⟩ := BuddyHistory.boot_ok s rs
  obtain ⟨T, hok⟩ := h₀.calls cs
  exact ⟨hok.invariant, fun f hf => (hok.ok.reserved_iff hf).trans (hok.reserved f)⟩

/-! ## complete coalescing -/

/-- A frame that is neither reserved nor in a live block. -/
def Available (reserved : Nat → Prop) (live : Nat → Option Nat) (f : Nat) : Prop :=
  ¬ reserved f ∧ ∀ i k, live i = some k → ¬ Mem f i k

/-- The free blocks cover the frames that are neither reserved nor in a live
block, and no two are buddies. -/
theorem BuddyOk.isCover (h : BuddyOk s T) :
    IsCover totalFrame (fun f => T f ≠ .reserved ∧ ∀ i k, i < totalFrame → T i = .live k → ¬ Mem f i k)
      (fun i k => i < totalFrame ∧ T i = .free k) := by
  have hord : ∀ i k, T i = .free k → (T i).order? = some k := fun i k ht => by rw [ht]; rfl
  constructor
  · intro i k hb
    have hk := hord i k hb.2
    obtain ⟨hdvd, hle, -⟩ := h.tiled.block i hb.1 k hk
    refine ⟨hdvd, hle, fun f hf => ⟨fun hr => ?_, fun j l hj hl hm => ?_⟩⟩
    · exact h.tiled.not_reserved hb.1 hk hf hr
    · have hjl : (T j).order? = some l := by rw [hl]; rfl
      obtain rfl := h.tiled.eq_of_mem hb.1 hj hk hjl hf hm
      rw [hb.2] at hl
      contradiction
  · intro i k j l f hb hb' hf hf'
    have hk := hord i k hb.2
    have hl := hord j l hb'.2
    obtain rfl := h.tiled.eq_of_mem hb.1 hb'.1 hk hl hf hf'
    exact ⟨rfl, Option.some.inj (hk.symm.trans hl)⟩
  · intro f hf hav
    cases h.exists_block hf with
    | inl hr => exact absurd hr hav.1
    | inr hb =>
        obtain ⟨i, k, hi, ht, hm⟩ := hb
        cases ht with
        | inl ht => exact ⟨i, k, ⟨hi, ht⟩, hm⟩
        | inr ht => exact absurd hm (hav.2 i k hi ht)
  · intro i k hb hb'
    exact h.noBuddies i hb.1 k hb.2 hb'.1 hb'.2

/-- The same for a history, in terms of what it was asked. -/
theorem BuddyHistory.Ok.isCover (hok : h.Ok reserved T) :
    IsCover totalFrame (Available reserved h.live) (FreeBlock h.buddy) := by
  have havail : Available reserved h.live =
      fun f => T f ≠ .reserved ∧ ∀ i k, i < totalFrame → T i = .live k → ¬ Mem f i k := by
    funext f
    unfold Available
    rw [← hok.reserved, eq_iff_iff]
    refine and_congr_right fun _ => forall₂_congr fun i k => ?_
    rw [hok.live]
    exact ⟨fun hm _ hl => hm hl, fun hm hl => hm (hok.lt i k hl) hl⟩
  have hfree : FreeBlock h.buddy = fun i k => i < totalFrame ∧ T i = .free k := by
    funext i k
    exact propext hok.ok.freeBlock_iff
  rw [havail, hfree]
  exact hok.ok.isCover

/-- Freeing every frame leaves nothing live. -/
theorem BuddyHistory.live_calls_free (h : BuddyHistory) (fs : List (Fin totalFrame)) (i : Nat) :
    (h.calls (fs.map .free)).live i = if i ∈ fs.map Fin.val then none else h.live i := by
  induction fs generalizing h with
  | nil => rfl
  | cons b fs ih =>
      have hstep : (h.calls ((b :: fs).map .free)) = (h.call (.free b)).calls (fs.map .free) := rfl
      rw [hstep, ih]
      by_cases hib : i = b
      · subst hib
        simp [call]
      · simp [call, hib]

/-- **Complete coalescing**: in every history the free blocks are the
maximal aligned blocks of available frames; so histories with the same
live blocks have the same free blocks, and freeing every frame, in any
order, restores those that `buddy_init` built. -/
theorem buddyHistory_coalesced (s : Buddy) (rs : List (Nat × Nat)) :
    (∀ cs i k, FreeBlock ((BuddyHistory.boot s rs).calls cs).buddy i k ↔
      IsMaximal totalFrame
        (Available (fun f => ((reserveAll s rs).frames f).status = reservedFrame)
          ((BuddyHistory.boot s rs).calls cs).live) i k) ∧
    (∀ cs cs', ((BuddyHistory.boot s rs).calls cs).live =
        ((BuddyHistory.boot s rs).calls cs').live →
      ∀ i k, FreeBlock ((BuddyHistory.boot s rs).calls cs).buddy i k ↔
        FreeBlock ((BuddyHistory.boot s rs).calls cs').buddy i k) ∧
    (∀ cs (fs : List (Fin totalFrame)),
      (∀ i : Fin totalFrame, ((BuddyHistory.boot s rs).calls cs).live i ≠ none → i ∈ fs) →
      ∀ i k, FreeBlock ((BuddyHistory.boot s rs).calls (cs ++ fs.map .free)).buddy i k ↔
        FreeBlock (BuddyHistory.boot s rs).buddy i k) := by
  obtain ⟨T₀, h₀⟩ := BuddyHistory.boot_ok s rs
  have hmax : ∀ cs i k, FreeBlock ((BuddyHistory.boot s rs).calls cs).buddy i k ↔
      IsMaximal totalFrame
        (Available (fun f => ((reserveAll s rs).frames f).status = reservedFrame)
          ((BuddyHistory.boot s rs).calls cs).live) i k := fun cs i k => by
    obtain ⟨T, hok⟩ := h₀.calls cs
    exact hok.isCover.mem_iff_isMaximal
  have hsame : ∀ cs cs', ((BuddyHistory.boot s rs).calls cs).live =
        ((BuddyHistory.boot s rs).calls cs').live →
      ∀ i k, FreeBlock ((BuddyHistory.boot s rs).calls cs).buddy i k ↔
        FreeBlock ((BuddyHistory.boot s rs).calls cs').buddy i k := fun cs cs' heq i k => by
    rw [hmax, hmax, heq]
  refine ⟨hmax, hsame, fun cs fs hall => hsame _ [] ?_⟩
  funext i
  obtain ⟨T, hok⟩ := h₀.calls cs
  have happ : (BuddyHistory.boot s rs).calls (cs ++ fs.map .free) =
      ((BuddyHistory.boot s rs).calls cs).calls (fs.map .free) := List.foldl_append
  rw [happ, BuddyHistory.live_calls_free]
  by_cases hmem : i ∈ fs.map Fin.val
  · rw [if_pos hmem]
    rfl
  · rw [if_neg hmem]
    cases hl : ((BuddyHistory.boot s rs).calls cs).live i with
    | none => rfl
    | some k =>
        have hi := hok.lt i k hl
        have := hall ⟨i, hi⟩ (by simp [hl])
        exact absurd (List.mem_map_of_mem this) hmem

/-- Freeing all frames one by one after any calls. -/
theorem buddyHistory_coalesced_all (s : Buddy) (i k : Nat) :
    FreeBlock ((BuddyHistory.boot s []).calls
      ([.allocate 0, .allocate 3] ++ (List.finRange totalFrame).map .free)).buddy i k ↔
    FreeBlock (BuddyHistory.boot s []).buddy i k :=
  (buddyHistory_coalesced s []).2.2 _ _ (fun i _ => List.mem_finRange i) i k

end RpiKernel
