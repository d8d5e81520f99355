import RpiKernel.Memory.BuddyInv

/-!
# RpiKernel.Memory.BuddyOps

What `buddy_allocate` and `buddy_free` do to the tag map.  Between two
calls the allocator is settled (`BuddyOk`): every frame is reserved, free
or live, and no two free blocks are buddies.  Inside a call it holds one
block (`Holding`).  Each iteration of a loop is one lemma about `Holding`,
and the loops follow by induction.
-/

namespace RpiKernel

open Dyadic Dlist

variable {s s' : Buddy} {T T' : Nat → Tag} {i j k l b : Nat}

/-! ## settled and holding states -/

/-- The invariant between two calls. -/
structure BuddyOk (s : Buddy) (T : Nat → Tag) : Prop where
  rep : Rep s T
  tiled : Tiled T
  noBuddies : NoBuddies T
  notHeld : ∀ j < totalFrame, ∀ l, T j ≠ .held l
  notUninit : ∀ j < totalFrame, T j ≠ .uninit

/-- The invariant while the block `(i, k)` is off the lists. -/
structure Holding (s : Buddy) (T : Nat → Tag) (i k : Nat) : Prop where
  rep : Rep s T
  tiled : Tiled T
  noBuddies : NoBuddies T
  lt : i < totalFrame
  head : T i = .held k
  only : ∀ j < totalFrame, ∀ l, T j = .held l → j = i
  notUninit : ∀ j < totalFrame, T j ≠ .uninit

/-- Two tag maps with the same reserved frames and the same live blocks. -/
structure SameLive (T T' : Nat → Tag) : Prop where
  reserved : ∀ j, T' j = .reserved ↔ T j = .reserved
  live : ∀ j l, T' j = .live l ↔ T j = .live l

theorem SameLive.refl (T : Nat → Tag) : SameLive T T := ⟨fun _ => Iff.rfl, fun _ _ => Iff.rfl⟩

theorem SameLive.trans {T'' : Nat → Tag} (h : SameLive T T') (h' : SameLive T' T'') :
    SameLive T T'' :=
  ⟨fun j => (h'.reserved j).trans (h.reserved j), fun j l => (h'.live j l).trans (h.live j l)⟩

/-- Retagging a frame that is neither reserved nor live, without making it so. -/
theorem SameLive.update {t : Tag} (hr : T i ≠ .reserved) (hl : ∀ l, T i ≠ .live l)
    (hr' : t ≠ .reserved) (hl' : ∀ l, t ≠ .live l) : SameLive T (Function.update T i t) := by
  constructor
  · intro j
    by_cases h : j = i
    · subst h; simp [hr, hr']
    · simp [h]
  · intro j l
    by_cases h : j = i
    · subst h; simp [hl l, hl' l]
    · simp [h]

/-- The slab fields of the descriptors are not touched. -/
def SameSlab (s s' : Buddy) : Prop :=
  ∀ j, (s'.frames j).slabPtr = (s.frames j).slabPtr ∧
    (s'.frames j).isSlabPage = (s.frames j).isSlabPage

theorem SameSlab.refl (s : Buddy) : SameSlab s s := fun _ => ⟨rfl, rfl⟩

theorem SameSlab.trans {s'' : Buddy} (h : SameSlab s s') (h' : SameSlab s' s'') :
    SameSlab s s'' := fun j =>
  ⟨(h' j).1.trans (h j).1, (h' j).2.trans (h j).2⟩

theorem sameSlab_modify {g : BuddyT → BuddyT}
    (hg : ∀ d, (g d).slabPtr = d.slabPtr ∧ (g d).isSlabPage = d.isSlabPage) :
    SameSlab s (s.modify i g) := fun j => by
  by_cases h : j = i <;> simp [h, hg]

theorem sameSlab_modify? {p : Option Nat} {g : BuddyT → BuddyT}
    (hg : ∀ d, (g d).slabPtr = d.slabPtr ∧ (g d).isSlabPage = d.isSlabPage) :
    SameSlab s (s.modify? p g) := fun j => by
  by_cases h : p = some j <;> simp [h, hg]

theorem sameSlab_pushFree (i k : Nat) (s : Buddy) : SameSlab s (pushFree i k s) := fun j => by
  simp only [pushFree, Buddy.frames_setList, Buddy.frames_modify?, Buddy.frames_modify]
  split_ifs <;> simp

theorem sameSlab_setList (k : Nat) (h : Option Nat) (s : Buddy) : SameSlab s (s.setList k h) :=
  fun _ => ⟨rfl, rfl⟩

theorem sameSlab_unlinkFree (b k : Nat) (s : Buddy) : SameSlab s (unlinkFree b k s) := by
  unfold unlinkFree
  dsimp only
  split_ifs
  · exact (sameSlab_setList _ _ s).trans (sameSlab_modify? (by simp))
  · exact (sameSlab_modify? (by simp)).trans (sameSlab_modify? (by simp))
  · exact SameSlab.refl s

/-! ## taking, giving and returning a block -/

/-- Memory is smaller than a block of order 18. -/
theorem Tiled.order_lt (hT : Tiled T) (hi : i < totalFrame) (hk : (T i).order? = some k) :
    k < 18 := by
  have hle := (hT.block i hi k hk).2.1
  by_contra hge
  have hpow : 2 ^ 18 ≤ 2 ^ k := Nat.pow_le_pow_right (by decide) (by omega)
  have : (2 : Nat) ^ 18 = 262144 := by decide
  have : totalFrame = 245760 := rfl
  omega

/-- Retagging a frame as anything but free makes no new buddies. -/
theorem NoBuddies.update {t : Tag} (h : NoBuddies T) (ht : ∀ k, t ≠ .free k) :
    NoBuddies (Function.update T i t) := by
  have hsub : ∀ j k, Function.update T i t j = .free k → T j = .free k := fun j k hj => by
    by_cases hji : j = i
    · subst hji
      rw [Function.update_self] at hj
      exact absurd hj (ht k)
    · rwa [Function.update_of_ne hji] at hj
  intro j hj k hk hb hbk
  exact h j hj k (hsub j k hk) hb (hsub _ k hbk)

theorem update_ne {t u : Tag} (h : ∀ j < totalFrame, T j ≠ u) (ht : t ≠ u) :
    ∀ j < totalFrame, Function.update T i t j ≠ u := fun j hj => by
  by_cases hji : j = i
  · subst hji; rwa [Function.update_self]
  · rw [Function.update_of_ne hji]; exact h j hj

/-- After the only held head is retagged, nothing is held. -/
theorem Holding.notHeld_update {t : Tag} (h : Holding s T i k) (ht : ∀ l, t ≠ .held l) :
    ∀ j < totalFrame, ∀ l, Function.update T i t j ≠ .held l := fun j hj l => by
  by_cases hji : j = i
  · subst hji
    rw [Function.update_self]
    exact ht l
  · rw [Function.update_of_ne hji]
    exact fun hl => hji (h.only j hj l hl)

theorem BuddyOk.only_update {t : Tag} (h : BuddyOk s T) :
    ∀ j < totalFrame, ∀ l, Function.update T i t j = .held l → j = i := fun j hj l hl => by
  by_contra hji
  rw [Function.update_of_ne hji] at hl
  exact h.notHeld j hj l hl

theorem BuddyOk.take (h : BuddyOk s T) (hb : b < totalFrame) (hT : T b = .free k) :
    Holding (unlinkFree b k s) (Function.update T b (.held k)) b k := by
  have hord : (T b).order? = some k := by rw [hT]; rfl
  constructor
  · exact h.rep.unlinkFree hb (h.tiled.block b hb k hord).2.2 hT
  · exact h.tiled.retag hord rfl
  · exact h.noBuddies.update (by simp)
  · exact hb
  · exact Function.update_self ..
  · exact h.only_update
  · exact update_ne h.notUninit (by simp)

/-- Handing the held block out. -/
theorem Holding.give {g : BuddyT → BuddyT} (h : Holding s T i k)
    (hidx : (g (s.frames i)).index = (s.frames i).index)
    (hst : (g (s.frames i)).status = allocatedFrame)
    (hord : (g (s.frames i)).allocatedOrder = (k : Int)) :
    BuddyOk (s.modify i g) (Function.update T i (.live k)) := by
  have hk : (T i).order? = some k := by rw [h.head]; rfl
  constructor
  · exact h.rep.modify (by simp [h.head]) (by simp) hidx ⟨hst, hord⟩
  · exact h.tiled.retag hk rfl
  · exact h.noBuddies.update (by simp)
  · exact h.notHeld_update (by simp)
  · exact update_ne h.notUninit (by simp)

/-- Taking a live block back. -/
theorem BuddyOk.release {g : BuddyT → BuddyT} (h : BuddyOk s T) (hi : i < totalFrame)
    (hT : T i = .live k) (hidx : (g (s.frames i)).index = (s.frames i).index) :
    Holding (s.modify i g) (Function.update T i (.held k)) i k := by
  have hk : (T i).order? = some k := by rw [hT]; rfl
  constructor
  · exact h.rep.modify (by simp [hT]) (by simp) hidx trivial
  · exact h.tiled.retag hk rfl
  · exact h.noBuddies.update (by simp)
  · exact hi
  · exact Function.update_self ..
  · exact h.only_update
  · exact update_ne h.notUninit (by simp)

/-- A new free block makes no buddies if its own is not free. -/
theorem NoBuddies.update_free (h : NoBuddies T)
    (hb : buddy i k < totalFrame → T (buddy i k) ≠ .free k) :
    NoBuddies (Function.update T i (.free k)) := by
  intro j hj l hjl hbl hbj
  by_cases hji : j = i
  · subst hji
    rw [Function.update_self] at hjl
    obtain rfl := Tag.free.inj hjl
    rw [Function.update_of_ne (buddy_ne j k)] at hbj
    exact hb hbl hbj
  · rw [Function.update_of_ne hji] at hjl
    by_cases hbi : buddy j l = i
    · rw [hbi, Function.update_self] at hbj
      obtain rfl := Tag.free.inj hbj
      have hjb : j = buddy i k := by rw [← hbi, buddy_buddy]
      rw [hjb] at hjl hj
      exact hb hj hjl
    · rw [Function.update_of_ne hbi] at hbj
      exact h j hj l hjl hbl hbj

/-- Putting the held block on its list, once its buddy is not free. -/
theorem Holding.put (h : Holding s T i k)
    (hb : buddy i k < totalFrame → T (buddy i k) ≠ .free k) :
    BuddyOk (pushFree i k s) (Function.update T i (.free k)) := by
  have hk : (T i).order? = some k := by rw [h.head]; rfl
  constructor
  · exact h.rep.pushFree h.lt (h.tiled.block i h.lt k hk).2.2 (by simp [h.head])
  · exact h.tiled.retag hk rfl
  · exact h.noBuddies.update_free hb
  · exact h.notHeld_update (by simp)
  · exact update_ne h.notUninit (by simp)

/-! ## splitting -/

/-- The frame that leads the upper half belongs to the block. -/
theorem Holding.upper_belonged (h : Holding s T i (k + 1)) : T (i + 2 ^ k) = .belonged := by
  have hord : (T i).order? = some (k + 1) := by rw [h.head]; rfl
  have hpos := Nat.two_pow_pos k
  have hpow : 2 ^ (k + 1) = 2 ^ k + 2 ^ k := by ring
  exact h.tiled.tail i h.lt _ hord _ ⟨by omega, by omega⟩ (by omega)

/-- One iteration of the split loop: the upper half of the held block goes
to its list. -/
theorem Holding.split (h : Holding s T i (k + 1)) :
    Holding (pushFree (buddy i k) k s)
      (Function.update (Function.update T i (.held k)) (i + 2 ^ k) (.free k)) i k := by
  have hord : (T i).order? = some (k + 1) := by rw [h.head]; rfl
  obtain ⟨hdvd, hle, hmax⟩ := h.tiled.block i h.lt (k + 1) hord
  have hpos := Nat.two_pow_pos k
  have hpow : 2 ^ (k + 1) = 2 ^ k + 2 ^ k := by ring
  have hne : i + 2 ^ k ≠ i := by omega
  have hbel := h.upper_belonged
  rw [buddy_of_dvd hdvd]
  constructor
  · have hrep := h.rep.retag_held (l := k) h.head
    exact hrep.pushFree (by omega) (by omega) (by simp [hbel])
  · exact h.tiled.split h.lt hord rfl rfl
  · have hnb : NoBuddies (Function.update T i (.held k)) := h.noBuddies.update (by simp)
    have hbb : buddy (i + 2 ^ k) k = i := by rw [← buddy_of_dvd hdvd, buddy_buddy]
    exact hnb.update_free (by simp [hbb])
  · exact h.lt
  · rw [Function.update_of_ne hne.symm, Function.update_self]
  · intro j hj l hl
    by_contra hji
    by_cases hj2 : j = i + 2 ^ k
    · subst hj2; simp at hl
    · rw [Function.update_of_ne hj2, Function.update_of_ne hji] at hl
      exact hji (h.only j hj l hl)
  · exact update_ne (update_ne h.notUninit (by simp)) (by simp)

theorem Holding.sameLive_split (h : Holding s T i (k + 1)) :
    SameLive T (Function.update (Function.update T i (.held k)) (i + 2 ^ k) (.free k)) := by
  have hbel := h.upper_belonged
  have h1 : SameLive T (Function.update T i (.held k)) :=
    SameLive.update (by simp [h.head]) (by simp [h.head]) (by simp) (by simp)
  exact h1.trans (SameLive.update (by simp [hbel]) (by simp [hbel]) (by simp) (by simp))

/-- The split loop ends with the held block cut down to `order`. -/
theorem Holding.splitLoop {order cur : Nat} (h : Holding s T i cur) (hle : order ≤ cur) :
    ∃ T', Holding (splitLoop order i cur s) T' i order ∧ SameLive T T' := by
  induction cur generalizing s T with
  | zero =>
      obtain rfl : order = 0 := by omega
      exact ⟨T, h, SameLive.refl T⟩
  | succ cur ih =>
      unfold RpiKernel.splitLoop
      by_cases hc : order ≤ cur
      · rw [if_pos hc]
        obtain ⟨T', hT', hsame⟩ := ih h.split hc
        exact ⟨T', hT', h.sameLive_split.trans hsame⟩
      · rw [if_neg hc]
        obtain rfl : order = cur + 1 := by omega
        exact ⟨T, h, SameLive.refl T⟩

theorem sameSlab_splitLoop (order i cur : Nat) (s : Buddy) :
    SameSlab s (splitLoop order i cur s) := by
  induction cur generalizing s with
  | zero => exact SameSlab.refl s
  | succ cur ih =>
      unfold splitLoop
      split_ifs
      · exact (sameSlab_pushFree _ _ _).trans (ih _)
      · exact SameSlab.refl s

/-! ## merging -/

/-- Two held halves become one held block. -/
theorem Holding.absorb {lo : Nat} (hrep : Rep s T) (hT : Tiled T) (hnb : NoBuddies T)
    (hlo : lo < totalFrame) (hhi : lo + 2 ^ k < totalFrame) (hdvd : 2 ^ (k + 1) ∣ lo)
    (hk : T lo = .held k) (hk' : T (lo + 2 ^ k) = .held k)
    (honly : ∀ j < totalFrame, ∀ l, T j = .held l → j = lo ∨ j = lo + 2 ^ k)
    (hun : ∀ j < totalFrame, T j ≠ .uninit) :
    Holding (clearUpper (lo + 2 ^ k) s)
      (Function.update (Function.update T (lo + 2 ^ k) .belonged) lo (.held (k + 1)))
      lo (k + 1) := by
  have hpos := Nat.two_pow_pos k
  have hne : lo ≠ lo + 2 ^ k := by omega
  have hord : (T lo).order? = some k := by rw [hk]; rfl
  have hlt := hT.order_lt hlo hord
  constructor
  · have hclr := hrep.clearUpper hk'
    refine hclr.retag_held (k := k) ?_
    rw [Function.update_of_ne hne, hk]
  · exact hT.merge hlo hhi hdvd hord (by rw [hk']; rfl) (by unfold maxOrder; omega) rfl
  · exact (hnb.update (by simp)).update (by simp)
  · exact hlo
  · exact Function.update_self ..
  · intro j hj l hl
    by_contra hji
    rw [Function.update_of_ne hji] at hl
    by_cases hj2 : j = lo + 2 ^ k
    · subst hj2; simp at hl
    · rw [Function.update_of_ne hj2] at hl
      cases honly j hj l hl with
      | inl h => exact hji h
      | inr h => exact hj2 h
  · exact update_ne (update_ne hun (by simp)) (by simp)

/-- The block a merge step goes on with, and the state it leaves. -/
theorem Holding.merge (h : Holding s T i k) (hb : buddy i k < totalFrame)
    (hT : T (buddy i k) = .free k) :
    ∃ T', SameLive T T' ∧
      (buddy i k < i →
        Holding (clearUpper i (unlinkFree (buddy i k) k s)) T' (buddy i k) (k + 1)) ∧
      (¬ buddy i k < i →
        Holding (clearUpper (buddy i k) (unlinkFree (buddy i k) k s)) T' i (k + 1)) := by
  have hne := buddy_ne i k
  have hordb : (T (buddy i k)).order? = some k := by rw [hT]; rfl
  have hordi : (T i).order? = some k := by rw [h.head]; rfl
  have hdvd := (h.tiled.block i h.lt k hordi).1
  have hmax := (h.tiled.block _ hb k hordb).2.2
  have hpos := Nat.two_pow_pos k
  -- both halves are off the lists
  have hrep := h.rep.unlinkFree hb hmax hT
  have htiled : Tiled (Function.update T (buddy i k) (.held k)) := h.tiled.retag hordb rfl
  have hnb : NoBuddies (Function.update T (buddy i k) (.held k)) := h.noBuddies.update (by simp)
  have hi' : Function.update T (buddy i k) (.held k) i = .held k := by
    rw [Function.update_of_ne hne.symm, h.head]
  have hb' : Function.update T (buddy i k) (.held k) (buddy i k) = .held k :=
    Function.update_self ..
  have honly : ∀ j < totalFrame, ∀ l, Function.update T (buddy i k) (.held k) j = .held l →
      j = i ∨ j = buddy i k := fun j hj l hl => by
    by_cases hjb : j = buddy i k
    · exact Or.inr hjb
    · rw [Function.update_of_ne hjb] at hl
      exact Or.inl (h.only j hj l hl)
  have hun := update_ne (i := buddy i k) (t := .held k) h.notUninit (by simp)
  have hs1 : SameLive T (Function.update T (buddy i k) (.held k)) :=
    SameLive.update (by simp [hT]) (by simp [hT]) (by simp) (by simp)
  have hs2 : ∀ x y, Function.update T (buddy i k) (.held k) x = .held k →
      Function.update T (buddy i k) (.held k) y = .held k → y ≠ x →
      SameLive T (Function.update (Function.update (Function.update T (buddy i k) (.held k))
        x .belonged) y (.held (k + 1))) := fun x y hx hy hyx => by
    refine (hs1.trans (SameLive.update (by simp [hx]) (by simp [hx]) (by simp) (by simp))).trans
      (SameLive.update ?_ ?_ (by simp) (by simp)) <;> simp [Function.update_of_ne hyx, hy]
  cases buddy_cases hdvd with
  | inl hlow =>
      obtain ⟨hd, he⟩ := hlow
      refine ⟨_, hs2 (buddy i k) i hb' hi' hne.symm, fun hlt => by omega, fun _ => ?_⟩
      rw [he] at hrep htiled hnb hi' hb' honly hun hb ⊢
      exact Holding.absorb hrep htiled hnb h.lt hb hd hi' hb' honly hun
  | inr hupp =>
      obtain ⟨hd, he⟩ := hupp
      refine ⟨_, hs2 i (buddy i k) hi' hb' hne, fun _ => ?_, fun hlt => by omega⟩
      have hlt : buddy i k + 2 ^ k < totalFrame := he ▸ h.lt
      have hhi : Function.update T (buddy i k) (.held k) (buddy i k + 2 ^ k) = .held k := by
        rw [← he]; exact hi'
      have honly' : ∀ j < totalFrame, ∀ l,
          Function.update T (buddy i k) (.held k) j = .held l →
          j = buddy i k ∨ j = buddy i k + 2 ^ k := fun j hj l hl => by
        rw [← he]; exact (honly j hj l hl).symm
      have habs := Holding.absorb hrep htiled hnb hb hlt hd hb' hhi honly' hun
      rwa [← he] at habs

/-- The merge loop ends with a held block whose buddy is not free. -/
theorem Holding.mergeLoop (h : Holding s T i k) {n : Nat} (hn : maxOrder ≤ k + n) :
    ∃ T', SameLive T T' ∧
      Holding (mergeLoop n k i s).2.2 T' (mergeLoop n k i s).2.1 (mergeLoop n k i s).1 ∧
      (buddy (mergeLoop n k i s).2.1 (mergeLoop n k i s).1 < totalFrame →
        T' (buddy (mergeLoop n k i s).2.1 (mergeLoop n k i s).1) ≠
          .free (mergeLoop n k i s).1) := by
  induction n generalizing k i s T with
  | zero =>
      have := h.tiled.order_lt h.lt (k := k) (by rw [h.head]; rfl)
      unfold maxOrder at hn
      omega
  | succ n ih =>
      have hheld : buddy i k < totalFrame → ∀ l, T (buddy i k) ≠ .held l := fun hb l hl =>
        buddy_ne i k (h.only _ hb l hl)
      unfold RpiKernel.mergeLoop
      by_cases hc : k < maxOrder ∧ buddy i k < totalFrame ∧
          (s.frames (buddy i k)).status = (k : Int)
      · have hT := (h.rep.status_eq_iff hc.2.1 (hheld hc.2.1)).mp hc.2.2
        obtain ⟨T₁, hsame, hlow, hupp⟩ := h.merge hc.2.1 hT
        rw [if_pos hc]
        dsimp only
        by_cases hlt : buddy i k < i
        · rw [if_pos hlt]
          obtain ⟨T₂, hsame', hrest⟩ := ih (hlow hlt) (by omega)
          exact ⟨T₂, hsame.trans hsame', hrest⟩
        · rw [if_neg hlt]
          obtain ⟨T₂, hsame', hrest⟩ := ih (hupp hlt) (by omega)
          exact ⟨T₂, hsame.trans hsame', hrest⟩
      · rw [if_neg hc]
        refine ⟨T, SameLive.refl T, h, fun hb hT => hc ?_⟩
        have := h.tiled.order_lt h.lt (k := k) (by rw [h.head]; rfl)
        exact ⟨by unfold maxOrder; omega, hb, (h.rep.status_eq_iff hb (hheld hb)).mpr hT⟩

theorem sameSlab_mergeLoop (n k i : Nat) (s : Buddy) :
    SameSlab s (mergeLoop n k i s).2.2 := by
  induction n generalizing k i s with
  | zero => exact SameSlab.refl s
  | succ n ih =>
      unfold mergeLoop
      dsimp only
      split_ifs
      · exact ((sameSlab_unlinkFree _ _ s).trans (sameSlab_modify (by simp))).trans (ih _ _ _)
      · exact ((sameSlab_unlinkFree _ _ s).trans (sameSlab_modify (by simp))).trans (ih _ _ _)
      · exact SameSlab.refl s

/-! ## the two operations -/

/-- The live blocks after an allocation. -/
structure Gains (T T' : Nat → Tag) (b k : Nat) : Prop where
  reserved : ∀ j, T' j = .reserved ↔ T j = .reserved
  live : ∀ j l, T' j = .live l ↔ T j = .live l ∨ (j = b ∧ l = k)
  fresh : ∀ l, T b ≠ .live l

/-- The live blocks after a release. -/
structure Loses (T T' : Nat → Tag) (b : Nat) : Prop where
  reserved : ∀ j, T' j = .reserved ↔ T j = .reserved
  live : ∀ j l, T' j = .live l ↔ T j = .live l ∧ j ≠ b

theorem firstOrder_some {n m : Nat} (h : firstOrder s n i = some m) :
    i ≤ m ∧ m < i + n ∧ ∃ b, s.freeLists m = some b := by
  induction n generalizing i with
  | zero => simp [firstOrder] at h
  | succ n ih =>
      unfold firstOrder at h
      by_cases hs : (s.freeLists i).isSome
      · rw [if_pos hs] at h
        obtain rfl := Option.some.inj h
        exact ⟨le_rfl, by omega, Option.isSome_iff_exists.mp hs⟩
      · rw [if_neg hs] at h
        obtain ⟨h1, h2, h3⟩ := ih h
        exact ⟨by omega, by omega, h3⟩

theorem firstOrder_none {n m : Nat} (h : firstOrder s n i = none) (hi : i ≤ m) (hm : m < i + n) :
    s.freeLists m = none := by
  induction n generalizing i with
  | zero => omega
  | succ n ih =>
      unfold firstOrder at h
      by_cases hs : (s.freeLists i).isSome
      · rw [if_pos hs] at h; contradiction
      · rw [if_neg hs] at h
        by_cases him : m = i
        · subst him; simpa using hs
        · exact ih h (by omega) (by omega)

/-- Cutting a free block down to `k` and handing it out. -/
theorem BuddyOk.allocateAt (h : BuddyOk s T) {m : Nat} (hkm : k ≤ m) (hm : m ≤ maxOrder)
    (hb : s.freeLists m = some b) :
    (allocateAt k m s).1 = some b ∧ T b = .free m ∧
      ∃ T', BuddyOk (allocateAt k m s).2 T' ∧ Gains T T' b k := by
  obtain ⟨hlt, hT⟩ := h.rep.head_free hm hb
  have htake := h.take hlt hT
  obtain ⟨T', hheld, hsame⟩ := htake.splitLoop hkm
  have hsame' : SameLive T T' :=
    (SameLive.update (by simp [hT]) (by simp [hT]) (by simp) (by simp)).trans hsame
  have hun : unlinkFree b m s =
      (s.setList m (s.frames b).next).modify? (s.frames b).next
        fun f => { f with prev := none } := by
    unfold unlinkFree
    rw [if_pos hb]
  rw [hun] at hheld
  have hidx : (s.frames b).index = b := h.rep.index b hlt
  unfold RpiKernel.allocateAt
  rw [hb]
  dsimp only
  rw [hidx]
  refine ⟨rfl, hT, _, hheld.give rfl rfl rfl, ?_⟩
  constructor
  · intro j
    rw [← hsame'.reserved]
    by_cases hj : j = b
    · subst hj; simp [hheld.head]
    · simp [hj]
  · intro j l
    rw [← hsame'.live]
    by_cases hj : j = b
    · subst hj; simp [hheld.head, eq_comm]
    · simp [hj]
  · simp [hT]

/-- `buddy_allocate` fails without a change when no free block is large
enough, and otherwise hands out the start of a free block. -/
theorem BuddyOk.buddyAllocate (h : BuddyOk s T) (k : Nat) :
    (buddyAllocate k s = (none, s) ∧ ∀ i < totalFrame, ∀ m, k ≤ m → T i ≠ .free m) ∨
      ∃ b m T', (buddyAllocate k s).1 = some b ∧ b < totalFrame ∧ k ≤ m ∧ T b = .free m ∧
        BuddyOk (buddyAllocate k s).2 T' ∧ Gains T T' b k := by
  have hord : ∀ i < totalFrame, ∀ m, T i = .free m → m ≤ maxOrder := fun i hi m hm =>
    (h.tiled.block i hi m (by rw [hm]; rfl)).2.2
  unfold RpiKernel.buddyAllocate
  by_cases hk : k > maxOrder
  · rw [if_pos hk]
    refine Or.inl ⟨rfl, fun i hi m hkm hm => ?_⟩
    have := hord i hi m hm
    omega
  · rw [if_neg hk]
    cases hf : firstOrder s (maxOrder + 1 - k) k with
    | none =>
        refine Or.inl ⟨rfl, fun i hi m hkm hm => ?_⟩
        have hmm := hord i hi m hm
        exact (h.rep.list_none_iff hmm).mp (firstOrder_none hf hkm (by omega)) i hi hm
    | some m =>
        obtain ⟨hkm, hmlt, b, hb⟩ := firstOrder_some hf
        obtain ⟨hres, hT, T', hok, hg⟩ := h.allocateAt hkm (by omega) hb
        exact Or.inr ⟨b, m, T', hres, (h.rep.head_free (by omega) hb).1, hkm, hT, hok, hg⟩

theorem sameSlab_buddyAllocate (k : Nat) (s : Buddy) : SameSlab s (buddyAllocate k s).2 := by
  unfold buddyAllocate
  split_ifs
  · exact SameSlab.refl s
  · cases firstOrder s (maxOrder + 1 - k) k with
    | none => exact SameSlab.refl s
    | some m =>
        dsimp only
        unfold allocateAt
        cases s.freeLists m with
        | none => exact SameSlab.refl s
        | some b =>
            dsimp only
            refine SameSlab.trans ?_ (sameSlab_modify (by simp))
            refine SameSlab.trans ?_ (sameSlab_splitLoop _ _ _ _)
            exact (sameSlab_setList _ _ s).trans (sameSlab_modify? (by simp))

/-- `buddy_free` of a frame that is not the head of a live block. -/
theorem BuddyOk.buddyFree_not_live (h : BuddyOk s T) (hi : i < totalFrame)
    (hT : ∀ k, T i ≠ .live k) : buddyFree i s = s := by
  unfold buddyFree
  rw [if_pos]
  intro hst
  obtain ⟨k, hk⟩ := (h.rep.allocated_iff hi (h.notHeld i hi)).mp hst
  exact hT k hk

/-- `buddy_free` of a live block. -/
theorem BuddyOk.buddyFree_live (h : BuddyOk s T) (hi : i < totalFrame) (hT : T i = .live k) :
    ∃ T', BuddyOk (buddyFree i s) T' ∧ Loses T T' i := by
  have hok := h.rep.tag i hi
  rw [hT] at hok
  obtain ⟨hst, hord⟩ := hok
  unfold buddyFree
  rw [if_neg (by simp [hst])]
  have htn : (s.frames i).allocatedOrder.toNat = k := by rw [hord]; simp
  rw [htn]
  dsimp only
  have hrel := h.release (g := fun f => { f with status := (k : Int) }) hi hT rfl
  obtain ⟨T', hsame, hheld, hbud⟩ := hrel.mergeLoop (n := maxOrder - k) (by omega)
  refine ⟨_, hheld.put hbud, ?_⟩
  -- the merged block is free now; the others are what they were
  have hput : SameLive T' (Function.update T'
      (mergeLoop (maxOrder - k) k i (s.modify i fun f => { f with status := (k : Int) })).2.1
      (.free (mergeLoop (maxOrder - k) k i
        (s.modify i fun f => { f with status := (k : Int) })).1)) :=
    SameLive.update (by simp [hheld.head]) (by simp [hheld.head]) (by simp) (by simp)
  have hall := hsame.trans hput
  constructor
  · intro j
    refine (hall.reserved j).trans ?_
    by_cases hj : j = i
    · subst hj; simp [hT]
    · simp [hj]
  · intro j l
    refine (hall.live j l).trans ?_
    by_cases hj : j = i
    · subst hj; simp
    · simp [hj]

theorem sameSlab_buddyFree (i : Nat) (s : Buddy) : SameSlab s (buddyFree i s) := by
  unfold buddyFree
  split_ifs
  · exact SameSlab.refl s
  · exact ((sameSlab_modify (by simp)).trans (sameSlab_mergeLoop _ _ _ _)).trans
      (sameSlab_pushFree _ _ _)

end RpiKernel
