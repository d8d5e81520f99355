import RpiKernel.Memory.BuddyOps

/-!
# RpiKernel.Memory.BuddyInit

What `buddy_init` builds.  The scan of one order turns every aligned run
of uninitialised frames into a block (`Scanning`); between two scans no
such run of the order just scanned is left (`Partly`), so no two blocks of
the next order can be buddies, and after order 0 no frame is left over.
-/

namespace RpiKernel

open Dyadic Dlist

variable {s : Buddy} {T U : Nat → Tag} {i j k n f b x y : Nat}

/-! ## addresses of frames -/

/-- The size of the managed memory in bytes. -/
def memorySize : Nat := totalFrame * frameSize

theorem toInt32_of_lt (h : n < 2 ^ 31) : toInt32 n = n := by
  unfold toInt32
  rw [Int.bmod_eq_of_le] <;> omega

theorem index2address_of_lt (hb : b < totalFrame) :
    index2address b = buddyMemoryBase + b * frameSize := by
  unfold index2address buddyMemoryBase frameSize
  unfold totalFrame at hb
  omega

/-- The frame of an address in the managed memory. -/
theorem frame_of_address (hx : x < memorySize) :
    toInt32 (address2index (buddyMemoryBase + x)) = ((x / frameSize : Nat) : Int) := by
  unfold memorySize totalFrame frameSize at hx
  have haddr : address2index (buddyMemoryBase + x) = x / frameSize := by
    unfold address2index buddyMemoryBase frameSize
    omega
  rw [haddr]
  apply toInt32_of_lt
  unfold frameSize
  omega

theorem frame_index2address (hb : b < totalFrame) :
    toInt32 (address2index (index2address b)) = b := by
  have hx : b * frameSize < memorySize := by
    unfold memorySize frameSize
    omega
  rw [index2address_of_lt hb, frame_of_address hx]
  unfold frameSize
  omega

/-! ## reservations -/

theorem reserveLoop_status (n : Nat) (i : Int) (s : Buddy) (j : Nat) :
    ((reserveLoop n i s).frames j).status =
      if i ≤ j ∧ (j : Int) < i + n ∧ j < totalFrame then reservedFrame
      else (s.frames j).status := by
  induction n generalizing i s with
  | zero =>
      rw [if_neg (by omega)]
      rfl
  | succ n ih =>
      unfold reserveLoop
      dsimp only
      rw [ih]
      by_cases hrest : i + 1 ≤ j ∧ (j : Int) < i + 1 + n ∧ j < totalFrame
      · rw [if_pos hrest, if_pos (by omega)]
      rw [if_neg hrest]
      by_cases hrange : 0 ≤ i ∧ i < totalFrame
      · rw [if_pos hrange, Buddy.frames_modify]
        by_cases hj : j = i.toNat
        · rw [if_pos hj, if_pos (by omega)]
        · rw [if_neg hj, if_neg (by omega)]
      · rw [if_neg hrange, if_neg (by omega)]

theorem memoryReserve_eq {p q : Nat} (hb : toInt32 (address2index p) = (i : Int))
    (he : toInt32 (address2index ((q + frameSize - 1) % 2 ^ 64)) = (j : Int)) (s : Buddy) :
    memoryReserve p q s = reserveLoop ((j : Int) - i).toNat i s := by
  rw [← hb, ← he]
  rfl

/-- `memory_reserve` of a range of the managed memory marks the frames that
the range touches. -/
theorem memoryReserve_status (hx : x ≤ memorySize) (hy : y ≤ memorySize) (s : Buddy) (j : Nat) :
    ((memoryReserve (buddyMemoryBase + x) (buddyMemoryBase + y) s).frames j).status =
      if x / frameSize ≤ j ∧ j < (y + (frameSize - 1)) / frameSize then reservedFrame
      else (s.frames j).status := by
  unfold memorySize totalFrame frameSize at hx hy
  have hb : address2index (buddyMemoryBase + x) = x / frameSize := by
    unfold address2index buddyMemoryBase frameSize
    omega
  have he : address2index ((buddyMemoryBase + y + frameSize - 1) % 2 ^ 64) =
      (y + (frameSize - 1)) / frameSize := by
    unfold address2index buddyMemoryBase frameSize
    omega
  have hb' : x / frameSize < 2 ^ 31 := by unfold frameSize; omega
  have he' : (y + (frameSize - 1)) / frameSize < 2 ^ 31 := by unfold frameSize; omega
  have hend : (y + (frameSize - 1)) / frameSize ≤ totalFrame := by
    unfold frameSize totalFrame
    omega
  rw [memoryReserve_eq ((congrArg toInt32 hb).trans (toInt32_of_lt hb'))
    ((congrArg toInt32 he).trans (toInt32_of_lt he')), reserveLoop_status]
  clear hb he hb' he'
  generalize x / frameSize = first at *
  generalize (y + (frameSize - 1)) / frameSize = last at *
  by_cases hin : first ≤ j ∧ j < last
  · rw [if_pos hin, if_pos (by omega)]
  · rw [if_neg hin, if_neg (by omega)]

/-! ## carving one block -/

/-- The tags after a block of order `k` is made at `i`. -/
def carve (T : Nat → Tag) (i k : Nat) (f : Nat) : Tag :=
  if f = i then .free k else if Mem f i k then .belonged else T f

theorem carve_self (T : Nat → Tag) (i k : Nat) : carve T i k i = .free k := if_pos rfl

theorem carve_mem (hf : Mem f i k) (hfi : f ≠ i) : carve T i k f = .belonged := by
  unfold carve
  rw [if_neg hfi, if_pos hf]

theorem carve_not_mem (hf : ¬ Mem f i k) : carve T i k f = T f := by
  unfold carve
  have hfi : f ≠ i := by
    rintro rfl
    exact hf (mem_self f k)
  rw [if_neg hfi, if_neg hf]

/-- Making a block of uninitialised frames keeps the tiling. -/
theorem Tiled.carve (hT : Tiled T) (hdvd : 2 ^ k ∣ i) (hle : i + 2 ^ k ≤ totalFrame)
    (hmax : k ≤ maxOrder) (hun : ∀ f, Mem f i k → T f = .uninit) : Tiled (carve T i k) := by
  have hpos := Nat.two_pow_pos k
  have hhead : ∀ j l, (RpiKernel.carve T i k j).order? = some l →
      (j = i ∧ l = k) ∨ (¬ Mem j i k ∧ (T j).order? = some l) := fun j l hl => by
    by_cases hji : j = i
    · subst hji
      rw [carve_self] at hl
      exact Or.inl ⟨rfl, (Option.some.inj hl).symm⟩
    · by_cases hm : Mem j i k
      · rw [carve_mem hm hji] at hl; contradiction
      · rw [carve_not_mem hm] at hl; exact Or.inr ⟨hm, hl⟩
  constructor
  · intro j hj l hl
    cases hhead j l hl with
    | inl h => obtain ⟨rfl, rfl⟩ := h; exact ⟨hdvd, hle, hmax⟩
    | inr h => exact hT.block j hj l h.2
  · intro j hj l hl f hf hfj
    cases hhead j l hl with
    | inl h => obtain ⟨rfl, rfl⟩ := h; exact carve_mem hf hfj
    | inr h =>
        have hb := hT.tail j hj l h.2 f hf hfj
        rw [carve_not_mem, hb]
        intro hm
        rw [hun f hm] at hb
        contradiction
  · intro f hf hb
    by_cases hm : Mem f i k
    · exact ⟨i, k, by omega, by rw [carve_self]; rfl, hm⟩
    · rw [carve_not_mem hm] at hb
      obtain ⟨j, l, hj, hl, hfl⟩ := hT.owner f hf hb
      refine ⟨j, l, hj, ?_, hfl⟩
      rw [carve_not_mem, hl]
      intro hjm
      rw [hun j hjm] at hl
      contradiction

/-- The tail of a new block becomes `BELONGED_FRAME`. -/
theorem Rep.markBelonged (h : Rep s T) (hun : ∀ f, i ≤ f → f < i + n → T f = .uninit) :
    Rep (markBelonged i n s) (fun f => if i ≤ f ∧ f < i + n then .belonged else T f) := by
  induction n generalizing i s T with
  | zero =>
      have he : (fun f => if i ≤ f ∧ f < i + 0 then Tag.belonged else T f) = T := by
        funext f
        rw [if_neg (by omega)]
      rw [he]
      exact h
  | succ n ih =>
      have hi := hun i le_rfl (by omega)
      have hmod := h.modify (g := fun f => { f with status := belongedFrame })
        (t := .belonged) (i := i) (by simp [hi]) (by simp) rfl rfl
      have hrest := ih (i := i + 1) hmod fun f hlo hhi => by
        rw [Function.update_of_ne (by omega)]
        exact hun f (by omega) (by omega)
      have he : (fun f => if i ≤ f ∧ f < i + (n + 1) then Tag.belonged else T f) =
          fun f => if i + 1 ≤ f ∧ f < i + 1 + n then Tag.belonged
            else Function.update T i .belonged f := by
        funext f
        by_cases hfi : f = i
        · subst hfi
          rw [if_pos (by omega), if_neg (by omega), Function.update_self]
        · rw [Function.update_of_ne hfi]
          by_cases hm : i ≤ f ∧ f < i + (n + 1)
          · rw [if_pos hm, if_pos (by omega)]
          · rw [if_neg hm, if_neg (by omega)]
      rw [he]
      exact hrest

/-- Making a block keeps the representation. -/
theorem Rep.carve (h : Rep s T) (hle : i + 2 ^ k ≤ totalFrame) (hmax : k ≤ maxOrder)
    (hun : ∀ f, Mem f i k → T f = .uninit) :
    Rep (RpiKernel.markBelonged (i + 1) (2 ^ k - 1) (RpiKernel.pushFree i k s)) (carve T i k) := by
  have hpos := Nat.two_pow_pos k
  have hpush := h.pushFree (i := i) (by omega) hmax (by simp [hun i (mem_self i k)])
  have hmark := hpush.markBelonged (i := i + 1) (n := 2 ^ k - 1) fun f hlo hhi => by
    rw [Function.update_of_ne (by omega)]
    exact hun f ⟨by omega, by omega⟩
  have he : RpiKernel.carve T i k = fun f =>
      if i + 1 ≤ f ∧ f < i + 1 + (2 ^ k - 1) then Tag.belonged
      else Function.update T i (.free k) f := by
    funext f
    by_cases hfi : f = i
    · subst hfi
      rw [carve_self, if_neg (by omega), Function.update_self]
    · rw [Function.update_of_ne hfi]
      by_cases hm : Mem f i k
      · rw [carve_mem hm hfi, if_pos]
        have := hm.1
        have := hm.2
        omega
      · rw [carve_not_mem hm, if_neg]
        exact fun hin => hm ⟨by omega, by omega⟩
  rw [he]
  exact hmark

theorem allUninit_iff (s : Buddy) (i n : Nat) :
    allUninit s i n = true ↔ ∀ f, i ≤ f → f < i + n → (s.frames f).status = uninitFrame := by
  induction n generalizing i with
  | zero => simp only [allUninit, true_iff]; intro f h1 h2; omega
  | succ n ih =>
      rw [allUninit, Bool.and_eq_true, ih, beq_iff_eq]
      constructor
      · intro h f hlo hhi
        by_cases hf : f = i
        · exact hf ▸ h.1
        · exact h.2 f (by omega) (by omega)
      · intro h
        exact ⟨h i le_rfl (by omega), fun f hlo hhi => h f (by omega) (by omega)⟩

/-! ## the scan of one order -/

/-- What the tags can be while only blocks of order `n` and more exist. -/
def InitTag (n : Nat) (t : Tag) : Prop :=
  t = .reserved ∨ t = .uninit ∨ t = .belonged ∨ ∃ m, n ≤ m ∧ t = .free m

theorem InitTag.not_held {t : Tag} (h : InitTag n t) (l : Nat) : t ≠ .held l := by
  rintro rfl
  simp [InitTag] at h

theorem InitTag.not_live {t : Tag} (h : InitTag n t) (l : Nat) : t ≠ .live l := by
  rintro rfl
  simp [InitTag] at h

theorem InitTag.mono {t : Tag} (h : InitTag (n + 1) t) : InitTag n t := by
  obtain h | h | h | ⟨m, hm, h⟩ := h
  · exact Or.inl h
  · exact Or.inr (Or.inl h)
  · exact Or.inr (Or.inr (Or.inl h))
  · exact Or.inr (Or.inr (Or.inr ⟨m, by omega, h⟩))

/-- No aligned run of `2 ^ n` uninitialised frames starts before `pos`. -/
def NoRun (T : Nat → Tag) (n pos : Nat) : Prop :=
  ∀ i < pos, 2 ^ n ∣ i → i + 2 ^ n ≤ totalFrame → ∃ f, Mem f i n ∧ T f ≠ .uninit

/-- The invariant between two scans: blocks have order `n` or more, and
there is no room for another of order `n`. -/
structure Partly (s : Buddy) (T : Nat → Tag) (n : Nat) : Prop where
  rep : Rep s T
  tiled : Tiled T
  noBuddies : NoBuddies T
  kinds : ∀ j, InitTag n (T j)
  noRun : NoRun T n totalFrame

/-- The invariant of the scan of order `k` at position `pos`, begun with
the tags `U`: the blocks of order `k` are new. -/
structure Scanning (U : Nat → Tag) (s : Buddy) (T : Nat → Tag) (k pos : Nat) : Prop where
  rep : Rep s T
  tiled : Tiled T
  noBuddies : NoBuddies T
  kinds : ∀ j, InitTag k (T j)
  noRun : NoRun T k pos
  uninit : ∀ j < totalFrame, T j = .uninit → U j = .uninit
  fresh : ∀ j < totalFrame, T j = .free k → ∀ f, Mem f j k → U f = .uninit
  reserved : ∀ j, T j = .reserved ↔ U j = .reserved

theorem Rep.uninit_iff (h : Rep s T) (hi : i < totalFrame) (hh : ∀ k, T i ≠ .held k) :
    (s.frames i).status = uninitFrame ↔ T i = .uninit := by
  have hok := h.tag i hi
  cases ht : T i with
  | uninit => simp only [ht, TagOk] at hok; simp [hok]
  | held l => exact absurd ht (hh l)
  | reserved | belonged =>
      simp only [ht, TagOk, reservedFrame, belongedFrame] at hok
      simp [hok, uninitFrame]
  | live l =>
      simp only [ht, TagOk, allocatedFrame] at hok
      simp [hok.1, uninitFrame]
  | free l =>
      simp only [ht, TagOk] at hok
      simp only [hok, uninitFrame, reduceCtorEq]

/-- Two free blocks of the order being scanned are not buddies: together
they were a run of the order scanned before. -/
theorem Scanning.noBuddies_carve {pos : Nat} (h : Scanning U s T k pos)
    (hU : NoRun U (k + 1) totalFrame) (hdvd : 2 ^ k ∣ i) (hle : i + 2 ^ k ≤ totalFrame)
    (hun : ∀ f, Mem f i k → T f = .uninit) : NoBuddies (carve T i k) := by
  have hpos := Nat.two_pow_pos k
  have hUi : ∀ f, Mem f i k → U f = .uninit := fun f hf =>
    h.uninit f (by have := hf.2; omega) (hun f hf)
  have hbud : buddy i k < totalFrame → T (buddy i k) ≠ .free k := fun hb hT => by
    have hUb := h.fresh _ hb hT
    have hble := (h.tiled.block _ hb k (by rw [hT]; rfl)).2.1
    have hpow : 2 ^ (k + 1) = 2 ^ k + 2 ^ k := by ring
    cases buddy_cases hdvd with
    | inl hlow =>
        obtain ⟨hd, he⟩ := hlow
        rw [he] at hUb hble
        obtain ⟨f, hf, hne⟩ := hU i (by omega) hd (by omega)
        cases mem_succ.mp hf with
        | inl hm => exact hne (hUi f hm)
        | inr hm => exact hne (hUb f hm)
    | inr hupp =>
        obtain ⟨hd, he⟩ := hupp
        obtain ⟨f, hf, hne⟩ := hU (buddy i k) hb hd (by omega)
        cases mem_succ.mp hf with
        | inl hm => exact hne (hUb f hm)
        | inr hm => rw [← he] at hm; exact hne (hUi f hm)
  have hnb := h.noBuddies.update_free hbud
  have hsub : ∀ j l, carve T i k j = .free l → Function.update T i (.free k) j = .free l :=
    fun j l hj => by
    by_cases hji : j = i
    · subst hji
      rw [carve_self] at hj
      rw [Function.update_self, hj]
    · rw [Function.update_of_ne hji]
      by_cases hm : Mem j i k
      · rw [carve_mem hm hji] at hj; contradiction
      · rwa [carve_not_mem hm] at hj
  intro j hj l hjl hb hbl
  exact hnb j hj l (hsub j l hjl) hb (hsub _ l hbl)

/-- A run that a position of the scan rules out. -/
theorem NoRun.advance {pos : Nat} (h : NoRun T k pos) (hdvd : 2 ^ k ∣ pos)
    (hat : pos + 2 ^ k ≤ totalFrame → ∃ f, Mem f pos k ∧ T f ≠ .uninit) :
    NoRun T k (pos + 2 ^ k) := by
  intro j hj hjd hle
  by_cases hlt : j < pos
  · exact h j hlt hjd hle
  · obtain rfl : j = pos := eq_of_meet hjd hdvd (mem_self j k) ⟨by omega, hj⟩
    exact hat hle

/-- One position of the scan. -/
theorem Scanning.step {pos : Nat} (h : Scanning U s T k pos) (hU : NoRun U (k + 1) totalFrame)
    (hmax : k ≤ maxOrder) (hdvd : 2 ^ k ∣ pos) :
    ∃ T', Scanning U (initBlock k pos s) T' k (pos + 2 ^ k) := by
  have hpos := Nat.two_pow_pos k
  have hskip : (pos + 2 ^ k ≤ totalFrame → ∃ f, Mem f pos k ∧ T f ≠ .uninit) →
      Scanning U s T k (pos + 2 ^ k) := fun hat =>
    { h with noRun := h.noRun.advance hdvd hat }
  have hst : ∀ f < totalFrame, (s.frames f).status = uninitFrame ↔ T f = .uninit := fun f hf =>
    h.rep.uninit_iff hf (h.kinds f).not_held
  unfold initBlock
  by_cases hhead : (s.frames pos).status ≠ uninitFrame
  · rw [if_pos hhead]
    refine ⟨T, hskip fun hle => ⟨pos, mem_self pos k, fun he => hhead ?_⟩⟩
    exact (hst pos (by omega)).mpr he
  rw [if_neg hhead]
  by_cases hend : pos + 2 ^ k > totalFrame
  · rw [if_pos hend]
    exact ⟨T, hskip fun hle => by omega⟩
  rw [if_neg hend]
  by_cases hall : allUninit s pos (2 ^ k) = true
  · rw [if_pos hall]
    have hun : ∀ f, Mem f pos k → T f = .uninit := fun f hf =>
      (hst f (by have := hf.2; omega)).mp ((allUninit_iff s pos _).mp hall f hf.1 hf.2)
    have hle : pos + 2 ^ k ≤ totalFrame := by omega
    refine ⟨carve T pos k, ?_⟩
    constructor
    · exact h.rep.carve hle hmax hun
    · exact h.tiled.carve hdvd hle hmax hun
    · exact h.noBuddies_carve hU hdvd hle hun
    · intro j
      unfold carve
      split_ifs
      · exact Or.inr (Or.inr (Or.inr ⟨k, le_rfl, rfl⟩))
      · exact Or.inr (Or.inr (Or.inl rfl))
      · exact h.kinds j
    · intro j hj hjd hjle
      by_cases hjp : j = pos
      · subst hjp
        exact ⟨j, mem_self j k, by rw [carve_self]; simp⟩
      · have hlt : j < pos := by
          by_contra hge
          exact hjp (eq_of_meet hjd hdvd (mem_self j k) ⟨by omega, hj⟩)
        obtain ⟨f, hf, hne⟩ := h.noRun j hlt hjd hjle
        refine ⟨f, hf, ?_⟩
        unfold carve
        split_ifs <;> simp [hne]
    · intro j hj hju
      unfold carve at hju
      split_ifs at hju
      exact h.uninit j hj hju
    · intro j hj hjf f hf
      by_cases hjp : j = pos
      · subst hjp
        exact h.uninit f (by have := hf.2; omega) (hun f hf)
      · unfold carve at hjf
        rw [if_neg hjp] at hjf
        split_ifs at hjf
        exact h.fresh j hj hjf f hf
    · intro j
      rw [← h.reserved]
      by_cases hm : Mem j pos k
      · have hju := hun j hm
        by_cases hjp : j = pos
        · subst hjp; simp [carve_self, hju]
        · simp [carve_mem hm hjp, hju]
      · rw [carve_not_mem hm]
  · rw [if_neg hall]
    refine ⟨T, hskip fun hle => ?_⟩
    by_contra hno
    refine hall ((allUninit_iff s pos _).mpr fun f hlo hhi => (hst f (by omega)).mpr ?_)
    by_contra hne
    exact hno ⟨f, ⟨hlo, hhi⟩, hne⟩

/-- The whole scan of one order. -/
theorem Scanning.initScan {pos : Nat} (h : Scanning U s T k pos)
    (hU : NoRun U (k + 1) totalFrame) (hmax : k ≤ maxOrder) (hdvd : 2 ^ k ∣ pos) :
    ∃ T', Scanning U (initScan k n pos s) T' k (pos + n * 2 ^ k) := by
  induction n generalizing pos s T with
  | zero => exact ⟨T, by simpa [RpiKernel.initScan] using h⟩
  | succ n ih =>
      obtain ⟨T₁, h₁⟩ := h.step hU hmax hdvd
      obtain ⟨T₂, h₂⟩ := ih h₁ (Nat.dvd_add hdvd (Nat.dvd_refl _))
      refine ⟨T₂, ?_⟩
      have he : pos + (n + 1) * 2 ^ k = pos + 2 ^ k + n * 2 ^ k := by ring
      rw [he]
      exact h₂

/-- A scan starts where the previous one ended. -/
theorem Partly.scanning (h : Partly s T (k + 1)) : Scanning T s T k 0 := by
  constructor
  · exact h.rep
  · exact h.tiled
  · exact h.noBuddies
  · exact fun j => (h.kinds j).mono
  · intro i hi; omega
  · exact fun j _ hj => hj
  · intro j hj hjf
    have hkind := h.kinds j
    rw [hjf] at hkind
    simp only [InitTag, reduceCtorEq, Tag.free.injEq, false_or] at hkind
    obtain ⟨m, hm, rfl⟩ := hkind
    omega
  · exact fun _ => Iff.rfl

/-- All scans, from order `n - 1` down to 0. -/
theorem Partly.initOrders (h : Partly s T n) (hn : n ≤ maxOrder + 1) :
    ∃ T', Partly (initOrders n s) T' 0 ∧ ∀ j, T' j = .reserved ↔ T j = .reserved := by
  induction n generalizing s T with
  | zero => exact ⟨T, h, fun _ => Iff.rfl⟩
  | succ k ih =>
      have hpos := Nat.two_pow_pos k
      obtain ⟨T₁, h₁⟩ := h.scanning.initScan (n := (totalFrame + 2 ^ k - 1) / 2 ^ k)
        h.noRun (by omega) (Nat.dvd_zero _)
      have hcover : totalFrame ≤ (totalFrame + 2 ^ k - 1) / 2 ^ k * 2 ^ k := by
        have := Nat.lt_div_mul_add (a := totalFrame + 2 ^ k - 1) hpos
        omega
      have hp : Partly (initScan k ((totalFrame + 2 ^ k - 1) / 2 ^ k) 0 s) T₁ k :=
        ⟨h₁.rep, h₁.tiled, h₁.noBuddies, h₁.kinds, fun i hi => h₁.noRun i (by omega)⟩
      obtain ⟨T₂, h₂, hres⟩ := ih hp (by omega)
      exact ⟨T₂, h₂, fun j => (hres j).trans (h₁.reserved j)⟩

/-! ## `buddy_init` -/

/-- The tags before the first scan. -/
def resetTags (s : Buddy) (j : Nat) : Tag :=
  if (s.frames j).status = reservedFrame then .reserved else .uninit

theorem partly_resetFrames (s : Buddy) :
    Partly (resetFrames s) (resetTags s) (maxOrder + 1) := by
  have hnone : ∀ j k, (resetTags s j).order? ≠ some k := fun j k => by
    unfold resetTags
    split_ifs <;> simp
  constructor
  · constructor
    · intro i hi
      simp [resetFrames, hi]
    · intro i hi
      unfold resetTags
      by_cases hr : (s.frames i).status = reservedFrame <;>
        simp [resetFrames, hi, hr, TagOk]
    · intro k hk
      refine ⟨[], none, ⟨rfl, by simp [resetFrames, hk]⟩, fun i => ?_⟩
      unfold resetTags
      split_ifs <;> simp
  · constructor
    · exact fun i _ k hk => absurd hk (hnone i k)
    · exact fun i _ k hk => absurd hk (hnone i k)
    · intro f _ hb
      unfold resetTags at hb
      split_ifs at hb
  · intro i _ k hk
    unfold resetTags at hk
    split_ifs at hk
  · intro j
    unfold resetTags
    split_ifs
    · exact Or.inl rfl
    · exact Or.inr (Or.inl rfl)
  · intro i _ _ hle
    have : (2 : Nat) ^ (maxOrder + 1) = 2097152 := by decide
    have : totalFrame = 245760 := rfl
    omega

/-- `buddy_init` settles the allocator: the frames that were marked
reserved stay reserved, all others are free. -/
theorem buddyInit_ok (s : Buddy) :
    ∃ T, BuddyOk (buddyInit s) T ∧ (∀ j l, T j ≠ .live l) ∧
      ∀ j, T j = .reserved ↔ (s.frames j).status = reservedFrame := by
  obtain ⟨T, h, hres⟩ := (partly_resetFrames s).initOrders le_rfl
  refine ⟨T, ?_, fun j => (h.kinds j).not_live, fun j => (hres j).trans ?_⟩
  · constructor
    · exact h.rep
    · exact h.tiled
    · exact h.noBuddies
    · exact fun j _ => (h.kinds j).not_held
    · intro j hj hju
      obtain ⟨f, hf, hne⟩ := h.noRun j hj (one_dvd j) hj
      rw [mem_zero] at hf
      exact hne (hf ▸ hju)
  · unfold resetTags
    split_ifs with hr <;> simp [hr]

/-! ## the slab fields -/

theorem sameSlab_markBelonged (i n : Nat) (s : Buddy) : SameSlab s (markBelonged i n s) := by
  induction n generalizing i s with
  | zero => exact SameSlab.refl s
  | succ n ih => exact (sameSlab_modify (by simp)).trans (ih _ _)

theorem sameSlab_initBlock (k i : Nat) (s : Buddy) : SameSlab s (initBlock k i s) := by
  unfold initBlock
  split_ifs
  · exact SameSlab.refl s
  · exact SameSlab.refl s
  · exact (sameSlab_pushFree _ _ s).trans (sameSlab_markBelonged _ _ _)
  · exact SameSlab.refl s

theorem sameSlab_initScan (k n i : Nat) (s : Buddy) : SameSlab s (initScan k n i s) := by
  induction n generalizing i s with
  | zero => exact SameSlab.refl s
  | succ n ih => exact (sameSlab_initBlock k i s).trans (ih _ _)

theorem sameSlab_initOrders (n : Nat) (s : Buddy) : SameSlab s (initOrders n s) := by
  induction n generalizing s with
  | zero => exact SameSlab.refl s
  | succ n ih => exact (sameSlab_initScan _ _ _ s).trans (ih _)

/-- Resetting the frames makes none of them a slab page, and no scan does. -/
theorem initOrders_slab (n : Nat) (s : Buddy) {j : Nat} (hj : j < totalFrame) :
    ((initOrders n (resetFrames s)).frames j).slabPtr = none ∧
      ((initOrders n (resetFrames s)).frames j).isSlabPage = false := by
  have hss := sameSlab_initOrders n (resetFrames s) j
  rw [hss.1, hss.2]
  simp [resetFrames, hj]

/-- After `buddy_init` no frame is a slab page. -/
theorem buddyInit_slab (s : Buddy) {j : Nat} (hj : j < totalFrame) :
    ((buddyInit s).frames j).slabPtr = none ∧ ((buddyInit s).frames j).isSlabPage = false := by
  have heq : buddyInit s = initOrders (maxOrder + 1) (resetFrames s) := rfl
  rw [heq]
  exact initOrders_slab _ s hj

end RpiKernel
