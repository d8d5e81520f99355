import RpiKernel.Memory.Contents

/-!
# RpiKernel.Memory.SlabRun

Runs of the whole allocator: after `init_allocator` any calls of `kmalloc` and
`kfree`, and of the functions underneath them, `malloc_s`, `free_s`, `malloc_b`
and `free_b`, with any sizes and any pointers.  Only `free_b` must not be given
a slab page: it would take the frame away from under its chunks.

* `allocRun_slabs`: the slab pages, their lists, counts and bitmaps agree, a
  chunk is handed out once, and a wrong `free_s` does nothing;
* `allocRun_kfree`: which wrong pointers `kfree` ignores;
* `allocRun_undoes`: `kfree` undoes `kmalloc`;
* `allocRun_routes`: which sizes `kmalloc` serves as the class table says.
-/

namespace RpiKernel

open Dyadic Dlist Alloc Runs

variable {a a' : Alloc} {T T' : Nat → Tag} {b c i k n p size : Nat}

/-! ## classes -/

theorem findClass_some (h : findClass size = some c) :
    c < 9 ∧ size ≤ slabSize c ∧ ∀ d < c, slabSize d < size := by
  unfold findClass at h
  rw [List.find?_range_eq_some] at h
  obtain ⟨hle, hc, hfirst⟩ := h
  have hle' : size ≤ slabSize c := of_decide_eq_true hle
  have hfirst' : ∀ d < c, slabSize d < size := fun d hd => by simpa using hfirst d hd
  refine ⟨?_, hle', hfirst'⟩
  -- the entry after the last initialiser is 0, and the first one holds that
  have hc' : c < 10 := List.mem_range.mp hc
  by_contra hge
  obtain rfl : c = 9 := by omega
  have h0 := hfirst' 0 (by decide)
  have h9 : slabSize 9 = 0 := rfl
  omega

theorem findClass_none_iff : findClass size = none ↔ slabSize 8 < size := by
  unfold findClass
  rw [List.find?_range_eq_none]
  constructor
  · intro h
    simpa using h 8 (by decide)
  · intro h i hi
    have hall : ∀ i : Fin slabType, slabSize i ≤ slabSize 8 := by decide
    have hle := hall ⟨i, hi⟩
    simp only [Bool.not_eq_eq_eq_not, Bool.not_true, decide_eq_false_iff_not]
    dsimp only at hle
    omega

theorem size2chunk_eq (size : Nat) : size2chunk size =
    match findClass size with
    | some c => (slabSize c : Int)
    | none => -1 := rfl

/-! ## what `malloc_s` does -/

/-- Every page of class `c` is full. -/
def Alloc.Full (a : Alloc) (c : Nat) : Prop :=
  ∀ b < totalFrame, a.IsPage b → (a.slabs b).slabType = c → (a.slabs b).freeSlabs = 0

/-- When the search finds no slot every page of the list is full. -/
theorem Alloc.Ok.findSlot_full (h : a.Ok T) {hd pr : Option Nat} {xs : List Nat} {q : Option Nat}
    (hseg : IsSeg (fun i => (a.slabs i).next) (fun i => (a.slabs i).prev) pr hd xs q none)
    (hmem : ∀ b ∈ xs, b < totalFrame ∧ a.IsPage b ∧ (a.slabs b).slabType = c)
    (hnone : RpiKernel.findSlot a n hd = some none) : ∀ b ∈ xs, (a.slabs b).freeSlabs = 0 := by
  induction xs generalizing pr hd n with
  | nil => simp
  | cons b xs ih =>
      obtain ⟨rfl, -, hrest⟩ := hseg
      cases n with
      | zero => contradiction
      | succ n =>
          obtain ⟨hb, hp, ht⟩ := hmem b List.mem_cons_self
          have hok := h.class_of_page hb hp ht
          unfold RpiKernel.findSlot at hnone
          dsimp only at hnone
          by_cases hf : 0 < (a.slabs b).freeSlabs
          · obtain ⟨i, hi, -⟩ := hok.firstClear hf
            rw [if_pos hf, hi] at hnone
            exact absurd (Option.some.inj hnone) (by simp)
          · rw [if_neg hf] at hnone
            have hrest' := ih hrest (fun y hy => hmem y (List.mem_cons_of_mem b hy)) hnone
            intro y hy
            cases List.mem_cons.mp hy with
            | inl heq =>
                subst heq
                have hcount := hok.freeSlabs
                have hle := usedSlots_le (a.slabs y).bitmap (slotCount c)
                omega
            | inr htail => exact hrest' y htail

/-- The ways `malloc_s` can go for a size of class `c`. -/
inductive Alloc.Served (a : Alloc) (c : Nat) : Nat → Alloc → Prop
  | slot (b i : Nat) : b < totalFrame → a.IsPage b → (a.slabs b).slabType = c → i < slotCount c →
      (a.slabs b).bitmap i = false →
      a.Served c (index2address b + i * slabSize c) (takeSlot b i a)
  | newPage (b : Nat) (s : Buddy) : a.Full c → buddyAllocate 0 a.buddy = (some b, s) →
      b < totalFrame → ¬ a.IsPage b → (a.buddy.frames b).status ≠ allocatedFrame →
      SameSlab a.buddy s →
      a.Served c (index2address b) (newSlab c b (a.setBuddy s))
  | failed : a.Full c → buddyAllocate 0 a.buddy = (none, a.buddy) → a.Served c 0 a

/-- `malloc_s` of a size that class `c` holds. -/
theorem Alloc.Ok.mallocS_served (h : a.Ok T) (hcl : findClass size = some c) :
    ∃ p a', RpiKernel.mallocS size a = some (p, a') ∧ a.Served c p a' := by
  have hc := (findClass_some hcl).1
  have hc' : c < slabType := by unfold slabType; omega
  unfold RpiKernel.mallocS slabAllocate
  rw [hcl]
  dsimp only
  cases h.findSlot hc' with
  | inr hsome =>
      obtain ⟨page, i, he, hb, hp, ht, hi, hbit⟩ := hsome
      have hst := (h.class_of_page hb hp ht).startAddress
      have hin := slot_inside hc hi
      have hlt : index2address page + i * slabSize c < 2 ^ 64 := by
        rw [index2address_of_lt hb]
        unfold buddyMemoryBase
        unfold frameSize at hin ⊢
        unfold totalFrame at hb
        omega
      rw [he]
      dsimp only
      rw [hst, Nat.mod_eq_of_lt hlt]
      exact ⟨_, _, rfl, .slot page i hb hp ht hi hbit⟩
  | inl hnone =>
      have hfull : a.Full c := fun b hb hp ht => by
        obtain ⟨xs, q, hseg, hmem⟩ := h.lists c hc'
        exact h.findSlot_full hseg (fun y hy => (hmem y).mp hy) hnone b ((hmem b).mpr ⟨hb, hp, ht⟩)
      rw [hnone]
      dsimp only
      have hss := sameSlab_buddyAllocate 0 a.buddy
      cases h.buddy.buddyAllocate 0 with
      | inl hfail =>
          rw [hfail.1]
          exact ⟨0, a, rfl, .failed hfull hfail.1⟩
      | inr hsucc =>
          obtain ⟨b, m, T', hres, hb, -, hfree, hs, hg⟩ := hsucc
          have hp : ¬ a.IsPage b := fun hp => by
            rw [h.page_live hb hp] at hfree
            contradiction
          have hst : (a.buddy.frames b).status ≠ allocatedFrame := fun he => by
            obtain ⟨k, hk⟩ := (h.buddy.rep.allocated_iff hb (h.buddy.notHeld b hb)).mp he
            rw [hk] at hfree
            contradiction
          cases hr : RpiKernel.buddyAllocate 0 a.buddy with
          | mk r s =>
              rw [hr] at hres hss
              dsimp only at hres hss
              subst hres
              exact ⟨_, _, rfl, .newPage b s hfull hr hb hp hst hss⟩

/-- `malloc_s` of a size that no class holds. -/
theorem mallocS_large (hcl : findClass size = none) (a : Alloc) : mallocS size a = some (0, a) := by
  unfold mallocS slabAllocate
  rw [hcl]

/-! ## what one call does -/

/-- Chunk `i` of the page `b` of class `c` is handed out between `a` and `a'`. -/
structure Alloc.HandsOut (a a' : Alloc) (c b i : Nat) : Prop where
  lt : b < totalFrame
  page : a'.IsPage b
  slabType : (a'.slabs b).slabType = c
  index : i < slotCount c
  set : (a'.slabs b).bitmap i = true
  wasClear : a.IsPage b → (a.slabs b).bitmap i = false
  newFrame : ¬ a.IsPage b ∨ a'.buddy ≠ a.buddy → a.Full c

theorem Alloc.Ok.handsOut (h : a.Ok T) (hc : c < 9) (hs : a.Served c p a') :
    (p = 0 ∧ a' = a) ∨ ∃ b i, a.HandsOut a' c b i ∧ p = index2address b + i * slabSize c := by
  have hc' : c < slabType := by unfold slabType; omega
  cases hs with
  | failed hfull hfail => exact Or.inl ⟨rfl, rfl⟩
  | slot b i hb hp ht hi hbit =>
      refine Or.inr ⟨b, i, ?_, rfl⟩
      constructor
      · exact hb
      · exact hp
      · simp [RpiKernel.takeSlot, ht]
      · exact hi
      · simp [RpiKernel.takeSlot]
      · exact fun _ => hbit
      · intro hnew
        exact absurd hnew (by simp [hp, RpiKernel.takeSlot])
  | newPage b s hfull hres hb hp hst hss =>
      have hne : (a.setBuddy s).slabStart c ≠ some b := fun he => hp (h.start_page hc' he).2.1
      refine Or.inr ⟨b, 0, ?_, by simp⟩
      constructor
      · exact hb
      · exact isPage_newSlab.mpr (Or.inl rfl)
      · rw [slabs_newSlab hne, if_pos rfl]
      · have := (class_bounds hc).2.2
        omega
      · simp [slabs_newSlab hne]
      · exact fun hp' => absurd hp' hp
      · exact fun _ => hfull

/-- `free_s` of an address in frame `b`: a chunk that is in use goes, anything
else is ignored. -/
theorem Alloc.Ok.freeS_frame (h : a.Ok T) (hf : blockIndex p = b) (hb : b < totalFrame) :
    RpiKernel.freeS p a = some a ∨ ∃ n a', a.SlotRegion p n ∧ RpiKernel.freeS p a = some a' ∧
      a.Released T p a' := by
  by_cases hno : ∀ n, ¬ a.SlotRegion p n
  · exact Or.inl (h.freeS_unallocated hf hb hno)
  · obtain ⟨n, hreg⟩ := not_forall_not.mp hno
    obtain ⟨d, c, i, he, rfl, -⟩ := h.slot_iff.mp hreg
    have hframe : toInt32 (address2index (buddyMemoryBase + (Entry.slot d c i).offset)) = d :=
      h.frame_of_entry he
    have hpage : (a.buddy.frames d).isSlabPage = true := he.2.1
    obtain ⟨a', hfree, hrel⟩ := h.slabFree he
    refine Or.inr ⟨n, a', hreg, ?_, hrel⟩
    rw [freeS_eq (base_add_ne_zero _) hframe he.1, if_pos hpage, (h.page d he.1 he.2.1).2.1]
    exact hfree

/-- The checks that `kfree`, `free_s` and `free_b` share: outside of the frames
a call that comes back does nothing. -/
theorem guarded_outside {r : Option Alloc} (hb : ∀ b : Nat, blockIndex p = b → ¬ b < totalFrame)
    (hs : (if p = 0 then some a
      else if blockIndex p < totalFrame then if blockIndex p < 0 then none else r
      else some a) = some a') : a' = a := by
  split_ifs at hs with h0 hlt hneg
  · exact (Option.some.inj hs).symm
  · obtain ⟨b, hb'⟩ := Int.eq_ofNat_of_zero_le (not_lt.mp hneg)
    exact absurd (by omega) (hb b hb')
  · exact (Option.some.inj hs).symm

/-! ## calls and runs -/

/-- One call of the allocator. -/
inductive MemCall where
  | kmalloc (size : Fin (2 ^ 32))
  | kfree (ptr : Fin (2 ^ 64))
  | mallocS (size : Fin (2 ^ 32))
  | freeS (ptr : Fin (2 ^ 64))
  | mallocB (size : Fin (2 ^ 32))
  | freeB (ptr : Fin (2 ^ 64))

/-- The state after the call; `none` when it leaves the frame descriptors. -/
def Alloc.perform (a : Alloc) : MemCall → Option Alloc
  | .kmalloc size => (kmalloc size a).map Prod.snd
  | .kfree ptr => kfree ptr a
  | .mallocS size => (mallocS size a).map Prod.snd
  | .freeS ptr => freeS ptr a
  | .mallocB size => some (mallocB size a).2
  | .freeB ptr => freeB ptr a

theorem Alloc.perform_mallocS {size : Fin (2 ^ 32)} (h : mallocS size a = some (p, a')) :
    a.perform (.mallocS size) = some a' := by
  simp only [perform, h, Option.map_some]

theorem Alloc.perform_kmalloc {size : Fin (2 ^ 32)} (h : kmalloc size a = some (p, a')) :
    a.perform (.kmalloc size) = some a' := by
  simp only [perform, h, Option.map_some]

/-- `free_b` is given no slab page. -/
def MemCall.Legal (a : Alloc) : MemCall → Prop
  | .freeB ptr => ∀ b : Nat, blockIndex ptr = b → b < totalFrame → ¬ a.IsPage b
  | _ => True

/-- `free_s` keeps the invariant. -/
theorem Alloc.Ok.freeS_keeps (h : a.Ok T) (hs : RpiKernel.freeS p a = some a') :
    ∃ T', a'.Ok T' := by
  by_cases hin : ∃ b : Nat, blockIndex p = b ∧ b < totalFrame
  · obtain ⟨b, hf, hb⟩ := hin
    cases h.freeS_frame hf hb with
    | inl hsame => exact ⟨T, Option.some.inj (hsame.symm.trans hs) ▸ h⟩
    | inr hrel =>
        obtain ⟨n, a₁, -, hfree, -, T', hok, -⟩ := hrel
        exact ⟨T', Option.some.inj (hfree.symm.trans hs) ▸ hok⟩
  · have hsame : a' = a := guarded_outside (fun b hf hb => hin ⟨b, hf, hb⟩) hs
    exact ⟨T, hsame ▸ h⟩

/-- `free_b` of no slab page keeps the invariant. -/
theorem Alloc.Ok.freeB_keeps (h : a.Ok T) (hs : RpiKernel.freeB p a = some a')
    (hpage : ∀ b : Nat, blockIndex p = b → b < totalFrame → ¬ a.IsPage b) : ∃ T', a'.Ok T' := by
  by_cases h0 : p = 0
  · subst h0
    exact ⟨T, Option.some.inj ((freeB_null a).symm.trans hs) ▸ h⟩
  by_cases hin : ∃ b : Nat, blockIndex p = b ∧ b < totalFrame
  · obtain ⟨b, hf, hb⟩ := hin
    have hfree := h.freeB_frame h0 hf hb (hpage b hf hb)
    split_ifs at hfree with hst
    · obtain ⟨a₁, hres, -, T', hok, -⟩ := hfree
      exact ⟨T', Option.some.inj (hres.symm.trans hs) ▸ hok⟩
    · exact ⟨T, Option.some.inj (hfree.symm.trans hs) ▸ h⟩
  · have hsame : a' = a := guarded_outside (fun b hf hb => hin ⟨b, hf, hb⟩) hs
    exact ⟨T, hsame ▸ h⟩

/-- `kfree` keeps the invariant, whatever it is given. -/
theorem Alloc.Ok.kfree_keeps (h : a.Ok T) (hs : RpiKernel.kfree p a = some a') :
    ∃ T', a'.Ok T' := by
  by_cases h0 : p = 0
  · subst h0
    exact ⟨T, Option.some.inj ((kfree_null a).symm.trans hs) ▸ h⟩
  by_cases hin : ∃ b : Nat, blockIndex p = b ∧ b < totalFrame
  · obtain ⟨b, hf, hb⟩ := hin
    by_cases hpage : a.IsPage b
    · rw [kfree_page h0 hf hb hpage] at hs
      exact h.freeS_keeps hs
    · rw [kfree_block h0 hf hb hpage] at hs
      refine h.freeB_keeps hs fun d hd _ hp => hpage ?_
      have hdb : (d : Int) = b := hd.symm.trans hf
      obtain rfl : d = b := by omega
      exact hp
  · have hsame : a' = a := guarded_outside (fun b hf hb => hin ⟨b, hf, hb⟩) hs
    exact ⟨T, hsame ▸ h⟩

theorem Alloc.Outcome.keeps (hout : a.Outcome T n p a') (h : a.Ok T) : ∃ T', a'.Ok T' := by
  cases hout with
  | inl hfail => exact ⟨T, hfail.2 ▸ h⟩
  | inr hsucc =>
      obtain ⟨-, -, T', hok, -⟩ := hsucc
      exact ⟨T', hok⟩

/-- Every legal call keeps the invariant. -/
theorem Alloc.Ok.perform (h : a.Ok T) {call : MemCall} (hl : call.Legal a)
    (hs : a.perform call = some a') : ∃ T', a'.Ok T' := by
  cases call with
  | kmalloc size =>
      obtain ⟨p, a₁, hres, hout⟩ := h.kmalloc size
      obtain ⟨r, hr, rfl⟩ := Option.map_eq_some_iff.mp hs
      obtain rfl := Option.some.inj (hres.symm.trans hr)
      exact hout.keeps h
  | kfree ptr => exact h.kfree_keeps hs
  | mallocS size =>
      obtain ⟨r, hr, rfl⟩ := Option.map_eq_some_iff.mp hs
      cases hcl : findClass size with
      | none =>
          obtain rfl := Option.some.inj ((mallocS_large hcl a).symm.trans hr)
          exact ⟨T, h⟩
      | some c =>
          obtain ⟨p, a₁, hres, hout⟩ := h.mallocS hcl (findClass_some hcl).1
          obtain rfl := Option.some.inj (hres.symm.trans hr)
          exact hout.keeps h
  | freeS ptr => exact h.freeS_keeps hs
  | mallocB size =>
      obtain rfl := Option.some.inj hs
      exact (h.mallocB size).keeps h
  | freeB ptr => exact h.freeB_keeps hs hl

/-- The states that the allocator reaches after `init_allocator`. -/
abbrev AllocReach (a₀ : Alloc) (info : BootInfo) (a : Alloc) : Prop :=
  Reach Alloc.perform (fun a call => call.Legal a) (initAllocator a₀ info) a

theorem AllocReach.ok {a₀ : Alloc} {info : BootInfo} (hr : AllocReach a₀ info a) : ∃ T, a.Ok T := by
  obtain ⟨T₀, h₀, -⟩ := initAllocator_ok a₀ info
  refine hr.inv (I := fun a => ∃ T, a.Ok T) ⟨T₀, h₀⟩ fun s c s' hI hg hs => ?_
  obtain ⟨T, h⟩ := hI
  exact h.perform hg hs

/-! ## the slab pages -/

/-- Descriptors, lists, counts and bitmaps of the slab pages agree. -/
structure Alloc.SlabInvariant (a : Alloc) : Prop where
  live : ∀ b < totalFrame, a.IsPage b →
    (a.buddy.frames b).status = allocatedFrame ∧ (a.buddy.frames b).allocatedOrder = 0
  described : ∀ b < totalFrame, a.IsPage b → (a.buddy.frames b).slabPtr = some b ∧
    (a.slabs b).available = 0 ∧ (a.slabs b).startAddress = index2address b
  sizes : ∀ b < totalFrame, a.IsPage b → ∃ c : Nat, c < 9 ∧ (a.slabs b).slabType = c ∧
    (a.slabs b).slabSize = slabSize c ∧ (a.slabs b).totalSlabs = slotCount c
  onList : ∀ b < totalFrame, a.IsPage b → ∀ c < slabType,
    a.OnList c b ↔ (a.slabs b).slabType = c
  linked : ∀ c < slabType, ∃ xs q, IsSeg (fun i => (a.slabs i).next) (fun i => (a.slabs i).prev)
    none (a.slabStart c) xs q none ∧ xs.Nodup ∧ ∀ b ∈ xs, b < totalFrame ∧ a.IsPage b
  count : ∀ b < totalFrame, a.IsPage b → (a.slabs b).freeSlabs =
    (a.slabs b).totalSlabs - usedSlots (a.slabs b).bitmap (a.slabs b).totalSlabs.toNat
  clear : ∀ b < totalFrame, a.IsPage b → ∀ i : Nat, (a.slabs b).totalSlabs ≤ i →
    (a.slabs b).bitmap i = false
  used : ∀ b < totalFrame, a.IsPage b →
    0 < usedSlots (a.slabs b).bitmap (a.slabs b).totalSlabs.toNat

theorem Alloc.Ok.slabInvariant (h : a.Ok T) : a.SlabInvariant := by
  constructor
  · intro b hb hp
    have htag := h.buddy.rep.tag b hb
    rwa [h.page_live hb hp] at htag
  · intro b hb hp
    obtain ⟨-, hptr, c, hok⟩ := h.page b hb hp
    exact ⟨hptr, hok.available, hok.startAddress⟩
  · intro b hb hp
    obtain ⟨-, -, c, hok⟩ := h.page b hb hp
    exact ⟨c, hok.class_lt, hok.slabType, hok.slabSize, hok.totalSlabs⟩
  · intro b hb hp c hc
    rw [h.onList_iff hc]
    simp [hb, hp]
  · intro c hc
    obtain ⟨xs, q, hseg, hmem⟩ := h.lists c hc
    exact ⟨xs, q, hseg, hseg.nodup, fun b hb => ⟨((hmem b).mp hb).1, ((hmem b).mp hb).2.1⟩⟩
  · intro b hb hp
    obtain ⟨-, -, c, hok⟩ := h.page b hb hp
    have hfree := hok.freeSlabs
    rw [hok.totalSlabs, Int.toNat_natCast]
    omega
  · intro b hb hp i hi
    obtain ⟨-, -, c, hok⟩ := h.page b hb hp
    rw [hok.totalSlabs] at hi
    exact hok.clear i (by omega)
  · intro b hb hp
    obtain ⟨-, -, c, hok⟩ := h.page b hb hp
    rw [hok.totalSlabs, Int.toNat_natCast]
    exact hok.used_pos

/-- The slab pages are consistent, `malloc_s` hands out clear chunks only, and
`free_s` ignores whatever is no chunk in use. -/
structure Alloc.SlabsSound (a : Alloc) : Prop where
  invariant : a.SlabInvariant
  mallocS : ∀ size : Fin (2 ^ 32), ∃ p a', RpiKernel.mallocS size a = some (p, a') ∧
    ((p = 0 ∧ a' = a) ∨ ∃ c b i, findClass size = some c ∧ a.HandsOut a' c b i ∧
      p = index2address b + i * slabSize c)
  freeS : ∀ ptr, buddyMemoryBase ≤ ptr → ptr < buddyMemoryBase + memorySize →
    (∃ a', RpiKernel.freeS ptr a = some a') ∧
      ((∀ n, ¬ a.SlotRegion ptr n) → RpiKernel.freeS ptr a = some a)

theorem Alloc.Ok.slabsSound (h : a.Ok T) : a.SlabsSound := by
  constructor
  · exact h.slabInvariant
  · intro size
    cases hcl : findClass size with
    | none => exact ⟨0, a, mallocS_large hcl a, Or.inl ⟨rfl, rfl⟩⟩
    | some c =>
        obtain ⟨p, a', hres, hserved⟩ := h.mallocS_served hcl
        refine ⟨p, a', hres, (h.handsOut (findClass_some hcl).1 hserved).imp_right fun hout => ?_⟩
        obtain ⟨b, i, hout, hp⟩ := hout
        exact ⟨c, b, i, rfl, hout, hp⟩
  · intro ptr hlo hhi
    obtain ⟨x, rfl⟩ := Nat.exists_eq_add_of_le hlo
    have hx : x < memorySize := by omega
    have hf : blockIndex (buddyMemoryBase + x) = ((x / frameSize : Nat) : Int) :=
      frame_of_address hx
    have hb : x / frameSize < totalFrame := by
      unfold memorySize at hx
      exact (Nat.div_lt_iff_lt_mul (by decide)).mpr hx
    refine ⟨?_, h.freeS_unallocated hf hb⟩
    cases h.freeS_frame hf hb with
    | inl hsame => exact ⟨a, hsame⟩
    | inr hrel =>
        obtain ⟨n, a', -, hfree, -⟩ := hrel
        exact ⟨a', hfree⟩

/-- **Slab pages**: in every state that the allocator reaches they are
consistent. -/
theorem allocRun_slabs (a₀ : Alloc) (info : BootInfo) (a : Alloc) (hr : AllocReach a₀ info a) :
    a.SlabsSound := by
  obtain ⟨T, h⟩ := hr.ok
  exact h.slabsSound

/-- After the first `malloc_s`. -/
theorem allocRun_slabs_first : ∃ a', (initAllocator zeroAlloc smallBoot).perform (.mallocS 100) =
    some a' ∧ a'.SlabsSound := by
  obtain ⟨T, h, -⟩ := initAllocator_ok zeroAlloc smallBoot
  have hcl : findClass (100 : Fin (2 ^ 32)) = some 4 := by decide
  obtain ⟨p, a', hres, -⟩ := h.mallocS_served hcl
  have hs := perform_mallocS hres
  exact ⟨a', hs, allocRun_slabs zeroAlloc smallBoot a' (.step (.mallocS 100) .init trivial hs)⟩

/-! ## wrong pointers -/

/-- **Wrong pointers**: where nothing is allocated `kfree` does nothing exactly
for the pointers that it ignores; it takes any other one for a live block or
reads outside of the frame descriptors. -/
theorem allocRun_kfree (a₀ : Alloc) (info : BootInfo) (a : Alloc) (hr : AllocReach a₀ info a)
    (ptr : Fin (2 ^ 64)) (hun : a.Unallocated ptr) : kfree ptr a = some a ↔ a.Ignores ptr := by
  obtain ⟨T, h⟩ := hr.ok
  exact h.kfree_eq_iff hun

/-- The last page below the managed memory, right after booting. -/
theorem allocRun_kfree_below :
    kfree 0xfffefffffffff000 (initAllocator zeroAlloc smallBoot) =
        some (initAllocator zeroAlloc smallBoot) ↔
      (initAllocator zeroAlloc smallBoot).Ignores 0xfffefffffffff000 := by
  obtain ⟨T, h, hnone, -⟩ := initAllocator_ok zeroAlloc smallBoot
  exact allocRun_kfree zeroAlloc smallBoot _ .init 0xfffefffffffff000 (hnone _)

/-- The first request for at most a frame is granted. -/
theorem smallBoot_kmalloc (size : Fin (2 ^ 32)) (h0 : size.val ≠ 0) (hord : size2order size = 0) :
    ∃ p a', kmalloc size (initAllocator zeroAlloc smallBoot) = some (p, a') ∧ p ≠ 0 := by
  obtain ⟨h', p, hs, hlive⟩ := AllocHistory.kmalloc_boot size h0 hord
  unfold AllocHistory.call AllocHistory.boot at hs
  dsimp only at hs
  cases hk : kmalloc size (initAllocator zeroAlloc smallBoot) with
  | none => rw [hk] at hs; contradiction
  | some r =>
      rw [hk] at hs
      refine ⟨r.1, r.2, rfl, fun hr => ?_⟩
      obtain rfl := Option.some.inj hs
      simp [hr] at hlive

/-- A pointer one byte into a fresh block gives the block back. -/
theorem allocRun_kfree_interior : ¬ ∀ (a₀ : Alloc) (info : BootInfo) (a : Alloc),
    AllocReach a₀ info a → ∀ ptr : Fin (2 ^ 64), a.Unallocated ptr → kfree ptr a = some a := by
  intro hall
  obtain ⟨T, h, -⟩ := initAllocator_ok zeroAlloc smallBoot
  obtain ⟨p, a, hk, hp⟩ := smallBoot_kmalloc 100 (by decide) (by decide)
  obtain ⟨q, a', hk', hout⟩ := h.kmalloc (100 : Fin (2 ^ 32))
  obtain ⟨rfl, rfl⟩ := Prod.mk.inj (Option.some.inj (hk'.symm.trans hk))
  obtain ⟨-, hadds, T', h', -⟩ := hout.resolve_left fun hfail => hp hfail.1
  have hreg : a'.Region q frameSize := (hadds.region q _).mpr (Or.inr ⟨rfl, by decide⟩)
  obtain ⟨e, he, rfl, hsize⟩ := h'.region_iff.mp hreg
  cases e with
  | slot b c i =>
      have hlt := slabSize_lt (h'.slot_class he).1
      simp only [Entry.size] at hsize
      omega
  | block b k =>
      obtain ⟨hb, hT, hpage⟩ := he
      have hin : b * frameSize + 1 < memorySize := by
        unfold memorySize frameSize
        omega
      have hframe : blockIndex (buddyMemoryBase + (b * frameSize + 1)) = b := by
        refine (frame_of_address hin).trans ?_
        unfold frameSize
        omega
      have hlt : buddyMemoryBase + (b * frameSize + 1) < 2 ^ 64 := by
        unfold memorySize totalFrame frameSize at hin
        unfold buddyMemoryBase frameSize
        omega
      have hreach : AllocReach zeroAlloc smallBoot a' :=
        .step (.kmalloc 100) .init trivial (perform_kmalloc hk)
      have hun : a'.Unallocated (buddyMemoryBase + (b * frameSize + 1)) := fun n hn => by
        have hdis := h'.region_disjoint hreg hn (by simp only [Entry.offset]; omega)
        have hpos := (h'.region_managed hn).1
        have hfs : frameSize = 4096 := rfl
        simp only [Entry.offset] at hdis
        omega
      have hsame := hall zeroAlloc smallBoot a' hreach ⟨_, hlt⟩ hun
      cases (h'.kfree_eq_iff hun).mp hsame with
      | inl h0 => exact absurd h0 (base_add_ne_zero _)
      | inr hrest =>
          rw [hframe] at hrest
          cases hrest with
          | inl hbeyond => omega
          | inr hshield =>
              cases hshield.2 with
              | inl hp' => exact hpage hp'
              | inr hst =>
                  exact hst ((h'.buddy.rep.allocated_iff hb (h'.buddy.notHeld b hb)).mpr ⟨k, hT⟩)

/-! ## `kfree` after `kmalloc` -/

/-- **Undoing**: in every state that the allocator reaches, `kfree` of what
`kmalloc` returned restores the free blocks and the slab pages. -/
theorem allocRun_undoes (a₀ : Alloc) (info : BootInfo) (a : Alloc) (hr : AllocReach a₀ info a)
    (size : Fin (2 ^ 32)) (p : Nat) (a' : Alloc) (hm : kmalloc size a = some (p, a'))
    (hp : p ≠ 0) : ∃ a'', kfree p a' = some a'' ∧ a.SameContents a'' := by
  obtain ⟨T, h⟩ := hr.ok
  exact h.kfree_kmalloc hm hp

theorem allocRun_undoes_first : ∃ p a' a'',
    kmalloc 100 (initAllocator zeroAlloc smallBoot) = some (p, a') ∧ kfree p a' = some a'' ∧
      (initAllocator zeroAlloc smallBoot).SameContents a'' := by
  obtain ⟨p, a', hm, hp⟩ := smallBoot_kmalloc 100 (by decide) (by decide)
  obtain ⟨a'', hfree, hsame⟩ := allocRun_undoes zeroAlloc smallBoot _ .init 100 p a' hm hp
  exact ⟨p, a', a'', hm, hfree, hsame⟩

/-! ## routing -/

/-- `kmalloc(size)` goes where the class table says: to `malloc_s`, from the
first class that holds `size`, or to `malloc_b` if there is none. -/
structure RoutesByClass (size : Nat) (a : Alloc) : Prop where
  smallest : ∀ c, findClass size = some c →
    size2chunk size = slabSize c ∧ size ≤ slabSize c ∧ ∀ d < c, slabSize d < size
  chunk : size2chunk size ≠ -1 → kmalloc size a = mallocS size a
  block : size2chunk size = -1 → kmalloc size a = some (mallocB size a)

/-- Neither a chunk of the class of `size` nor a frame is free. -/
structure Alloc.Exhausted (a : Alloc) (size : Nat) : Prop where
  noChunk : ∀ c, findClass size = some c → a.Full c
  noFrame : ∀ i k, ¬ FreeBlock a.buddy i k

theorem kmalloc_pos (h0 : size ≠ 0) (a : Alloc) : kmalloc size a = some (mallocB size a) := by
  unfold kmalloc
  have hlast : slabSize (slabType - 1) = 0 := rfl
  rw [hlast, if_neg (by omega)]

/-- Without a free block no order is granted, and with one the smallest is. -/
theorem Alloc.Ok.noFrame_iff (h : a.Ok T) :
    (∀ i k, ¬ FreeBlock a.buddy i k) ↔ buddyAllocate 0 a.buddy = (none, a.buddy) := by
  constructor
  · intro hnone
    cases h.buddy.buddyAllocate 0 with
    | inl hfail => exact hfail.1
    | inr hsucc =>
        obtain ⟨b, m, T', -, hb, -, hT, -⟩ := hsucc
        exact absurd (h.buddy.freeBlock_iff.mpr ⟨hb, hT⟩) (hnone b m)
  · intro hfail i k hb
    obtain ⟨hi, hT⟩ := h.buddy.freeBlock_iff.mp hb
    cases h.buddy.buddyAllocate 0 with
    | inl hnone => exact hnone.2 i hi k (Nat.zero_le k) hT
    | inr hsucc =>
        obtain ⟨b, m, T', hres, -⟩ := hsucc
        rw [hfail] at hres
        contradiction

theorem Alloc.Ok.mallocB_null (h : a.Ok T)
    (hnone : ∀ i k, size2order size ≤ k → ¬ FreeBlock a.buddy i k) :
    RpiKernel.mallocB size a = (0, a) := by
  unfold RpiKernel.mallocB
  cases h.buddy.buddyAllocate (size2order size) with
  | inl hfail =>
      rw [hfail.1]
      rfl
  | inr hsucc =>
      obtain ⟨b, m, T', -, hb, hm, hT, -⟩ := hsucc
      exact absurd (h.buddy.freeBlock_iff.mpr ⟨hb, hT⟩) (hnone b m hm)

/-- A full page has no clear chunk. -/
theorem Alloc.Ok.full_bit (h : a.Ok T) (hfull : a.Full c) (hb : b < totalFrame) (hp : a.IsPage b)
    (ht : (a.slabs b).slabType = c) (hi : i < slotCount c) : (a.slabs b).bitmap i = true := by
  have hok := h.class_of_page hb hp ht
  have hfree := hok.freeSlabs
  rw [hfull b hb hp ht] at hfree
  have hall : usedSlots (a.slabs b).bitmap (slotCount c) = slotCount c := by omega
  exact Nat.count_iff_forall.mp hall i hi

/-- There is nothing for `size` bytes: no free block of the order or more, and for
an empty request no free chunk either. -/
structure Alloc.Refuses (a : Alloc) (size : Nat) : Prop where
  noBlock : ∀ i k, size2order size ≤ k → ¬ FreeBlock a.buddy i k
  noChunk : size = 0 → a.Full 0

/-- When `kmalloc` returns `NULL`. -/
theorem Alloc.Ok.kmalloc_null_iff (h : a.Ok T) (hm : RpiKernel.kmalloc size a = some (p, a')) :
    p = 0 ↔ a.Refuses size := by
  by_cases h0 : size = 0
  · subst h0
    obtain ⟨q, a₁, hres, hserved⟩ := h.mallocS_served (rfl : findClass 0 = some 0)
    have hk : RpiKernel.kmalloc 0 a = RpiKernel.mallocS 0 a := rfl
    rw [hk, hres] at hm
    obtain ⟨rfl, rfl⟩ := Prod.mk.inj (Option.some.inj hm)
    cases hserved with
    | slot b i hb hp ht hi hbit =>
        refine iff_of_false (by have := index2address_pos hb; omega) fun href => ?_
        rw [h.full_bit (href.noChunk rfl) hb hp ht hi] at hbit
        contradiction
    | newPage b s hfull hbuddy hb hp hst hss =>
        refine iff_of_false (index2address_pos hb) fun href => ?_
        rw [h.noFrame_iff.mp fun i k => href.noBlock i k (Nat.zero_le k)] at hbuddy
        exact absurd (Prod.mk.inj hbuddy).1 (by simp)
    | failed hfull hfail =>
        exact iff_of_true rfl ⟨fun i k _ => h.noFrame_iff.mpr hfail i k, fun _ => hfull⟩
  · rw [kmalloc_pos h0, Option.some.injEq] at hm
    constructor
    · rintro rfl
      refine ⟨fun i k hk hb => ?_, fun he => absurd he h0⟩
      obtain ⟨hi, hT⟩ := h.buddy.freeBlock_iff.mp hb
      exact h.mallocB_ne_zero hi hT hk (congrArg Prod.fst hm)
    · intro href
      rw [h.mallocB_null href.noBlock] at hm
      exact (Prod.mk.inj hm).1.symm

/-- `malloc_b` leaves the slab pages alone. -/
theorem mallocB_slabs (size : Nat) (a : Alloc) : (mallocB size a).2.slabs = a.slabs ∧
    ∀ b, (mallocB size a).2.IsPage b ↔ a.IsPage b := by
  have hss := sameSlab_buddyAllocate (size2order size) a.buddy
  unfold mallocB
  cases hres : buddyAllocate (size2order size) a.buddy with
  | mk r s =>
      rw [hres] at hss
      have hpage : ∀ b, (a.setBuddy s).IsPage b ↔ a.IsPage b := fun b => by
        unfold IsPage
        rw [buddy_setBuddy, (hss b).2]
      cases r with
      | none => exact ⟨rfl, hpage⟩
      | some block => exact ⟨rfl, hpage⟩

/-- For a size with a class, `malloc_b` does what `malloc_s` does only when both
fail. -/
theorem Alloc.Ok.mallocB_eq_iff (h : a.Ok T) (hcl : findClass size = some c) :
    some (RpiKernel.mallocB size a) = RpiKernel.mallocS size a ↔ a.Exhausted size := by
  obtain ⟨p, a', hres, hserved⟩ := h.mallocS_served hcl
  obtain ⟨hslabs, hpages⟩ := mallocB_slabs size a
  rw [hres]
  cases hserved with
  | slot b i hb hp ht hi hbit =>
      refine iff_of_false (fun he => ?_) fun hex => ?_
      · -- the bit is set in one result only
        rw [Option.some.inj he] at hslabs
        have hset : ((RpiKernel.takeSlot b i a).slabs b).bitmap i = true := by
          simp [RpiKernel.takeSlot]
        rw [hslabs, hbit] at hset
        contradiction
      · rw [h.full_bit (hex.noChunk c hcl) hb hp ht hi] at hbit
        contradiction
  | newPage b s hfull hbuddy hb hp hst hss =>
      refine iff_of_false (fun he => ?_) fun hex => ?_
      · rw [Option.some.inj he] at hpages
        exact hp ((hpages b).mp (isPage_newSlab.mpr (Or.inl rfl)))
      · rw [h.noFrame_iff.mp hex.noFrame] at hbuddy
        exact absurd (Prod.mk.inj hbuddy).1 (by simp)
  | failed hfull hfail =>
      have hnone := h.noFrame_iff.mpr hfail
      rw [h.mallocB_null fun i k _ => hnone i k]
      refine iff_of_true rfl ⟨fun d hd => ?_, hnone⟩
      obtain rfl := Option.some.inj (hcl.symm.trans hd)
      exact hfull

theorem Alloc.Ok.routes_iff (h : a.Ok T) (size : Nat) :
    RoutesByClass size a ↔ size = 0 ∨ slabSize 8 < size ∨ a.Exhausted size := by
  have hsmallest : ∀ c, findClass size = some c →
      size2chunk size = slabSize c ∧ size ≤ slabSize c ∧ ∀ d < c, slabSize d < size :=
    fun c hcl => ⟨by rw [size2chunk_eq, hcl], (findClass_some hcl).2⟩
  cases hcl : findClass size with
  | none =>
      have hlarge := findClass_none_iff.mp hcl
      have hchunk : size2chunk size = -1 := by rw [size2chunk_eq, hcl]
      refine iff_of_true ⟨hsmallest, fun hne => absurd hchunk hne, fun _ => ?_⟩ (Or.inr (Or.inl hlarge))
      exact kmalloc_pos (by omega) a
  | some c =>
      have hchunk : size2chunk size ≠ -1 := by
        rw [(hsmallest c hcl).1]
        omega
      have hle : ¬ slabSize 8 < size := fun hlt => by
        rw [findClass_none_iff.mpr hlt] at hcl
        contradiction
      by_cases h0 : size = 0
      · subst h0
        exact iff_of_true ⟨hsmallest, fun _ => rfl, fun he => absurd he hchunk⟩ (Or.inl rfl)
      have heq := h.mallocB_eq_iff hcl
      rw [← kmalloc_pos h0] at heq
      constructor
      · exact fun hr => Or.inr (Or.inr (heq.mp (hr.chunk hchunk)))
      · intro hr
        have hex := (hr.resolve_left h0).resolve_left hle
        exact ⟨hsmallest, fun _ => heq.mpr hex, fun he => absurd he hchunk⟩

/-- **Routing**: in every state that the allocator reaches, `kmalloc` follows the
class table for no bytes, for sizes beyond the table, and when both ways fail;
every other small size is given whole frames. -/
theorem allocRun_routes (a₀ : Alloc) (info : BootInfo) (a : Alloc) (hr : AllocReach a₀ info a)
    (size : Fin (2 ^ 32)) :
    RoutesByClass size a ↔ size.val = 0 ∨ slabSize 8 < size.val ∨ a.Exhausted size := by
  obtain ⟨T, h⟩ := hr.ok
  exact h.routes_iff size

theorem allocRun_routes_small : RoutesByClass 8 (initAllocator zeroAlloc smallBoot) ↔
    (8 : Fin (2 ^ 32)).val = 0 ∨ slabSize 8 < (8 : Fin (2 ^ 32)).val ∨
      (initAllocator zeroAlloc smallBoot).Exhausted 8 :=
  allocRun_routes zeroAlloc smallBoot _ .init 8

/-- Eight bytes right after booting are a frame, not a chunk. -/
theorem allocRun_routes_byte : ¬ ∀ (a₀ : Alloc) (info : BootInfo) (a : Alloc),
    AllocReach a₀ info a → ∀ size : Fin (2 ^ 32), RoutesByClass size a := by
  intro hall
  obtain ⟨T, h, -⟩ := initAllocator_ok zeroAlloc smallBoot
  obtain ⟨p, a', hk, hp⟩ := smallBoot_kmalloc 8 (by decide) (by decide)
  have hroute := hall zeroAlloc smallBoot _ .init (8 : Fin (2 ^ 32))
  have hex : (initAllocator zeroAlloc smallBoot).Exhausted 8 :=
    ((((h.routes_iff 8).mp hroute).resolve_left (by decide)).resolve_left (by decide))
  have hnull : RpiKernel.mallocB 8 (initAllocator zeroAlloc smallBoot) =
      (0, initAllocator zeroAlloc smallBoot) := h.mallocB_null fun i k _ => hex.noFrame i k
  have hk' : kmalloc 8 (initAllocator zeroAlloc smallBoot) =
      some (0, initAllocator zeroAlloc smallBoot) := by
    rw [kmalloc_pos (by decide), hnull]
  obtain ⟨rfl, -⟩ := Prod.mk.inj (Option.some.inj (hk.symm.trans hk'))
  exact hp rfl

end RpiKernel
