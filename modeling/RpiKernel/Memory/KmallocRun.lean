import RpiKernel.Lib.Runs
import RpiKernel.Memory.Kmalloc

/-!
# RpiKernel.Memory.KmallocRun

Histories of `kmalloc` and `kfree` after `init_allocator`.  A history
remembers the allocations that are still live, with the size each caller
asked for.

* `allocHistory_safe`: while every request is at most `maxRequest`, live
  regions lie in the managed frames, avoid the reserved ones and are
  pairwise disjoint;
* a larger request wraps the 32-bit round-up of `size2order` and is given a
  single frame (`allocHistory_wraps`).
-/

namespace RpiKernel

open Dyadic Dlist Alloc Runs

/-! ## histories -/

/-- One call of the allocator. -/
inductive AllocCall where
  | kmalloc (size : Fin (2 ^ 32))
  | kfree (ptr : Nat)

/-- The allocator, and the pointers handed out and not yet given back, with
the sizes that were asked for. -/
structure AllocHistory where
  alloc : Alloc
  live : List (Nat × Nat)

/-- Right after `init_allocator`. -/
def AllocHistory.boot (a : Alloc) (info : BootInfo) : AllocHistory := ⟨initAllocator a info, []⟩

/-- A result other than `NULL` becomes live; only live pointers are given
back. -/
def AllocHistory.call (h : AllocHistory) : AllocCall → Option AllocHistory
  | .kmalloc size =>
      match kmalloc size h.alloc with
      | none => none
      | some (p, a) => some ⟨a, if p = 0 then h.live else (p, size.val) :: h.live⟩
  | .kfree ptr =>
      if ptr ∈ h.live.map Prod.fst then
        match kfree ptr h.alloc with
        | none => none
        | some a => some ⟨a, h.live.filter fun e => e.1 ≠ ptr⟩
      else none

/-- The caller may make the call. -/
def AllocCall.Legal (h : AllocHistory) : AllocCall → Prop
  | .kmalloc _ => True
  | .kfree ptr => ptr ∈ h.live.map Prod.fst

/-- The call asks for a size whose round-up does not wrap. -/
def AllocCall.Small : AllocCall → Prop
  | .kmalloc size => size.val ≤ maxRequest
  | .kfree _ => True

instance : (c : AllocCall) → Decidable c.Small
  | .kmalloc size => inferInstanceAs (Decidable (size.val ≤ maxRequest))
  | .kfree _ => inferInstanceAs (Decidable True)

/-- The bytes `[p, p + n)` lie in the managed frames and in no reserved one. -/
def AllocHistory.Managed (h : AllocHistory) (p n : Nat) : Prop :=
  buddyMemoryBase ≤ p ∧ p + n ≤ buddyMemoryBase + memorySize ∧
    ∀ x, p ≤ buddyMemoryBase + x → buddyMemoryBase + x < p + n →
      (h.alloc.buddy.frames (x / frameSize)).status ≠ reservedFrame

/-- Two allocations at different addresses that share no byte. -/
def Apart (e e' : Nat × Nat) : Prop :=
  e.1 ≠ e'.1 ∧ (e.1 + e.2 ≤ e'.1 ∨ e'.1 + e'.2 ≤ e.1)

/-- The live allocations are in managed memory and pairwise disjoint. -/
structure AllocHistory.Safe (h : AllocHistory) : Prop where
  managed : ∀ e ∈ h.live, h.Managed e.1 e.2
  disjoint : h.live.Pairwise Apart

/-! ## the invariant of small histories -/

variable {h h' : AllocHistory} {a : Alloc} {T : Nat → Tag} {p n size : Nat}

/-- The live list enumerates the regions, each large enough. -/
structure AllocHistory.Ok (h : AllocHistory) : Prop where
  settled : ∃ T, h.alloc.Ok T
  region : ∀ e ∈ h.live, ∃ n, e.2 ≤ n ∧ h.alloc.Region e.1 n
  nodup : (h.live.map Prod.fst).Nodup

theorem AllocHistory.boot_ok (a : Alloc) (info : BootInfo) : (boot a info).Ok := by
  obtain ⟨T, hok, -⟩ := initAllocator_ok a info
  unfold boot
  exact ⟨⟨T, hok⟩, by simp, by simp⟩

/-- A request leaves the history as it was or adds one allocation. -/
theorem AllocHistory.Ok.kmalloc (hok : h.Ok) (size : Fin (2 ^ 32)) :
    ∃ h', h.call (.kmalloc size) = some h' ∧
      (h' = h ∨ ∃ p, h'.live = (p, size.val) :: h.live ∧ (∃ T, h'.alloc.Ok T) ∧
        h.alloc.Adds h'.alloc p (granted size)) := by
  obtain ⟨T, hT⟩ := hok.settled
  obtain ⟨p, a, hres, hout⟩ := hT.kmalloc size
  unfold AllocHistory.call
  dsimp only
  rw [hres]
  refine ⟨_, rfl, ?_⟩
  cases hout with
  | inl hfail =>
      obtain ⟨rfl, rfl⟩ := hfail
      exact Or.inl (by simp)
  | inr hsucc =>
      obtain ⟨hp, hadds, T', hT', -⟩ := hsucc
      refine Or.inr ⟨p, by simp [hp], ⟨T', hT'⟩, hadds⟩

/-- Giving a live pointer back. -/
theorem AllocHistory.Ok.kfree (hok : h.Ok) (hp : p ∈ h.live.map Prod.fst) :
    ∃ h', h.call (.kfree p) = some h' ∧ h'.live = h.live.filter (fun e => e.1 ≠ p) ∧
      (∃ T, h'.alloc.Ok T) ∧ h.alloc.Removes h'.alloc p := by
  obtain ⟨T, hT⟩ := hok.settled
  obtain ⟨e, he, rfl⟩ := List.mem_map.mp hp
  obtain ⟨n, -, hr⟩ := hok.region e he
  obtain ⟨a, hres, hrem, T', hT', -⟩ := hT.kfree hr
  unfold AllocHistory.call
  dsimp only
  rw [if_pos hp, hres]
  exact ⟨_, rfl, rfl, ⟨T', hT'⟩, hrem⟩

/-- Every legal call returns. -/
theorem AllocHistory.Ok.returns (hok : h.Ok) (c : AllocCall) (hc : c.Legal h) :
    ∃ h', h.call c = some h' := by
  cases c with
  | kmalloc size =>
      obtain ⟨h', hres, -⟩ := hok.kmalloc size
      exact ⟨h', hres⟩
  | kfree ptr =>
      obtain ⟨h', hres, -⟩ := hok.kfree hc
      exact ⟨h', hres⟩

/-- Small requests and releases keep the invariant. -/
theorem AllocHistory.Ok.call (hok : h.Ok) {c : AllocCall} (hc : c.Small)
    (hs : h.call c = some h') : h'.Ok := by
  cases c with
  | kmalloc size =>
      obtain ⟨h₁, hres, hout⟩ := hok.kmalloc size
      obtain rfl := Option.some.inj (hs.symm.trans hres)
      cases hout with
      | inl hsame => exact hsame ▸ hok
      | inr hadd =>
          obtain ⟨p, hlive, hT, hadds⟩ := hadd
          constructor
          · exact hT
          · intro e he
            rw [hlive, List.mem_cons] at he
            cases he with
            | inl heq =>
                subst heq
                exact ⟨_, le_granted hc, (hadds.region p _).mpr (Or.inr ⟨rfl, rfl⟩)⟩
            | inr hold =>
                obtain ⟨n, hle, hr⟩ := hok.region e hold
                exact ⟨n, hle, (hadds.region e.1 n).mpr (Or.inl hr)⟩
          · rw [hlive, List.map_cons, List.nodup_cons]
            refine ⟨fun hp => ?_, hok.nodup⟩
            obtain ⟨e, he, heq⟩ := List.mem_map.mp hp
            obtain ⟨n, -, hr⟩ := hok.region e he
            dsimp only at heq
            exact hadds.fresh n (heq ▸ hr)
  | kfree ptr =>
      have hp : ptr ∈ h.live.map Prod.fst := by
        by_contra hnp
        unfold AllocHistory.call at hs
        dsimp only at hs
        rw [if_neg hnp] at hs
        contradiction
      obtain ⟨h₁, hres, hlive, hT, hrem⟩ := hok.kfree hp
      obtain rfl := Option.some.inj (hs.symm.trans hres)
      have hmem : ∀ e ∈ h'.live, e ∈ h.live ∧ e.1 ≠ ptr := fun e he => by
        rw [hlive, List.mem_filter] at he
        simpa using he
      constructor
      · exact hT
      · intro e he
        obtain ⟨n, hle, hr⟩ := hok.region e (hmem e he).1
        exact ⟨n, hle, (hrem e.1 n).mpr ⟨hr, (hmem e he).2⟩⟩
      · rw [hlive]
        exact (List.filter_sublist.map Prod.fst).nodup hok.nodup

theorem AllocHistory.Ok.safe (hok : h.Ok) : h.Safe := by
  obtain ⟨T, hT⟩ := hok.settled
  constructor
  · intro e he
    obtain ⟨n, hle, hr⟩ := hok.region e he
    obtain ⟨-, hlo, hhi, hres⟩ := hT.region_managed hr
    exact ⟨hlo, by omega, fun x hx hx' => hres x hx (by omega)⟩
  · have hnd := List.pairwise_map.mp hok.nodup
    refine hnd.imp_of_mem fun {e e'} he he' hne => ⟨hne, ?_⟩
    obtain ⟨n, hle, hr⟩ := hok.region e he
    obtain ⟨n', hle', hr'⟩ := hok.region e' he'
    have := hT.region_disjoint hr hr' hne
    omega

/-- An allocation of more than `maxRequest` bytes does not fit into the
managed memory. -/
theorem AllocHistory.not_safe_of_big (hbig : maxRequest < n) (hlive : (p, n) ∈ h.live) :
    ¬ h.Safe := by
  intro hsafe
  obtain ⟨hlo, hhi, -⟩ := hsafe.managed (p, n) hlive
  unfold memorySize totalFrame frameSize at hhi
  unfold maxRequest frameSize at hbig
  dsimp only at hlo hhi
  omega

/-! ## the results -/

/-- **Allocator safety**: after `init_allocator` and any calls with small
sizes, every legal call returns and the live regions are safe.  A larger
request that is granted breaks this at once. -/
theorem allocHistory_safe (a : Alloc) (info : BootInfo) (h : AllocHistory)
    (hr : Reach AllocHistory.call (fun _ c => c.Small) (.boot a info) h) :
    h.Safe ∧ (∀ c : AllocCall, c.Legal h → ∃ h', h.call c = some h') ∧
      ∀ (size : Fin (2 ^ 32)) h', maxRequest < size.val → h.call (.kmalloc size) = some h' →
        h'.live ≠ h.live → ¬ h'.Safe := by
  have hok : h.Ok := hr.inv (AllocHistory.boot_ok a info) fun _ _ _ hok hc hs => hok.call hc hs
  refine ⟨hok.safe, fun c hc => hok.returns c hc, fun size h' hbig hs hne => ?_⟩
  obtain ⟨h₁, hres, hout⟩ := hok.kmalloc size
  obtain rfl := Option.some.inj (hs.symm.trans hres)
  cases hout with
  | inl hsame => exact absurd (congrArg AllocHistory.live hsame) hne
  | inr hadd =>
      obtain ⟨p, hlive, -⟩ := hadd
      exact AllocHistory.not_safe_of_big (p := p) hbig (by simp [hlive])

/-- Allocator arrays full of zeros. -/
def zeroAlloc : Alloc where
  buddy := ⟨fun _ => ⟨0, 0, none, none, 0, none, false⟩, fun _ => none⟩
  slabs _ := ⟨0, 0, 0, 0, 0, 0, fun _ => false, none, none⟩
  slabStart _ := none

/-- A boot with a one-page ramdisk and no reservations in the device tree. -/
def smallBoot : BootInfo := ⟨[], 0xffff000008000000, 0xffff000008001000⟩

/-- The frame after the kernel image is not reserved. -/
theorem smallBoot_frame (s : Buddy) :
    ((reserveAll s smallBoot.reservations).frames 0x6000).status = uninitFrame := by
  have hmiss : ∀ r ∈ smallBoot.reservations, Misses 0x6000 r := by decide
  unfold reserveAll
  rw [reserve_misses _ _ _ hmiss]
  rfl

/-- The first request for at most a frame is granted. -/
theorem AllocHistory.kmalloc_boot (size : Fin (2 ^ 32)) (h0 : size.val ≠ 0)
    (hord : size2order size = 0) :
    ∃ h' p, (boot zeroAlloc smallBoot).call (.kmalloc size) = some h' ∧
      h'.live = [(p, size.val)] := by
  obtain ⟨T, hok, -, hnl, hres⟩ := initAllocator_ok zeroAlloc smallBoot
  have hnr : T 0x6000 ≠ .reserved := fun hr => by
    have hst := (hres _).mp hr
    rw [smallBoot_frame] at hst
    exact absurd hst (by decide)
  have hfree : ∃ i m, i < totalFrame ∧ T i = .free m := by
    cases hok.buddy.exists_block (f := 0x6000) (by decide) with
    | inl hr => exact absurd hr hnr
    | inr hb =>
        obtain ⟨i, m, hi, ht, -⟩ := hb
        cases ht with
        | inl ht => exact ⟨i, m, hi, ht⟩
        | inr ht => exact absurd ht (hnl i m)
  obtain ⟨i, m, hi, hfree⟩ := hfree
  have hne := hok.mallocB_ne_zero hi hfree (show size2order size ≤ m by omega)
  have hk : RpiKernel.kmalloc size (initAllocator zeroAlloc smallBoot) =
      some (mallocB size (initAllocator zeroAlloc smallBoot)) := by
    unfold RpiKernel.kmalloc
    exact if_neg (by simpa [slabSize, slabSizes, slabType] using h0)
  refine ⟨⟨(mallocB size (initAllocator zeroAlloc smallBoot)).2, [((mallocB size
    (initAllocator zeroAlloc smallBoot)).1, size.val)]⟩, _, ?_, rfl⟩
  unfold call boot
  dsimp only
  rw [hk]
  dsimp only
  rw [if_neg hne]

theorem allocHistory_safe_first :
    ∃ h', (AllocHistory.boot zeroAlloc smallBoot).call (.kmalloc 100) = some h' ∧
      h'.live.length = 1 ∧ h'.Safe := by
  obtain ⟨h', p, hs, hlive⟩ := AllocHistory.kmalloc_boot 100 (by decide) (by decide)
  have hsmall : (AllocCall.kmalloc 100).Small := by decide
  have hreach : Reach AllocHistory.call (fun _ c => c.Small) (.boot zeroAlloc smallBoot) h' :=
    .step _ .init hsmall hs
  exact ⟨h', hs, by rw [hlive]; rfl, (allocHistory_safe zeroAlloc smallBoot h' hreach).1⟩

/-- Asking for `0xFFFFF001` bytes first thing yields a single frame. -/
theorem allocHistory_wraps :
    ¬ ∀ a info h, Reach AllocHistory.call (fun _ _ => True) (.boot a info) h → h.Safe := by
  intro hall
  obtain ⟨h', p, hs, hlive⟩ := AllocHistory.kmalloc_boot 0xFFFFF001 (by decide) (by decide)
  have hreach : Reach AllocHistory.call (fun _ _ => True) (.boot zeroAlloc smallBoot) h' :=
    .step _ .init trivial hs
  refine AllocHistory.not_safe_of_big (h := h') (p := p) (n := 0xFFFFF001) (by decide) ?_
    (hall _ _ h' hreach)
  rw [hlive]
  exact List.mem_singleton_self _

end RpiKernel
