import RpiKernel.Lib.Blocks

/-!
# RpiKernel.Boot.Relocation

The start of the boot loader, `a.S`: it moves itself below the address at which the kernel will be stored,
clears what the linker calls its `.bss`, and jumps to the moved `main`.  The kernel's start,
`boot.S`, clears its `.bss` by doublewords.
-/

namespace RpiKernel

open Arm Memory

/-! ## the loops -/

/-- `x1` to `x3` of the relocation, and the memory. -/
structure Relocation where
  x1 : Word
  x2 : Word
  x3 : Word
  mem : Memory

/-- `_relocate_remaining`. -/
def relocateRemaining (s : Relocation) : Relocation :=
  if _h : s.x2 = 0 then s
  else relocateRemaining
    { x1 := s.x1 + 1, x2 := s.x2 - 1, x3 := s.x3 + 1, mem := Function.update s.mem s.x3 (s.mem s.x1) }
termination_by s.x2.toNat
decreasing_by bv_omega

/-- A number that is not below eight as a signed one. -/
theorem eight_le_of_not_slt {w : Nat} {x : BitVec w} (hw : 4 < w) (h : ¬ x.slt 8) : 8 ≤ x.toNat := by
  by_contra hlt
  refine h (BitVec.slt_iff_toInt_lt.2 ?_)
  have hpow : 2 ^ 5 ≤ 2 ^ w := Nat.pow_le_pow_right (by decide) hw
  have h8 : (8 : BitVec w).toNat = 8 := Nat.mod_eq_of_lt (show 8 < 2 ^ w by omega)
  rw [BitVec.toInt_eq_toNat_of_lt (by omega), BitVec.toInt_eq_toNat_of_lt (by omega)]
  omega

/-- `_relocate_loop`, with `blt` a signed comparison. -/
def relocateLoop (s : Relocation) : Relocation :=
  if _h : s.x2.slt 8 then relocateRemaining s
  else relocateLoop
    { x1 := s.x1 + 8, x2 := s.x2 - 8, x3 := s.x3 + 8, mem := s.mem.store s.x3 (s.mem.load s.x1) }
termination_by s.x2.toNat
decreasing_by
  have := eight_le_of_not_slt (by decide) _h
  bv_omega

/-- `_clear_remaining`. -/
def clearRemaining (x1 : Word) (w2 : BitVec 32) (mem : Memory) : Memory :=
  if _h : w2 = 0 then mem
  else clearRemaining (x1 + 1) (w2 - 1) (Function.update mem x1 0)
termination_by w2.toNat
decreasing_by bv_omega

/-- `_clear_bss`. -/
def clearBss (x1 : Word) (w2 : BitVec 32) (mem : Memory) : Memory :=
  if _h : w2.slt 8 then clearRemaining x1 w2 mem
  else clearBss (x1 + 8) (w2 - 8) (mem.store x1 0)
termination_by w2.toNat
decreasing_by
  have := eight_le_of_not_slt (by decide) _h
  bv_omega

/-- `init_bss` of the kernel: `w2` doublewords. -/
def initBss (x1 : Word) (w2 : BitVec 32) (mem : Memory) : Memory :=
  if _h : w2 = 0 then mem
  else initBss (x1 + 8) (w2 - 1) (mem.store x1 0)
termination_by w2.toNat
decreasing_by bv_omega

/-- The symbols of `linker.ld`. -/
structure BootSymbols where
  bootloaderStart : Word
  bootloaderSize : Word
  relocationAddress : Word
  start : Word
  bssSectionStart : Word
  bssSize : BitVec 32
  main : Word

/-- What `main` of the boot loader starts with. -/
structure BootEntry where
  pc : Word
  sp : Word
  mem : Memory

/-- `_start` of the boot loader; only the main core gets past `_halt`.  The instructions are not read from
`mem`: it is the code only while the copy does not reach it (`BootSymbols.Fits`). -/
def bootloaderEntry (l : BootSymbols) (mpidr : Word) (mem : Memory) : Option BootEntry :=
  if mpidr &&& 3 = 0 then
    let s := relocateLoop ⟨l.bootloaderStart, l.bootloaderSize, l.relocationAddress, mem⟩
    some ⟨l.main - l.bootloaderStart + l.relocationAddress, l.start, clearBss l.bssSectionStart l.bssSize s.mem⟩
  else none

/-! ## what they do -/

theorem relocateRemaining_mem (s : Relocation) (h : (s.x1 - s.x3).toNat + s.x2.toNat ≤ 2 ^ 64) :
    (relocateRemaining s).mem = copy s.x1 s.x3 s.x2.toNat s.mem := by
  induction s using relocateRemaining.induct with
  | case1 s hz =>
      rw [relocateRemaining, dif_pos hz, hz]
      simp
  | case2 s hz ih =>
      have hsize : s.x2.toNat = 1 + (s.x2 - 1).toNat := by bv_omega
      rw [relocateRemaining, dif_neg hz, ih ?_, hsize, copy_add (by omega), update_load]
      · rfl
      · dsimp only
        rw [show s.x1 + 1 - (s.x3 + 1) = s.x1 - s.x3 by ring]
        omega

theorem relocateLoop_mem (s : Relocation) (h : (s.x1 - s.x3).toNat + s.x2.toNat ≤ 2 ^ 64) :
    (relocateLoop s).mem = copy s.x1 s.x3 s.x2.toNat s.mem := by
  induction s using relocateLoop.induct with
  | case1 s hlt => rw [relocateLoop, dif_pos hlt, relocateRemaining_mem s h]
  | case2 s hge ih =>
      have hle := eight_le_of_not_slt (by decide) hge
      have hsize : s.x2.toNat = 8 + (s.x2 - 8).toNat := by bv_omega
      rw [relocateLoop, dif_neg hge, ih ?_, hsize, copy_add (by omega), store_load]
      · rfl
      · dsimp only
        rw [show s.x1 + 8 - (s.x3 + 8) = s.x1 - s.x3 by ring]
        omega

theorem clearRemaining_eq (x1 : Word) (w2 : BitVec 32) (mem : Memory) :
    clearRemaining x1 w2 mem = clear x1 w2.toNat mem := by
  induction x1, w2, mem using clearRemaining.induct with
  | case1 x1 mem => simp [clearRemaining]
  | case2 x1 w2 mem hz ih =>
      have hsize : w2.toNat = 1 + (w2 - 1).toNat := by bv_omega
      have hlt := w2.isLt
      rw [clearRemaining, dif_neg hz, ih, hsize, clear_add (by omega), update_eq_clear]
      rfl

theorem clearBss_eq (x1 : Word) (w2 : BitVec 32) (mem : Memory) :
    clearBss x1 w2 mem = clear x1 w2.toNat mem := by
  induction x1, w2, mem using clearBss.induct with
  | case1 x1 w2 mem hlt => rw [clearBss, dif_pos hlt, clearRemaining_eq]
  | case2 x1 w2 mem hge ih =>
      have hle := eight_le_of_not_slt (by decide) hge
      have hsize : w2.toNat = 8 + (w2 - 8).toNat := by bv_omega
      have hlt := w2.isLt
      rw [clearBss, dif_neg hge, ih, hsize, clear_add (by omega), store_eq_clear]
      rfl

theorem initBss_eq (x1 : Word) (w2 : BitVec 32) (mem : Memory) :
    initBss x1 w2 mem = clear x1 (8 * w2.toNat) mem := by
  induction x1, w2, mem using initBss.induct with
  | case1 x1 mem => simp [initBss]
  | case2 x1 w2 mem hz ih =>
      have hsize : 8 * w2.toNat = 8 + 8 * (w2 - 1).toNat := by bv_omega
      have hlt := w2.isLt
      rw [initBss, dif_neg hz, ih, hsize, clear_add (by omega), store_eq_clear]
      rfl

/-- What is in memory when the boot loader jumps to its `main`, as far as the loops go. -/
theorem bootloaderEntry_mem {l : BootSymbols} {mpidr : Word} {mem : Memory} {e : BootEntry}
    (hfit : (l.bootloaderStart - l.relocationAddress).toNat + l.bootloaderSize.toNat ≤ 2 ^ 64)
    (h : bootloaderEntry l mpidr mem = some e) (x : Word) :
    e.mem x = if x ∈ span l.bssSectionStart l.bssSize.toNat then 0
      else if x ∈ span l.relocationAddress l.bootloaderSize.toNat then
        mem (l.bootloaderStart + (x - l.relocationAddress))
      else mem x := by
  rw [bootloaderEntry] at h
  split at h
  · obtain rfl := Option.some.inj h
    have hmem := relocateLoop_mem ⟨l.bootloaderStart, l.bootloaderSize, l.relocationAddress, mem⟩ hfit
    simp only [clearBss_eq, hmem, clear, copy]
  · contradiction

/-- The image is no longer than the distance it moves, so its copy ends below the code that runs; the `.bss`
is the end of the image, behind that code. -/
structure BootSymbols.Fits (l : BootSymbols) : Prop where
  below : l.relocationAddress.toNat + l.bootloaderSize.toNat ≤ l.bootloaderStart.toNat
  top : l.bootloaderStart.toNat + l.bootloaderSize.toNat ≤ 2 ^ 64
  bssStart : l.bootloaderStart.toNat ≤ l.bssSectionStart.toNat
  bssEnd : l.bssSectionStart.toNat + l.bssSize.toNat ≤ l.bootloaderStart.toNat + l.bootloaderSize.toNat

variable {l : BootSymbols} {x : Word}

/-- The `.bss` that is cleared is not a part of the copy. -/
theorem BootSymbols.Fits.apart (h : l.Fits) (hx : x ∈ span l.relocationAddress l.bootloaderSize.toNat) :
    x ∉ span l.bssSectionStart l.bssSize.toNat := by
  obtain ⟨hbelow, htop, hstart, hend⟩ := h
  rw [mem_span] at hx ⊢
  bv_omega

/-- Nor is anything of the image that was loaded. -/
theorem BootSymbols.Fits.loaded (h : l.Fits) (hx : x ∈ span l.bootloaderStart l.bootloaderSize.toNat) :
    x ∉ span l.relocationAddress l.bootloaderSize.toNat := by
  obtain ⟨hbelow, htop, -, -⟩ := h
  rw [mem_span] at hx ⊢
  bv_omega

/-- The boot loader's start, for every image that is not longer than the distance it moves: what is at the
new address is the image as it was loaded, with the `.bss` as it was too; the `.bss` that is cleared is the
one at the old address; and everything else is what it was, the code that runs among it. -/
theorem bootloaderEntry_memory {l : BootSymbols} {mpidr : Word} {mem : Memory} {e : BootEntry} (hl : l.Fits)
    (h : bootloaderEntry l mpidr mem = some e) :
    (∀ x ∈ span l.relocationAddress l.bootloaderSize.toNat,
      e.mem x = mem (l.bootloaderStart + (x - l.relocationAddress))) ∧
    (∀ x ∈ span l.bssSectionStart l.bssSize.toNat, e.mem x = 0) ∧
    (∀ x ∈ span l.bootloaderStart l.bootloaderSize.toNat, x ∉ span l.bssSectionStart l.bssSize.toNat →
      e.mem x = mem x) ∧
    ∀ x, x ∉ span l.relocationAddress l.bootloaderSize.toNat → x ∉ span l.bssSectionStart l.bssSize.toNat →
      e.mem x = mem x := by
  have hfit : (l.bootloaderStart - l.relocationAddress).toNat + l.bootloaderSize.toNat ≤ 2 ^ 64 := by
    obtain ⟨hbelow, htop, -, -⟩ := hl
    bv_omega
  have hmem := bootloaderEntry_mem hfit h
  refine ⟨fun x hx => ?_, fun x hx => ?_, fun x hx hbss => ?_, fun x hx hbss => ?_⟩
  · rw [hmem x, if_neg (hl.apart hx), if_pos hx]
  · rw [hmem x, if_pos hx]
  · rw [hmem x, if_neg hbss, if_neg (hl.loaded hx)]
  · rw [hmem x, if_neg hbss, if_neg hx]

/-- An image as long as the distance it moves. -/
def longLoader : BootSymbols := ⟨0x80000, 0x20000, 0x60000, 0x80000, 0x9fffd, 3, 0x80100⟩

theorem bootloaderEntry_memory_long : ∃ e, bootloaderEntry longLoader 0 (fun x => x.setWidth 8) = some e ∧
    (∀ x ∈ span 0x60000 0x20000, e.mem x = (0x80000 + (x - 0x60000)).setWidth 8) ∧
    ∀ x ∈ span 0x9fffd 3, e.mem x = 0 := by
  have hsome : (bootloaderEntry longLoader 0 (fun x => x.setWidth 8)).isSome := by
    rw [bootloaderEntry, if_pos (by decide)]
    rfl
  obtain ⟨e, he⟩ := Option.isSome_iff_exists.1 hsome
  have hmem := bootloaderEntry_memory (l := longLoader) ⟨by decide, by decide, by decide, by decide⟩ he
  exact ⟨e, he, hmem.1, hmem.2.1⟩

/-- `__bss_size` of the kernel, for a `.bss` of `n` bytes. -/
def bssWords (n : Nat) : BitVec 32 := BitVec.ofNat 32 (n >>> 3)

/-- The kernel clears its `.bss` as a whole exactly when its size is a multiple of eight; what is behind the
last doubleword keeps what was there. -/
theorem initBss_clears_iff (x1 : Word) {n : Nat} (hn : n < 2 ^ 35) :
    (∀ mem, ∀ x ∈ span x1 n, initBss x1 (bssWords n) mem x = 0) ↔ n % 8 = 0 := by
  have hwords : 8 * (bssWords n).toNat = n / 8 * 8 := by
    rw [bssWords, BitVec.toNat_ofNat, Nat.shiftRight_eq_div_pow]
    omega
  constructor
  case mp =>
    intro h
    by_contra hne
    have hmem : x1 + BitVec.ofNat 64 (n / 8 * 8) ∈ span x1 n := by
      rw [mem_span]
      bv_omega
    have hzero := h (fun _ => 1) _ hmem
    rw [initBss_eq, hwords, clear, if_neg] at hzero
    · exact absurd hzero (by decide)
    · rw [mem_span]
      bv_omega
  case mpr =>
    intro h mem x hx
    rw [initBss_eq, hwords, clear, if_pos]
    rwa [show n / 8 * 8 = n by omega]

theorem initBss_clears_iff_twelve :
    (∀ mem, ∀ x ∈ span 0x1000 12, initBss 0x1000 (bssWords 12) mem x = 0) ↔ 12 % 8 = 0 :=
  initBss_clears_iff 0x1000 (by decide)

end RpiKernel
