import RpiKernel.Vfs.Seek

/-!
# RpiKernel.Vfs.Framebuffer

`dev_framebuffer.c`: a file whose bytes are the pixels of the screen.

`dev_framebuffer_write` cuts the length to what is left of the screen, in arithmetic
that wraps; its writes keep to the screen just when the handle is on it and length and
position do not wrap (`framebuffer_onScreen`).  The complaint on the UART is left out.
-/

namespace RpiKernel

open Bytes Runs

/-- `pitch`, `height` and `lfb`, which the mailbox answered. -/
structure Screen where
  pitch : Nat
  height : Nat
  lfb : Nat

/-- `pitch * height`, a product of two `unsigned int`. -/
def Screen.size (d : Screen) : Nat := d.pitch * d.height % 2 ^ 32

namespace Vfs

/-- The `len` that `dev_framebuffer_write` gives to `memcpy`. -/
def framebufferLength (d : Screen) (len fPos : Nat) : Nat :=
  if (len + fPos) % 2 ^ 64 > d.size then (d.size + (2 ^ 64 - fPos)) % 2 ^ 64 else len

/-- `dev_framebuffer_write`, where `buf` is the memory from the buffer on: the value
returned and the state. -/
def devFramebufferWrite (d : Screen) (file : Nat) (buf : Nat → UInt8) (len : Nat) (s : Vfs) :
    Int × Vfs :=
  let f := s.files file
  let len := framebufferLength d len f.fPos
  (toInt len, { s with
    mem := storeBytes (d.lfb + f.fPos) (loadBytes 0 len buf) s.mem
    files := Function.update s.files file { f with fPos := (f.fPos + len) % 2 ^ 64 } })

/-- `dev_framebuffer_lseek64`. -/
def devFramebufferLseek64 (file : Nat) (offset whence : Int) (s : Vfs) : Int × Vfs :=
  s.seekFile file offset whence

end Vfs

/-! ## runs -/

/-- A call on the framebuffer, with a `size_t` or a `long`. -/
inductive FramebufferCall where
  | write (buf : Nat → UInt8) (len : UInt64)
  | lseek64 (offset : Int64) (whence : Int)

/-- One call through the handle `h`. -/
def FramebufferCall.step (d : Screen) (h : Nat) (s : Vfs) : FramebufferCall → Option Vfs
  | write buf len => some (s.devFramebufferWrite d h buf len.toNat).2
  | lseek64 offset whence => some (s.devFramebufferLseek64 h offset.toInt whence).2

namespace Vfs

variable {d : Screen} {s : Vfs} {h len : Nat}

/-! ## one write -/

/-- A write of `len` bytes, whatever they are, leaves the memory around the screen alone,
does not move the handle off the screen, and returns how many bytes it copied. -/
def OnScreen (d : Screen) (h len : Nat) (s : Vfs) : Prop :=
  ∀ buf, let r := s.devFramebufferWrite d h buf len
    (∀ x, x < d.lfb ∨ d.lfb + d.pitch * d.height ≤ x → r.2.mem x = s.mem x) ∧
      ((s.files h).fPos ≤ d.pitch * d.height → (r.2.files h).fPos ≤ d.pitch * d.height) ∧
      r.1 = framebufferLength d len (s.files h).fPos

/-- The handle is on the screen, length and position do not wrap, and what there is to copy
has a length that is an `int`. -/
def FitsScreen (d : Screen) (h len : Nat) (s : Vfs) : Prop :=
  (s.files h).fPos ≤ d.pitch * d.height ∧ len + (s.files h).fPos < 2 ^ 64 ∧
    min len (d.pitch * d.height - (s.files h).fPos) < 2 ^ 31

/-- The length is cut modulo 2^64. -/
theorem framebufferLength_eq_cut (hd : d.pitch * d.height < 2 ^ 32) (len fPos : Nat) :
    framebufferLength d len fPos = Clamp.cut (2 ^ 64) len fPos (d.pitch * d.height) := by
  have hsize : d.size = d.pitch * d.height := Nat.mod_eq_of_lt hd
  rw [← hsize]
  rfl

/-- A write keeps to the screen just when it fits. -/
theorem onScreen_iff (hd : d.pitch * d.height < 2 ^ 32) (hpos : (s.files h).fPos < 2 ^ 64)
    (hlen : len < 2 ^ 64) : s.OnScreen d h len ↔ s.FitsScreen d h len := by
  have hsize : d.pitch * d.height < 2 ^ 64 := by omega
  have hinside := Clamp.cut_inside_iff hpos hlen hsize
  have hkeep := fun hle : (s.files h).fPos ≤ d.pitch * d.height => Clamp.add_cut_le hle hlen hsize
  unfold OnScreen FitsScreen devFramebufferWrite
  simp only [framebufferLength_eq_cut hd, Function.update_self]
  generalize hn : Clamp.cut (2 ^ 64) len (s.files h).fPos (d.pitch * d.height) = n at hinside hkeep ⊢
  have hcut := fun hle hsum => hn.symm.trans (Clamp.cut_of_le hle (by omega) hsum)
  constructor
  · intro hon
    -- every byte that is copied differs from what was there
    obtain ⟨hmem, -, hret⟩ := hon fun i => s.mem (d.lfb + (s.files h).fPos + i) + 1
    have hin : ∀ i < n, (s.files h).fPos + i < d.pitch * d.height := by
      intro i hi
      refine Nat.lt_of_not_le fun hout => ?_
      have hsame := hmem (d.lfb + (s.files h).fPos + i) (Or.inr (by omega))
      rw [storeBytes_add (by rwa [length_loadBytes])] at hsame
      simp [loadBytes] at hsame
    obtain ⟨hle, hsum⟩ := hinside.1 hin
    have hmin := hcut hle hsum
    exact ⟨hle, hsum, hmin ▸ (toInt_eq_iff (by omega)).1 hret⟩
  · intro hfit buf
    obtain ⟨hle, hsum, hint⟩ := hfit
    have hmin := hcut hle hsum
    refine ⟨fun x hx => storeBytes_of_not_mem ?_, hkeep, (toInt_eq_iff (by omega)).2 (by omega)⟩
    rw [length_loadBytes]
    omega

/-! ## any number of calls -/

/-- A write keeps to the screen. -/
def FramebufferOnScreen (d : Screen) (h : Nat) (s : Vfs) : FramebufferCall → Prop
  | .write _ len => s.OnScreen d h len.toNat
  | .lseek64 _ _ => True

/-- A write fits. -/
def FramebufferFits (d : Screen) (h : Nat) (s : Vfs) : FramebufferCall → Prop
  | .write _ len => s.FitsScreen d h len.toNat
  | .lseek64 _ _ => True

/-- A call that asks for no more than can be added to a position on the screen. -/
def FramebufferInside (d : Screen) : FramebufferCall → Prop
  | .write _ len => len.toNat + d.pitch * d.height < 2 ^ 64
  | .lseek64 offset _ => 0 ≤ offset.toInt ∧ offset.toInt ≤ d.pitch * d.height

/-- Every call leaves a 64-bit position. -/
theorem framebufferStep_fPos {s' : Vfs} {c : FramebufferCall} (hpos : (s.files h).fPos < 2 ^ 64)
    (hs : c.step d h s = some s') : (s'.files h).fPos < 2 ^ 64 := by
  cases c with
  | write buf len =>
      obtain rfl := Option.some.inj hs
      simp only [devFramebufferWrite, Function.update_self]
      exact Nat.mod_lt _ (by decide)
  | lseek64 offset whence =>
      obtain rfl := Option.some.inj hs
      unfold devFramebufferLseek64 seekFile
      split
      · simp only [Function.update_self]
        omega
      · exact hpos

/-- Inside of the screen, every call leaves a position on it. -/
theorem framebufferStep_inside {s' : Vfs} {c : FramebufferCall} (hd : d.pitch * d.height < 2 ^ 32)
    (hpos : (s.files h).fPos ≤ d.pitch * d.height) (hc : FramebufferInside d c)
    (hs : c.step d h s = some s') : (s'.files h).fPos ≤ d.pitch * d.height := by
  cases c with
  | write buf len =>
      obtain rfl := Option.some.inj hs
      simp only [devFramebufferWrite, Function.update_self, framebufferLength_eq_cut hd]
      exact Clamp.add_cut_le hpos len.toNat_lt (by omega)
  | lseek64 offset whence =>
      obtain rfl := Option.some.inj hs
      unfold FramebufferInside at hc
      unfold devFramebufferLseek64 seekFile
      split
      · simp only [Function.update_self]
        omega
      · exact hpos

end Vfs

open Vfs in
/-- **Writes keep to the screen** in a run of calls through a new handle if and only if each of
them fits; on a screen of less than 2^31 bytes they do when no offset is off the screen and
no length is so large that it wraps. -/
theorem framebuffer_onScreen {d : Screen} {s : Vfs} {node : Nat} (h flags : Nat)
    (hd : d.pitch * d.height < 2 ^ 32) (hops : (s.vnodes node).fOps = .framebuffer)
    (cs : List FramebufferCall) :
    (Always (FramebufferCall.step d h) (FramebufferOnScreen d h) (s.openNode node h flags) cs ↔
      Always (FramebufferCall.step d h) (FramebufferFits d h) (s.openNode node h flags) cs) ∧
    (d.pitch * d.height < 2 ^ 31 → (∀ c ∈ cs, FramebufferInside d c) →
      Always (FramebufferCall.step d h) (FramebufferOnScreen d h) (s.openNode node h flags) cs) := by
  have hzero : ((s.openNode node h flags).files h).fPos = 0 := by simp [openNode, openHandle, hops]
  have hiff : ∀ s' c, (s'.files h).fPos < 2 ^ 64 → (FramebufferOnScreen d h s' c ↔ FramebufferFits d h s' c) := by
    intro s' c hpos
    cases c with
    | write buf len => exact onScreen_iff hd hpos len.toNat_lt
    | lseek64 => exact Iff.rfl
  constructor
  case left => exact Always.iff hiff (fun _ _ _ hpos _ hs => framebufferStep_fPos hpos hs) (by omega)
  case right =>
    intro hint hcs
    refine Always.of_inv (I := fun s' => (s'.files h).fPos ≤ d.pitch * d.height) (fun s' c hpos hc => ?_)
      (fun _ _ _ hpos hc hs => framebufferStep_inside hd hpos hc hs) (by omega) hcs
    refine (hiff s' c (by omega)).2 ?_
    cases c with
    | write buf len =>
        unfold FramebufferInside at hc
        exact ⟨hpos, by omega, by omega⟩
    | lseek64 => trivial

/-- A vnode of the framebuffer. -/
def framebufferVfs : Vfs := { zeroVfs with vnodes := fun _ => ⟨0, .tmpfs, .framebuffer, 0⟩ }

open Vfs in
/-- Two pixels, on a screen of four. -/
theorem framebuffer_onScreen_two : Always (FramebufferCall.step ⟨8, 2, 0x3c100000⟩ 8)
    (FramebufferOnScreen ⟨8, 2, 0x3c100000⟩ 8) (framebufferVfs.openNode 0 8 0)
    [.write (fun _ => 0xff) 4, .lseek64 12 0, .write (fun _ => 0xff) 8] := by
  refine (framebuffer_onScreen 8 0 (by decide) rfl _).2 (by decide) ?_
  simp [FramebufferInside]

open Vfs in
set_option maxRecDepth 20000 in
/-- **A write off the screen.**  Behind its first byte, a write of 2^64 - 1 bytes is not cut. -/
theorem framebuffer_wraps : ¬ Always (FramebufferCall.step ⟨8, 2, 0x3c100000⟩ 8)
    (FramebufferOnScreen ⟨8, 2, 0x3c100000⟩ 8) (framebufferVfs.openNode 0 8 0)
    [.write (fun _ => 0xff) 1, .write (fun _ => 0xff) 0xffffffffffffffff] := by
  intro h
  have hon : OnScreen ⟨8, 2, 0x3c100000⟩ 8 (2 ^ 64 - 1) _ := (h.2 _ rfl).1
  have hfits := ((onScreen_iff (by decide) (by decide) (by decide)).1 hon).2.1
  exact absurd hfits (by decide)

end RpiKernel
