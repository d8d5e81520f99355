import RpiKernel.Lib.Orbit
import RpiKernel.Vfs.Initramfs

/-!
# RpiKernel.Vfs.Loading

The loop of `initramfs_setup_mount` over arbitrary bytes.  Each header says
where the next one is, so the loop follows `nextFile` from
`CPIO_DEFAULT_START` on.

Two things can go wrong, and nothing else (`initramfsSetupMount_stores_iff`):

* a header that leads to itself (`StandsStill`): its namesize and its filesize
  are such that both offsets wrap to 0 when they are rounded up;
* more headers than `entry` has places: nothing compares `idx` with
  `INITRAMFS_MAX_DIR_ENTRY`.
-/

namespace RpiKernel

open Bytes Orbits

/-! ## one header -/

variable {mem : Nat → UInt8} {p q : Nat}

/-- `c_namesize` and `c_filesize` of the header at `p`, as the code reads them. -/
def namesizeAt (mem : Nat → UInt8) (p : Nat) : Nat := parseHexStr mem (p + cNamesizeOffset) 8

def filesizeAt (mem : Nat → UInt8) (p : Nat) : Nat := parseHexStr mem (p + cFilesizeOffset) 8

/-- Both sizes of the header at `p` wrap to 0 when they are rounded up, the
first one with the `sizeof(struct cpio_header)` that is added to it. -/
def StandsStill (mem : Nat → UInt8) (p : Nat) : Prop :=
  2 ^ 32 - 113 ≤ namesizeAt mem p ∧ namesizeAt mem p ≤ 2 ^ 32 - 110 ∧
    (filesizeAt mem p = 0 ∨ 2 ^ 32 - 3 ≤ filesizeAt mem p)

instance (mem : Nat → UInt8) (p : Nat) : Decidable (StandsStill mem p) :=
  inferInstanceAs (Decidable (_ ∧ _))

/-- The header behind the file whose header is at `p`; `none` where the loop
makes no node: at `NULL`, without the magic, and at the trailer. -/
def nextFile (mem : Nat → UInt8) (p : Nat) : Option Nat :=
  if p = 0 then none
  else
    match cpioNewcParseHeader mem p with
    | none => none
    | some h => if h.nextHeader = 0 then none else some h.nextHeader

theorem parseHexLoop_lt (n : Nat) {r : Nat} (hr : r < 2 ^ 32) : parseHexLoop mem p n r < 2 ^ 32 := by
  induction n generalizing p r with
  | zero => exact hr
  | succ n ih =>
      simp only [parseHexLoop]
      split
      · exact ih (Nat.mod_lt _ (by decide))
      · exact Nat.mod_lt _ (by decide)

theorem parseHexStr_lt (n : Nat) : parseHexStr mem p n < 2 ^ 32 := parseHexLoop_lt n (by decide)

/-- Rounding up gives 0 for 0 and where it wraps. -/
theorem alignFour_eq_zero_iff {n : Nat} (hn : n < 2 ^ 32) : alignFour n = 0 ↔ n = 0 ∨ 2 ^ 32 - 3 ≤ n := by
  unfold alignFour
  split <;> omega

/-- Where the header behind an accepted one is. -/
theorem nextHeader_eq {ph : ParsedHeader} (h : cpioNewcParseHeader mem p = some ph)
    (hnext : ph.nextHeader ≠ 0) :
    ph.nextHeader = p + alignFour ((namesizeAt mem p + cpioHeaderBytes) % 2 ^ 32) +
      (if filesizeAt mem p = 0 then 0 else alignFour (filesizeAt mem p)) := by
  unfold cpioNewcParseHeader at h
  split at h
  next => contradiction
  next =>
    obtain rfl := Option.some.inj h
    dsimp only at hnext ⊢
    by_cases htrailer : strncmp mem (p + cpioHeaderBytes) (trailerName ++ [0]) = 0
    · rw [if_pos htrailer] at hnext
      contradiction
    · unfold filesizeAt namesizeAt
      rw [if_neg htrailer]
      split <;> rfl

theorem cpioNewcParseHeader_magic {ph : ParsedHeader} (h : cpioNewcParseHeader mem p = some ph) :
    strncmp mem p cpioNewcHeaderMagic = 0 := by
  unfold cpioNewcParseHeader at h
  split at h
  next => contradiction
  next hmagic => exact not_not.1 hmagic

theorem nextFile_eq_some : nextFile mem p = some q ↔
    p ≠ 0 ∧ ∃ h, cpioNewcParseHeader mem p = some h ∧ h.nextHeader ≠ 0 ∧ h.nextHeader = q := by
  unfold nextFile
  by_cases hp : p = 0
  · simp [hp]
  · cases hparse : cpioNewcParseHeader mem p with
    | none => simp [hp]
    | some ph =>
        by_cases hnext : ph.nextHeader = 0 <;> simp [hp, hnext]

/-- An accepted header leads on, except for one that stands still, which leads
to itself. -/
theorem nextFile_lt_iff (h : nextFile mem p = some q) : p < q ↔ ¬ StandsStill mem p := by
  obtain ⟨-, ph, hparse, hne, rfl⟩ := nextFile_eq_some.1 h
  have hq := nextHeader_eq hparse hne
  have hname : (namesizeAt mem p + cpioHeaderBytes) % 2 ^ 32 < 2 ^ 32 := Nat.mod_lt _ (by decide)
  have hn : namesizeAt mem p < 2 ^ 32 := parseHexStr_lt 8
  have hsize : filesizeAt mem p < 2 ^ 32 := parseHexStr_lt 8
  have hbytes : cpioHeaderBytes = 110 := rfl
  have hz := alignFour_eq_zero_iff hname
  have hf := alignFour_eq_zero_iff hsize
  unfold StandsStill
  split at hq <;> omega

theorem nextFile_self (h : nextFile mem p = some q) (hs : StandsStill mem p) : nextFile mem p = some p := by
  have hlt : ¬ p < q := fun hlt => (nextFile_lt_iff h).1 hlt hs
  obtain ⟨-, ph, hparse, hne, rfl⟩ := nextFile_eq_some.1 h
  have hq := nextHeader_eq hparse hne
  rw [h, show ph.nextHeader = p by omega]

/-! ## the loop -/

/-- The loop of `initramfs_setup_mount`, in at most `n` passes: the places of
`entry` it stores to, and whether it has ended. -/
def entryStores (mem : Nat → UInt8) : Nat → Nat → Nat → List Nat × Bool
  | 0, _, _ => ([], false)
  | n + 1, idx, headerPointer =>
      if headerPointer = 0 then ([], true)
      else
        match cpioNewcParseHeader mem headerPointer with
        | none => ([], true)
        | some h =>
            if h.nextHeader = 0 then entryStores mem n idx 0
            else
              let (stores, ended) := entryStores mem n (idx + 1) h.nextHeader
              (idx :: stores, ended)

variable {n idx : Nat}

theorem entryStores_some (h : nextFile mem p = some q) : entryStores mem (n + 1) idx p =
    (idx :: (entryStores mem n (idx + 1) q).1, (entryStores mem n (idx + 1) q).2) := by
  obtain ⟨hp, ph, hparse, hne, rfl⟩ := nextFile_eq_some.1 h
  simp [entryStores, hp, hparse, hne]

theorem entryStores_none (h : nextFile mem p = none) :
    (entryStores mem n idx p).1 = [] ∧ (entryStores mem (n + 2) idx p).2 = true := by
  have hzero : ∀ n, (entryStores mem n idx 0).1 = [] := by
    intro n
    cases n <;> simp [entryStores]
  unfold nextFile at h
  split at h
  next hp =>
    subst hp
    exact ⟨hzero n, by simp [entryStores]⟩
  next hp =>
    cases hparse : cpioNewcParseHeader mem p with
    | none => cases n <;> simp [entryStores, hp, hparse]
    | some ph =>
        by_cases hnext : ph.nextHeader = 0
        · cases n <;> simp [entryStores, hp, hparse, hnext, hzero]
        · simp [hparse, hnext] at h

/-- The places are stored to in order, one for each header that leads on. -/
theorem entryStores_fst :
    (entryStores mem n idx p).1 = List.range' idx (orbit (nextFile mem) n p).length := by
  induction n generalizing idx p with
  | zero => rfl
  | succ n ih =>
      cases h : nextFile mem p with
      | none => simp [orbit_none h, (entryStores_none h).1]
      | some q => simp [entryStores_some h, orbit_some h, ih, List.range'_succ]

theorem lt_of_ended (h : (entryStores mem n idx p).2 = true) :
    (orbit (nextFile mem) n p).length < n := by
  induction n generalizing idx p with
  | zero => contradiction
  | succ n ih =>
      cases hq : nextFile mem p with
      | none => simp [orbit_none hq]
      | some q =>
          rw [entryStores_some hq] at h
          rw [orbit_some hq, List.length_cons]
          exact Nat.succ_lt_succ (ih h)

theorem ended_of_length_orbit (h : (orbit (nextFile mem) n p).length < n) :
    (entryStores mem (n + 1) idx p).2 = true := by
  induction n generalizing idx p with
  | zero => contradiction
  | succ n ih =>
      cases hq : nextFile mem p with
      | none => exact (entryStores_none hq).2
      | some q =>
          rw [orbit_some hq, List.length_cons] at h
          rw [entryStores_some hq]
          exact ih (Nat.lt_of_succ_lt_succ h)

/-- The loop ends where the way through the headers does. -/
theorem ended_iff : (∃ n, (entryStores mem n idx p).2 = true) ↔ Ends (nextFile mem) p := by
  constructor
  case mp => exact fun ⟨n, hn⟩ => ⟨n, lt_of_ended hn⟩
  case mpr => exact fun ⟨n, hn⟩ => ⟨n + 1, ended_of_length_orbit hn⟩

/-- The stores stay in `entry` exactly as long as it has a place for every header. -/
theorem entryStores_inside : (∀ i ∈ (entryStores mem n 0 p).1, i < initramfsMaxDirEntry) ↔
    (orbit (nextFile mem) n p).length ≤ initramfsMaxDirEntry := by
  simp only [entryStores_fst, List.mem_range'_1, Nat.zero_le, true_and, Nat.zero_add]
  constructor
  case mp =>
    intro h
    by_contra hlt
    have hmax := h initramfsMaxDirEntry (by omega)
    omega
  case mpr => exact fun h i hi => Nat.lt_of_lt_of_le hi h

namespace Vfs

/-- The loop that stops at the end of `entry` gets through exactly where the
loop ends and stores inside of `entry`. -/
theorem initramfsLoop_isSome {ramdir : Nat} {s : Vfs} :
    (initramfsLoop ramdir n idx p s).isSome = true ↔
      (entryStores s.mem n idx p).2 = true ∧
        ∀ i ∈ (entryStores s.mem n idx p).1, i < initramfsMaxDirEntry := by
  induction n generalizing idx p s with
  | zero => simp [initramfsLoop, entryStores]
  | succ n ih =>
      unfold initramfsLoop entryStores
      by_cases hp : p = 0
      · simp [hp]
      · cases hparse : cpioNewcParseHeader s.mem p with
        | none => simp [hp]
        | some ph =>
            by_cases hnext : ph.nextHeader = 0
            · simp [hp, hnext, ih]
            · by_cases hidx : idx < initramfsMaxDirEntry
              · simp [hp, hnext, hidx, ih]
              · simp [hp, hnext, hidx]

/-- The header at `p` is that of a file, and the loop comes to it. -/
def FileReached (s : Vfs) (p : Nat) : Prop :=
  Reaches (nextFile s.mem) s.cpioDefaultStart p ∧ ∃ q, nextFile s.mem p = some q

/-- The loop of `initramfs_setup_mount` ends. -/
def LoadingEnds (s : Vfs) : Prop := ∃ n, (entryStores s.mem n 0 s.cpioDefaultStart).2 = true

/-- The loop of `initramfs_setup_mount` stores to no place outside of `entry`. -/
def LoadingInside (s : Vfs) : Prop :=
  ∀ n, ∀ i ∈ (entryStores s.mem n 0 s.cpioDefaultStart).1, i < initramfsMaxDirEntry

/-- Both, as `initramfs_setup_mount` with its check of the places has it. -/
theorem initramfsSetupMount_isSome {s : Vfs} (mount : Nat) :
    (∃ n, (s.initramfsSetupMount n mount).isSome = true) ↔ LoadingEnds s ∧ LoadingInside s := by
  have hmem : (s.initramfsRoot mount).mem = s.mem := rfl
  simp only [initramfsSetupMount_eq, initramfsLoop_isSome, hmem]
  constructor
  case mp =>
    intro ⟨n, hend, hin⟩
    refine ⟨⟨n, hend⟩, fun m => entryStores_inside.2 ?_⟩
    exact Nat.le_trans (length_orbit_of_ended (lt_of_ended hend) m) (entryStores_inside.1 hin)
  case mpr => exact fun ⟨⟨n, hn⟩, hin⟩ => ⟨n, hn, hin n⟩

/-! ## when it goes well -/

variable {s : Vfs}

/-- Without a header that stands still the loop only goes up. -/
theorem nextFile_up (h : ∀ p, FileReached s p → ¬ StandsStill s.mem p) (p q : Nat)
    (hr : Reaches (nextFile s.mem) s.cpioDefaultStart p) (hq : nextFile s.mem p = some q) : p < q :=
  (nextFile_lt_iff hq).2 (h p ⟨hr, q, hq⟩)

/-- A header that stands still keeps the loop from ending. -/
theorem not_standsStill_of_ends (h : LoadingEnds s) (p : Nat) (hp : FileReached s p) :
    ¬ StandsStill s.mem p := by
  intro hs
  obtain ⟨hr, q, hq⟩ := hp
  exact hr.not_ends (nextFile_self hq hs) (ended_iff.1 h)

theorem loadingEnds_iff (hfin : {p | strncmp s.mem p cpioNewcHeaderMagic = 0}.Finite) :
    LoadingEnds s ↔ ∀ p, FileReached s p → ¬ StandsStill s.mem p := by
  constructor
  case mp => exact not_standsStill_of_ends
  case mpr =>
    intro h
    refine ended_iff.2 (Ends.of_finite hfin (nextFile_up h) fun p q hq => ?_)
    obtain ⟨-, ph, hparse, -⟩ := nextFile_eq_some.1 hq
    exact cpioNewcParseHeader_magic hparse

/-- The loop that ends stores inside of `entry` when it comes to no more files
than there are places. -/
theorem loadingInside_iff (h : LoadingEnds s) : LoadingInside s ↔
    ∀ ps : List Nat, ps.Nodup → (∀ p ∈ ps, FileReached s p) → ps.length ≤ initramfsMaxDirEntry := by
  constructor
  case mp =>
    intro hin ps hnd hps
    obtain ⟨n, hn⟩ := h
    exact Nat.le_trans (length_le_orbit (lt_of_ended hn) hnd hps) (entryStores_inside.1 (hin n))
  case mpr =>
    intro hcount n
    have hup := nextFile_up (not_standsStill_of_ends h)
    exact entryStores_inside.2 (hcount _ (nodup_orbit hup) fun _ hp => reaches_of_mem hp)

end Vfs

open Vfs in
/-- Over any bytes: an accepted header leads on unless it stands still; where
the magic is at finitely many addresses, the loop of `initramfs_setup_mount`
ends exactly when it comes to no header that stands still; and it ends and
stores inside of `entry` exactly when, besides, it comes to at most
`INITRAMFS_MAX_DIR_ENTRY` files. -/
theorem initramfsSetupMount_stores_iff (s : Vfs)
    (hfin : {p | strncmp s.mem p cpioNewcHeaderMagic = 0}.Finite) :
    (∀ p q, nextFile s.mem p = some q → (p < q ↔ ¬ StandsStill s.mem p)) ∧
      (LoadingEnds s ↔ ∀ p, FileReached s p → ¬ StandsStill s.mem p) ∧
      (LoadingEnds s ∧ LoadingInside s ↔ (∀ p, FileReached s p → ¬ StandsStill s.mem p) ∧
        ∀ ps : List Nat, ps.Nodup → (∀ p ∈ ps, FileReached s p) →
          ps.length ≤ initramfsMaxDirEntry) := by
  refine ⟨fun p q => nextFile_lt_iff, loadingEnds_iff hfin, ?_⟩
  rw [← loadingEnds_iff hfin]
  exact and_congr_right loadingInside_iff

/-- Memory that is 0 behind `b` has the magic at finitely many addresses. -/
theorem magic_finite (a : Nat) (b : List UInt8) (h : ∀ x, mem x = b.getD (x - a) 0) :
    {p | strncmp mem p cpioNewcHeaderMagic = 0}.Finite := by
  refine (Set.finite_lt_nat (a + b.length)).subset fun p hp => ?_
  by_contra hk
  rw [Set.mem_ofPred_eq, Nat.not_lt] at hk
  have h0 : mem p = 0 := by
    rw [h, List.getD_eq_getElem?_getD, List.getElem?_eq_none (by omega), Option.getD_none]
  simp only [Set.mem_ofPred_eq, cpioNewcHeaderMagic, strncmp, h0, true_or, if_true] at hp
  contradiction

open Vfs in
/-- Loading the archive with one file ends, and it has no header that stands still. -/
theorem initramfsSetupMount_stores_small :
    LoadingEnds smallArchiveVfs ∧ ∀ p, FileReached smallArchiveVfs p → ¬ StandsStill smallArchiveVfs.mem p := by
  have hfin : {p | strncmp smallArchiveVfs.mem p cpioNewcHeaderMagic = 0}.Finite :=
    magic_finite 0x1000 smallArchive fun _ => by simp only [smallArchiveVfs]
  have hends : LoadingEnds smallArchiveVfs := ⟨4, by decide +kernel⟩
  exact ⟨hends, (initramfsSetupMount_stores_iff smallArchiveVfs hfin).2.1.1 hends⟩

/-- The header of an empty file whose name is said to have 0xffffff92 bytes. -/
def standingHeader : List UInt8 :=
  (plainHeader [102, 102, 102, 102, 102, 102, 57, 50] (List.replicate 8 48)).bytes

/-- Memory with that header at 0x1000. -/
def standingVfs : Vfs where
  __ := zeroVfs
  cpioDefaultStart := 0x1000
  mem x := standingHeader.getD (x - 0x1000) 0

open Vfs in
/-- Over that header the loop does not end, and stores behind `entry`. -/
theorem standingVfs_stores : {p | strncmp standingVfs.mem p cpioNewcHeaderMagic = 0}.Finite ∧
    ¬ LoadingEnds standingVfs ∧ ¬ LoadingInside standingVfs := by
  have hself : nextFile standingVfs.mem 0x1000 = some 0x1000 := by decide +kernel
  refine ⟨magic_finite 0x1000 standingHeader fun _ => by simp only [standingVfs], fun hend => ?_, fun hin => ?_⟩
  · exact Reaches.not_ends .refl hself (ended_iff.1 hend)
  · have hlen := entryStores_inside.1 (hin (initramfsMaxDirEntry + 1))
    rw [show standingVfs.cpioDefaultStart = 0x1000 from rfl, length_orbit_self hself] at hlen
    omega

end RpiKernel
