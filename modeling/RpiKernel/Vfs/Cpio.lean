import RpiKernel.Lib.Words
import RpiKernel.Utils.Strncmp
import Mathlib.Data.List.Forall2
import Mathlib.Tactic.Common

/-!
# RpiKernel.Vfs.Cpio

Reading a newc archive (`parse_hex_str` and `cpio_newc_parse_header` in
`cpio.c`), and the format itself: `CpioEntry name data b` says that the bytes
`b` are one entry, with the hexadecimal digits of its header in either case
and with arbitrary padding.

The main result is `cpioNewcParseHeader_entry`: the header of an entry leads to
its name, its data, the exact length of the data and the next entry.  What
memory has to hold for that is `EntryAt`, so that other readers can start from
there, too.
-/

namespace RpiKernel

open Bytes

/-! ## the code -/

/-- `CPIO_NEWC_HEADER_MAGIC`, without its `NUL`. -/
def cpioNewcHeaderMagic : List UInt8 := [48, 55, 48, 55, 48, 49]

/-- `"TRAILER!!!"`, without its `NUL`. -/
def trailerName : List UInt8 := [84, 82, 65, 73, 76, 69, 82, 33, 33, 33]

/-- `sizeof(struct cpio_header)`, and where `c_filesize` and `c_namesize` are. -/
def cpioHeaderBytes : Nat := 110
def cFilesizeOffset : Nat := 54
def cNamesizeOffset : Nat := 94

/-- `strncmp(s1, s2, n)`, for a literal `s2` of `n` bytes. -/
def strncmp (mem : Nat → UInt8) (s1 : Nat) : List UInt8 → Int
  | [] => 0
  | c2 :: s2 =>
      let c1 := mem s1
      if c1 = 0 ∨ c1 ≠ c2 then c1.toNat - c2.toNat else strncmp mem (s1 + 1) s2

/-- The value of a hexadecimal digit. -/
def hexDigit (c : UInt8) : Option Nat :=
  if 48 ≤ c ∧ c ≤ 57 then some (c.toNat - 48)
  else if 97 ≤ c ∧ c ≤ 102 then some (c.toNat - 97 + 10)
  else if 65 ≤ c ∧ c ≤ 70 then some (c.toNat - 65 + 10)
  else none

/-- The loop of `parse_hex_str`, with the number of characters left and `r`. -/
def parseHexLoop (mem : Nat → UInt8) : Nat → Nat → Nat → Nat
  | _, 0, r => r
  | s, n + 1, r =>
      let r := r * 16 % 2 ^ 32
      match hexDigit (mem s) with
      | some d => parseHexLoop mem (s + 1) n ((r + d) % 2 ^ 32)
      | none => r

/-- `parse_hex_str`. -/
def parseHexStr (mem : Nat → UInt8) (s maxLen : Nat) : Nat := parseHexLoop mem s maxLen 0

/-- Rounding an `unsigned int` up to a multiple of 4. -/
def alignFour (offset : Nat) : Nat :=
  if offset % 4 = 0 then offset else (offset + 4 - offset % 4) % 2 ^ 32

/-- What `cpio_newc_parse_header` stores. -/
structure ParsedHeader where
  pathname : Nat
  filesize : Nat
  data : Nat
  nextHeader : Nat
deriving DecidableEq

/-- `cpio_newc_parse_header`; `none` is its return value -1. -/
def cpioNewcParseHeader (mem : Nat → UInt8) (header : Nat) : Option ParsedHeader :=
  if strncmp mem header cpioNewcHeaderMagic ≠ 0 then none
  else
    let filesize := parseHexStr mem (header + cFilesizeOffset) 8
    let pathname := header + cpioHeaderBytes
    let pathnameLength := parseHexStr mem (header + cNamesizeOffset) 8
    let data := header + alignFour ((pathnameLength + cpioHeaderBytes) % 2 ^ 32)
    let nextHeader := if filesize = 0 then data else data + alignFour filesize
    let nextHeader := if strncmp mem pathname (trailerName ++ [0]) = 0 then 0 else nextHeader
    some ⟨pathname, filesize, data, nextHeader⟩

/-! ## comparing -/

variable {mem : Nat → UInt8} {p : Nat} {b b' : List UInt8}

/-- Comparing with what is in memory, up to its `NUL`. -/
theorem strncmp_eq_zero (hb : 0 ∉ b) (h : HoldsAt mem p b) : strncmp mem p b = 0 := by
  induction b generalizing p with
  | nil => rfl
  | cons c b ih =>
      have hc := holdsAt_cons.1 h
      simp only [List.mem_cons, not_or] at hb
      rw [strncmp, hc.1, if_neg (by simp [Ne.symm hb.1])]
      exact ih hb.2 hc.2

/-- Comparing strings with their `NUL`. -/
theorem strncmp_string {name lit : List UInt8} (hname : 0 ∉ name) (hlit : 0 ∉ lit)
    (h : HoldsAt mem p (name ++ [0])) : strncmp mem p (lit ++ [0]) = 0 ↔ name = lit := by
  induction lit generalizing p name with
  | nil =>
      cases name with
      | nil =>
          have hc := holdsAt_cons.1 h
          simp [strncmp, hc.1]
      | cons c name =>
          have hc := holdsAt_cons.1 h
          simp only [List.mem_cons, not_or] at hname
          have hne : c ≠ 0 := Ne.symm hname.1
          have hpos : c.toNat ≠ 0 := fun h0 => hne (UInt8.toNat_inj.1 h0)
          simp [strncmp, hc.1, hne, hpos]
  | cons l lit ih =>
      simp only [List.mem_cons, not_or] at hlit
      have hl : l.toNat ≠ 0 := fun h0 => hlit.1 (UInt8.toNat_inj.1 h0.symm)
      cases name with
      | nil =>
          have hc := holdsAt_cons.1 h
          simp [strncmp, hc.1, hl]
      | cons c name =>
          have hc := holdsAt_cons.1 h
          simp only [List.mem_cons, not_or] at hname
          rw [List.cons_append, strncmp]
          by_cases he : c = l
          · subst he
            simp [hc.1, Ne.symm hname.1, ih hname.2 hlit.2 hc.2]
          · have hcl : ((c.toNat : Int) - l.toNat) ≠ 0 := fun h0 =>
              he (UInt8.toNat_inj.1 (by omega))
            simp [hc.1, he, hcl]

/-! ## the format -/

/-- A hexadecimal digit of value `d`, in either case. -/
def IsHexDigit (d : Nat) (c : UInt8) : Prop :=
  (d < 10 ∧ c.toNat = 48 + d) ∨ (10 ≤ d ∧ d < 16 ∧ (c.toNat = 55 + d ∨ c.toNat = 87 + d))

instance (d : Nat) (c : UInt8) : Decidable (IsHexDigit d c) := inferInstanceAs (Decidable (_ ∨ _))

/-- A field of eight hexadecimal digits with the value `n`, the first digit the
most significant. -/
def IsHexField (n : Nat) (b : List UInt8) : Prop :=
  ∃ ds : List Nat, ds.length = 8 ∧ List.Forall₂ IsHexDigit ds b ∧
    ds.foldl (fun r d => r * 16 + d) 0 = n

/-- `struct cpio_header`. -/
structure CpioHeader where
  ino : List UInt8
  mode : List UInt8
  uid : List UInt8
  gid : List UInt8
  nlink : List UInt8
  mtime : List UInt8
  filesize : List UInt8
  devmajor : List UInt8
  devminor : List UInt8
  rdevmajor : List UInt8
  rdevminor : List UInt8
  namesize : List UInt8
  check : List UInt8

namespace CpioHeader

/-- The fields in front of the file size, between it and the name size, and
behind. -/
def before (h : CpioHeader) : List (List UInt8) :=
  [cpioNewcHeaderMagic, h.ino, h.mode, h.uid, h.gid, h.nlink, h.mtime]

def between (h : CpioHeader) : List (List UInt8) :=
  [h.devmajor, h.devminor, h.rdevmajor, h.rdevminor]

/-- The header as it stands in the archive. -/
def bytes (h : CpioHeader) : List UInt8 :=
  h.before.flatten ++ h.filesize ++ h.between.flatten ++ h.namesize ++ h.check

/-- Every field is a number, and two of them are the sizes. -/
structure Ok (h : CpioHeader) (namesize filesize : Nat) : Prop where
  fields : ∀ f ∈ [h.ino, h.mode, h.uid, h.gid, h.nlink, h.mtime, h.devmajor, h.devminor,
    h.rdevmajor, h.rdevminor, h.check], ∃ n, IsHexField n f
  filesize : IsHexField filesize h.filesize
  namesize : IsHexField namesize h.namesize

end CpioHeader

/-- One entry of an archive: the header, the name with its `NUL`, the data,
and what fills each of the last two up to a multiple of four bytes. -/
def CpioEntry (name data b : List UInt8) : Prop :=
  ∃ (h : CpioHeader) (pad pad' : List UInt8), h.Ok (name.length + 1) data.length ∧
    b = h.bytes ++ (name ++ [0]) ++ pad ++ data ++ pad' ∧
    pad.length < 4 ∧ (cpioHeaderBytes + (name.length + 1) + pad.length) % 4 = 0 ∧
    pad'.length < 4 ∧ (data.length + pad'.length) % 4 = 0

/-- Where the data of an entry are, and how long it is. -/
def dataOffset (name : List UInt8) : Nat := upToFour (cpioHeaderBytes + (name.length + 1))

def entryBytes (name data : List UInt8) : Nat := dataOffset name + upToFour data.length

/-- An archive of files: their entries and the trailer. -/
inductive CpioArchive : List (List UInt8 × List UInt8) → List UInt8 → Prop
  | trailer {b : List UInt8} : CpioEntry trailerName [] b → CpioArchive [] b
  | file {name data b rest : List UInt8} {files : List (List UInt8 × List UInt8)} :
      CpioEntry name data b → CpioArchive files rest → CpioArchive ((name, data) :: files) (b ++ rest)

/-! ## reading it -/

theorem IsHexDigit.hexDigit {d : Nat} {c : UInt8} (h : IsHexDigit d c) : hexDigit c = some d := by
  unfold RpiKernel.hexDigit
  simp only [UInt8.le_iff_toNat_le, UInt8.reduceToNat]
  rcases h with ⟨hd, hc⟩ | ⟨hd, hd', hc | hc⟩
  · simp [hc, show 48 + d ≤ 57 by omega]
  · simp [hc, show ¬ 55 + d ≤ 57 by omega, show ¬ 97 ≤ 55 + d by omega,
      show 65 ≤ 55 + d by omega, show 55 + d ≤ 70 by omega]
    omega
  · simp [hc, show ¬ 87 + d ≤ 57 by omega, show 97 ≤ 87 + d by omega,
      show 87 + d ≤ 102 by omega]
    omega

theorem IsHexDigit.lt {d : Nat} {c : UInt8} (h : IsHexDigit d c) : d < 16 := by
  rcases h with ⟨h, -⟩ | ⟨-, h, -⟩ <;> omega

/-- One more digit stays below what the digits to come leave room for. -/
theorem hex_room {r d k m : Nat} (hd : d < 16) (h : (r + 1) * 16 ^ (k + 1) ≤ m) :
    (r * 16 + d + 1) * 16 ^ k ≤ m ∧ r * 16 + d < m := by
  have hpow : 1 ≤ 16 ^ k := Nat.pow_pos (by decide)
  have hroom : (r * 16 + d + 1) * 16 ^ k ≤ m := by
    refine Nat.le_trans (Nat.mul_le_mul_right _ (show r * 16 + d + 1 ≤ (r + 1) * 16 by omega)) ?_
    rwa [Nat.mul_assoc, ← Nat.pow_succ']
  exact ⟨hroom, Nat.le_trans (Nat.le_mul_of_pos_right _ hpow) hroom⟩

/-- The loop reads the digits that are there. -/
theorem parseHexLoop_digits {ds : List Nat} (hd : List.Forall₂ IsHexDigit ds b)
    (h : HoldsAt mem p b) (r : Nat) (hr : (r + 1) * 16 ^ b.length ≤ 2 ^ 32) :
    parseHexLoop mem p b.length r = ds.foldl (fun r d => r * 16 + d) r := by
  induction hd generalizing p r with
  | nil => rfl
  | @cons d c ds b hdc _ ih =>
      have hc := holdsAt_cons.1 h
      obtain ⟨hroom, hlt⟩ := hex_room hdc.lt hr
      have h₁ : r * 16 % 2 ^ 32 = r * 16 := Nat.mod_eq_of_lt (by omega)
      have h₂ : (r * 16 + d) % 2 ^ 32 = r * 16 + d := Nat.mod_eq_of_lt hlt
      simp only [List.length_cons, parseHexLoop, h₁, hc.1, hdc.hexDigit, h₂, List.foldl_cons]
      exact ih hc.2 _ hroom

theorem IsHexField.length {n : Nat} (h : IsHexField n b) : b.length = 8 := by
  obtain ⟨ds, hlen, hd, -⟩ := h
  rw [← hd.length_eq, hlen]

/-- A field reads back as its value. -/
theorem IsHexField.parse {n : Nat} (h : IsHexField n b) (hm : HoldsAt mem p b) :
    parseHexStr mem p 8 = n := by
  have hlen := h.length
  obtain ⟨ds, -, hd, rfl⟩ := h
  have hloop := parseHexLoop_digits hd hm 0 (by rw [hlen]; decide)
  rwa [hlen] at hloop

namespace CpioHeader

variable {h : CpioHeader} {namesize filesize : Nat}

theorem Ok.length_before (hk : h.Ok namesize filesize) : h.before.flatten.length = 54 := by
  obtain ⟨hf, -, -⟩ := hk
  simp only [List.forall_mem_cons] at hf
  obtain ⟨⟨_, h₁⟩, ⟨_, h₂⟩, ⟨_, h₃⟩, ⟨_, h₄⟩, ⟨_, h₅⟩, ⟨_, h₆⟩, -⟩ := hf
  simp [before, cpioNewcHeaderMagic, h₁.length, h₂.length, h₃.length, h₄.length, h₅.length,
    h₆.length]

theorem Ok.length_between (hk : h.Ok namesize filesize) : h.between.flatten.length = 32 := by
  obtain ⟨hf, -, -⟩ := hk
  simp only [List.forall_mem_cons] at hf
  obtain ⟨-, -, -, -, -, -, ⟨_, h₁⟩, ⟨_, h₂⟩, ⟨_, h₃⟩, ⟨_, h₄⟩, -⟩ := hf
  simp [between, h₁.length, h₂.length, h₃.length, h₄.length]

theorem Ok.length_check (hk : h.Ok namesize filesize) : h.check.length = 8 := by
  obtain ⟨hf, -, -⟩ := hk
  simp only [List.forall_mem_cons] at hf
  obtain ⟨-, -, -, -, -, -, -, -, -, -, ⟨_, h₁⟩, -⟩ := hf
  exact h₁.length

/-- A header has `sizeof(struct cpio_header)` bytes. -/
theorem Ok.length_bytes (hk : h.Ok namesize filesize) : h.bytes.length = cpioHeaderBytes := by
  simp only [bytes, List.length_append, hk.length_before, hk.filesize.length, hk.length_between,
    hk.namesize.length, hk.length_check, cpioHeaderBytes]

/-- The two sizes are where `struct cpio_header` has them, behind the magic. -/
theorem Ok.held (hk : h.Ok namesize filesize) (hm : HoldsAt mem p h.bytes) :
    HoldsAt mem p cpioNewcHeaderMagic ∧ HoldsAt mem (p + cFilesizeOffset) h.filesize ∧
      HoldsAt mem (p + cNamesizeOffset) h.namesize := by
  simp only [bytes, holdsAt_append, List.length_append, hk.length_before, hk.filesize.length,
    hk.length_between] at hm
  obtain ⟨⟨⟨⟨hbefore, hfilesize⟩, -⟩, hnamesize⟩, -⟩ := hm
  rw [before, List.flatten_cons, holdsAt_append] at hbefore
  exact ⟨hbefore.1, hfilesize, hnamesize⟩

end CpioHeader

/-- Memory holds an entry at `p`: what a reader looks at, and where. -/
structure EntryAt (mem : Nat → UInt8) (p : Nat) (name data : List UInt8) : Prop where
  magic : HoldsAt mem p cpioNewcHeaderMagic
  filesize : ∃ f, IsHexField data.length f ∧ HoldsAt mem (p + cFilesizeOffset) f
  namesize : ∃ f, IsHexField (name.length + 1) f ∧ HoldsAt mem (p + cNamesizeOffset) f
  pathname : HoldsAt mem (p + cpioHeaderBytes) (name ++ [0])
  data : HoldsAt mem (p + dataOffset name) data

theorem CpioEntry.length {name data : List UInt8} (he : CpioEntry name data b) :
    b.length = entryBytes name data := by
  obtain ⟨h, pad, pad', hk, rfl, hpad, hpad4, hpad', hpad4'⟩ := he
  simp only [List.length_append, List.length_singleton, hk.length_bytes, entryBytes, dataOffset,
    upToFour_eq hpad hpad4, upToFour_eq hpad' hpad4']
  omega

theorem CpioEntry.entryAt {name data : List UInt8} (he : CpioEntry name data b) (hm : HoldsAt mem p b) :
    EntryAt mem p name data := by
  obtain ⟨h, pad, pad', hk, rfl, hpad, hpad4, -, -⟩ := he
  simp only [holdsAt_append, List.length_append, List.length_singleton, hk.length_bytes] at hm
  obtain ⟨⟨⟨⟨hheader, hn, hn0⟩, -⟩, hd⟩, -⟩ := hm
  obtain ⟨hmagic, hfilesize, hnamesize⟩ := hk.held hheader
  refine ⟨hmagic, ⟨_, hk.filesize, hfilesize⟩, ⟨_, hk.namesize, hnamesize⟩, holdsAt_append.2 ⟨hn, hn0⟩, ?_⟩
  rwa [dataOffset, upToFour_eq hpad hpad4]

/-- Memory holds an archive at `p`. -/
inductive ArchiveAt (mem : Nat → UInt8) : Nat → List (List UInt8 × List UInt8) → Prop
  | trailer {p : Nat} : EntryAt mem p trailerName [] → ArchiveAt mem p []
  | file {p : Nat} {name data : List UInt8} {files : List (List UInt8 × List UInt8)} :
      EntryAt mem p name data → ArchiveAt mem (p + entryBytes name data) files →
      ArchiveAt mem p ((name, data) :: files)

theorem CpioArchive.archiveAt {files : List (List UInt8 × List UInt8)} (ha : CpioArchive files b)
    (hm : HoldsAt mem p b) : ArchiveAt mem p files := by
  induction ha generalizing p with
  | trailer he => exact .trailer (he.entryAt hm)
  | file he _ ih =>
      obtain ⟨hb, hrest⟩ := holdsAt_append.1 hm
      rw [he.length] at hrest
      exact .file (he.entryAt hb) (ih hrest)

/-- Rounding up, where the multiple of four is an `unsigned int`. -/
theorem alignFour_eq {n : Nat} (hn : upToFour n < 2 ^ 32) : alignFour n = upToFour n := by
  unfold alignFour upToFour at *
  split <;> omega

/-- Reading the header of an entry: the name and the data are where they are,
the size is exact, and the next header stands behind the entry unless this is
the trailer. -/
theorem cpioNewcParseHeader_entry {name data : List UInt8} (he : EntryAt mem p name data)
    (hname : 0 ∉ name) (hlen : dataOffset name < 2 ^ 32) (hdata : upToFour data.length < 2 ^ 32) :
    cpioNewcParseHeader mem p = some ⟨p + cpioHeaderBytes, data.length, p + dataOffset name,
      if name = trailerName then 0 else p + entryBytes name data⟩ := by
  obtain ⟨f, hf, hfm⟩ := he.filesize
  obtain ⟨g, hg, hgm⟩ := he.namesize
  have hmagic := strncmp_eq_zero (by decide) he.magic
  have htrailer := strncmp_string hname (show 0 ∉ trailerName by decide) he.pathname
  have hle : cpioHeaderBytes + (name.length + 1) ≤ dataOffset name := by
    unfold dataOffset upToFour
    omega
  have hoff : alignFour ((name.length + 1 + cpioHeaderBytes) % 2 ^ 32) = dataOffset name := by
    rw [Nat.mod_eq_of_lt (by omega), Nat.add_comm (name.length + 1)]
    exact alignFour_eq hlen
  have hnext : (if data.length = 0 then p + dataOffset name
      else p + dataOffset name + alignFour data.length) = p + entryBytes name data := by
    rw [alignFour_eq hdata, entryBytes]
    split
    next h0 => simp [h0, upToFour]
    next => omega
  simp only [cpioNewcParseHeader, hmagic, hf.parse hfm, hg.parse hgm, hoff, htrailer, hnext, ne_eq,
    not_true_eq_false, if_false]

end RpiKernel
