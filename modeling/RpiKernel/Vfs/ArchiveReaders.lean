import RpiKernel.Utils.StringCompare
import RpiKernel.Utils.Words
import RpiKernel.Vfs.Initramfs

/-!
# RpiKernel.Vfs.ArchiveReaders

The other reader of the archive (`find_file` and `cpio_find_program` in
`cpio.c`), which compares names by `utils_string_compare`, and when it gives the
same as a lookup in the directory of `initramfs_setup_mount`
(`cpioFindProgram_eq_lookup_iff`): on the way to the file every comparison has
to come out right, and the size of the file has to be a multiple of four,
because `cpio_find_program` returns it rounded up.
-/

namespace RpiKernel

open Bytes Vfs

/-! ## the code -/

/-- The loop of `utils_HexStr2Int`, with the number of characters left and `num`. -/
def hexStr2IntLoop (mem : Nat → UInt8) : Nat → Nat → Nat → Nat
  | _, 0, num => num
  | s, n + 1, num =>
      let num := num * 16 % 2 ^ 64
      match hexDigit (mem s) with
      | some d => hexStr2IntLoop mem (s + 1) n ((num + d) % 2 ^ 64)
      | none => hexStr2IntLoop mem (s + 1) n num

/-- `utils_HexStr2Int`. -/
def utilsHexStr2Int (mem : Nat → UInt8) (s charSize : Nat) : Nat := hexStr2IntLoop mem s charSize 0

/-- `header_pathname_size` and `original_file_size` of the header at `addr`. -/
def headerPathnameSize (mem : Nat → UInt8) (addr : Nat) : Nat :=
  utilsAlign ((cpioHeaderBytes + utilsHexStr2Int mem (addr + cNamesizeOffset) 8) % 2 ^ 64) 4

def originalFileSize (mem : Nat → UInt8) (addr : Nat) : Nat :=
  utilsHexStr2Int mem (addr + cFilesizeOffset) 8

/-- The loop of `find_file` from `addr` on, in at most `n` rounds; `literal` is
where the code has `"TRAILER!!!"`. -/
def findFile (mem : Nat → UInt8) (literal name : Nat) : Nat → Nat → Option Nat
  | 0, _ => none
  | n + 1, addr =>
      (utilsStringCompare (whole mem) (whole mem) n (addr + cpioHeaderBytes) literal).bind fun r =>
        if r ≠ 0 then some 0
        else
          (utilsStringCompare (whole mem) (whole mem) n (addr + cpioHeaderBytes) name).bind fun r =>
            if r ≠ 0 then some addr
            else findFile mem literal name n
              (addr + (headerPathnameSize mem addr + utilsAlign (originalFileSize mem addr) 4))

/-- `cpio_find_program`: `*filesize` and `*data`, or `none` when it returns 0. -/
def cpioFindProgram (mem : Nat → UInt8) (start literal filename n : Nat) : Option (Option (Nat × Nat)) :=
  (findFile mem literal filename n start).map fun target =>
    if target = 0 then none
    else some (utilsAlign (originalFileSize mem target) 4 % 2 ^ 32, target + headerPathnameSize mem target)

/-! ## numbers -/

variable {mem : Nat → UInt8} {p : Nat} {b : List UInt8}

theorem hexStr2IntLoop_digits {ds : List Nat} (hd : List.Forall₂ IsHexDigit ds b)
    (h : HoldsAt mem p b) (r : Nat) (hr : (r + 1) * 16 ^ b.length ≤ 2 ^ 64) :
    hexStr2IntLoop mem p b.length r = ds.foldl (fun r d => r * 16 + d) r := by
  induction hd generalizing p r with
  | nil => rfl
  | @cons d c ds b hdc _ ih =>
      have hc := holdsAt_cons.1 h
      obtain ⟨hroom, hlt⟩ := hex_room hdc.lt hr
      have h₁ : r * 16 % 2 ^ 64 = r * 16 := Nat.mod_eq_of_lt (by omega)
      have h₂ : (r * 16 + d) % 2 ^ 64 = r * 16 + d := Nat.mod_eq_of_lt hlt
      simp only [List.length_cons, hexStr2IntLoop, h₁, hc.1, hdc.hexDigit, h₂, List.foldl_cons]
      exact ih hc.2 _ hroom

/-- A field reads back as its value here, too. -/
theorem IsHexField.hexStr2Int {n : Nat} (h : IsHexField n b) (hm : HoldsAt mem p b) :
    utilsHexStr2Int mem p 8 = n := by
  have hlen := h.length
  obtain ⟨ds, -, hd, rfl⟩ := h
  have hloop := hexStr2IntLoop_digits hd hm 0 (by rw [hlen]; decide)
  rwa [hlen] at hloop

/-- What this reader makes of the sizes of an entry. -/
theorem EntryAt.sizes {name data : List UInt8} (h : EntryAt mem p name data)
    (hname : dataOffset name < 2 ^ 32) (hdata : upToFour data.length < 2 ^ 32) :
    headerPathnameSize mem p = dataOffset name ∧
      utilsAlign (originalFileSize mem p) 4 = upToFour data.length := by
  obtain ⟨f, hf, hfm⟩ := h.filesize
  obtain ⟨g, hg, hgm⟩ := h.namesize
  unfold upToFour at hdata
  unfold dataOffset upToFour at hname
  constructor
  · rw [headerPathnameSize, hg.hexStr2Int hgm, Nat.mod_eq_of_lt (by omega), utilsAlign_four (by omega),
      dataOffset]
  · rw [originalFileSize, hf.hexStr2Int hfm, utilsAlign_four (by omega)]

/-! ## the way through the archive -/

variable {literal nameAt : Nat} {name : List UInt8} {files : List (List UInt8 × List UInt8)}

/-- What a reader has to give for `name`: the size and the address of the file that is called so. -/
def target (name : List UInt8) (l : List (Nat × List UInt8 × List UInt8)) : Option (Nat × Nat) :=
  (l.find? fun af => af.2.1 = name).map fun af => (af.2.2.length, af.1 + dataOffset af.2.1)

/-- Every comparison on the way to the file called `name` comes out right, or the
one with `"TRAILER!!!"` ends the way where no such file follows; and the size of the
file is a multiple of four. -/
def GoesRight (mem : Nat → UInt8) (literal nameAt : Nat) (name : List UInt8) :
    List (Nat × List UInt8 × List UInt8) → Prop
  | [] => True
  | (a, f) :: l =>
      if f.1 = name then Compares mem (a + cpioHeaderBytes) literal 0 ∧ f.2.length % 4 = 0
      else
        (Compares mem (a + cpioHeaderBytes) literal 1 ∧ ∀ af ∈ l, af.2.1 ≠ name) ∨
          (Compares mem (a + cpioHeaderBytes) literal 0 ∧ Compares mem (a + cpioHeaderBytes) nameAt 0 ∧
            GoesRight mem literal nameAt name l)

/-- `cpio_find_program` from the header at `p` on gives `x`. -/
def Finds (mem : Nat → UInt8) (literal nameAt p : Nat) (x : Option (Nat × Nat)) : Prop :=
  ∃ n, cpioFindProgram mem p literal nameAt n = some x

theorem findFile_mono {n m addr k : Nat} (hm : n ≤ m) (h : findFile mem literal nameAt n addr = some k) :
    findFile mem literal nameAt m addr = some k := by
  induction n generalizing addr m with
  | zero => contradiction
  | succ n ih =>
      obtain ⟨m, rfl⟩ := Nat.exists_eq_succ_of_ne_zero (Nat.ne_of_gt (Nat.zero_lt_of_lt hm))
      have hle := Nat.le_of_succ_le_succ hm
      unfold findFile at h ⊢
      obtain ⟨r, hr, h⟩ := Option.bind_eq_some_iff.1 h
      rw [utilsStringCompare_rounds hle hr, Option.bind_some]
      split at h
      next hne => rwa [if_pos hne]
      next hne =>
        obtain ⟨r', hr', h⟩ := Option.bind_eq_some_iff.1 h
        rw [if_neg hne, utilsStringCompare_rounds hle hr', Option.bind_some]
        split at h
        next hne' => rwa [if_pos hne']
        next hne' => rw [if_neg hne', ih hle h]

/-- One round of the loop. -/
theorem findFile_round (mem : Nat → UInt8) (literal nameAt p k : Nat) :
    (∃ n, findFile mem literal nameAt n p = some k) ↔
    (Compares mem (p + cpioHeaderBytes) literal 1 ∧ k = 0) ∨
      (Compares mem (p + cpioHeaderBytes) literal 0 ∧ Compares mem (p + cpioHeaderBytes) nameAt 1 ∧ k = p) ∨
      (Compares mem (p + cpioHeaderBytes) literal 0 ∧ Compares mem (p + cpioHeaderBytes) nameAt 0 ∧
        ∃ n, findFile mem literal nameAt n
          (p + (headerPathnameSize mem p + utilsAlign (originalFileSize mem p) 4)) = some k) := by
  constructor
  case mp =>
    intro ⟨n, h⟩
    cases n with
    | zero => contradiction
    | succ n =>
        unfold findFile at h
        obtain ⟨r, hr, h⟩ := Option.bind_eq_some_iff.1 h
        have hle := utilsStringCompare_le_one hr
        split at h
        next hne =>
          obtain rfl : r = 1 := by omega
          exact .inl ⟨⟨n, hr⟩, (Option.some.inj h).symm⟩
        next hne =>
          obtain rfl : r = 0 := not_not.1 hne
          obtain ⟨r', hr', h⟩ := Option.bind_eq_some_iff.1 h
          have hle' := utilsStringCompare_le_one hr'
          split at h
          next hne' =>
            obtain rfl : r' = 1 := by omega
            exact .inr (.inl ⟨⟨n, hr⟩, ⟨n, hr'⟩, (Option.some.inj h).symm⟩)
          next hne' =>
            obtain rfl : r' = 0 := not_not.1 hne'
            exact .inr (.inr ⟨⟨n, hr⟩, ⟨n, hr'⟩, n, h⟩)
  case mpr =>
    intro h
    rcases h with ⟨⟨n, hn⟩, rfl⟩ | ⟨⟨n, hn⟩, ⟨m, hm⟩, rfl⟩ | ⟨⟨n, hn⟩, ⟨m, hm⟩, l, hl⟩
    · exact ⟨n + 1, by simp [findFile, hn]⟩
    · refine ⟨max n m + 1, ?_⟩
      simp [findFile, utilsStringCompare_rounds (Nat.le_max_left n m) hn,
        utilsStringCompare_rounds (Nat.le_max_right n m) hm]
    · refine ⟨max l (max n m) + 1, ?_⟩
      have hn' := utilsStringCompare_rounds (show n ≤ max l (max n m) by omega) hn
      have hm' := utilsStringCompare_rounds (show m ≤ max l (max n m) by omega) hm
      simp [findFile, hn', hm', findFile_mono (Nat.le_max_left l _) hl]

theorem finds_eq {p : Nat} {x : Option (Nat × Nat)} : Finds mem literal nameAt p x ↔
    ∃ k, (∃ n, findFile mem literal nameAt n p = some k) ∧
      (if k = 0 then none
        else some (utilsAlign (originalFileSize mem k) 4 % 2 ^ 32, k + headerPathnameSize mem k)) = x := by
  simp only [Finds, cpioFindProgram, Option.map_eq_some_iff]
  constructor
  case mp => exact fun ⟨n, k, hk, hx⟩ => ⟨k, ⟨n, hk⟩, hx⟩
  case mpr => exact fun ⟨k, ⟨n, hk⟩, hx⟩ => ⟨n, k, hk, hx⟩

theorem finds_iff {p : Nat} {x : Option (Nat × Nat)} {f : List UInt8 × List UInt8} (hp : p ≠ 0)
    (he : EntryAt mem p f.1 f.2) (hname : dataOffset f.1 < 2 ^ 32) (hdata : upToFour f.2.length < 2 ^ 32) :
    Finds mem literal nameAt p x ↔
      (Compares mem (p + cpioHeaderBytes) literal 1 ∧ x = none) ∨
        (Compares mem (p + cpioHeaderBytes) literal 0 ∧ Compares mem (p + cpioHeaderBytes) nameAt 1 ∧
          x = some (upToFour f.2.length, p + dataOffset f.1)) ∨
        (Compares mem (p + cpioHeaderBytes) literal 0 ∧ Compares mem (p + cpioHeaderBytes) nameAt 0 ∧
          Finds mem literal nameAt (p + entryBytes f.1 f.2) x) := by
  obtain ⟨hsize, halign⟩ := he.sizes hname hdata
  have hround := findFile_round mem literal nameAt p
  simp only [hsize, halign, show p + (dataOffset f.1 + upToFour f.2.length) = p + entryBytes f.1 f.2 from rfl]
    at hround
  rw [finds_eq, finds_eq]
  constructor
  case mp =>
    intro ⟨k, hk, hx⟩
    rcases (hround k).1 hk with ⟨hlit, rfl⟩ | ⟨hlit, hnm, rfl⟩ | ⟨hlit, hnm, hrest⟩
    · exact .inl ⟨hlit, hx.symm⟩
    · rw [if_neg hp, hsize, halign, Nat.mod_eq_of_lt hdata] at hx
      exact .inr (.inl ⟨hlit, hnm, hx.symm⟩)
    · exact .inr (.inr ⟨hlit, hnm, k, hrest, hx⟩)
  case mpr =>
    intro h
    rcases h with ⟨hlit, rfl⟩ | ⟨hlit, hnm, rfl⟩ | ⟨hlit, hnm, k, hrest, hx⟩
    · exact ⟨0, (hround 0).2 (.inl ⟨hlit, rfl⟩), rfl⟩
    · refine ⟨p, (hround p).2 (.inr (.inl ⟨hlit, hnm, rfl⟩)), ?_⟩
      rw [if_neg hp, hsize, halign, Nat.mod_eq_of_lt hdata]
    · exact ⟨k, (hround k).2 (.inr (.inr ⟨hlit, hnm, hrest⟩)), hx⟩

/-- The data of the files behind an address are behind it, too. -/
theorem target_lt {l : List (List UInt8 × List UInt8)} {p size data : Nat}
    (h : target name (placed p l) = some (size, data)) : p < data := by
  induction l generalizing p with
  | nil => contradiction
  | cons f l ih =>
      unfold target placed at h
      by_cases hf : f.1 = name
      · simp only [List.find?_cons, hf, decide_true, Option.map_some, Option.some.injEq,
          Prod.mk.injEq] at h
        have hpos : 0 < dataOffset name := by
          unfold dataOffset upToFour cpioHeaderBytes
          omega
        omega
      · simp only [List.find?_cons, hf, decide_false] at h
        have hlt := ih h
        omega

theorem target_eq_none {l : List (Nat × List UInt8 × List UInt8)} :
    target name l = none ↔ ∀ af ∈ l, af.2.1 ≠ name := by
  simp [target]

/-- The first reader finds what it has to find exactly when the comparisons on its way
go right. -/
theorem finds_target_iff {p : Nat} (ha : ArchiveAt mem p files) (hp : p ≠ 0)
    (hfiles : ∀ f ∈ files, FileFits f ∧ ∀ c ∈ f.1, isLineEnd c = false) (hname : 0 ∉ name)
    (hlit : HoldsAt mem literal (trailerName ++ [0])) (hnm : HoldsAt mem nameAt (name ++ [0])) :
    Finds mem literal nameAt p (target name (placed p files)) ↔
      GoesRight mem literal nameAt name (placed p files) := by
  induction ha with
  | @trailer p he =>
      have htrailer : Compares mem (p + cpioHeaderBytes) literal 1 :=
        compares_of_separates (s := trailerName) (by decide +kernel) (by decide +kernel) (by decide +kernel)
          he.pathname hlit
      rw [finds_iff (f := (trailerName, [])) hp he (by decide +kernel) (by decide +kernel)]
      exact ⟨fun _ => trivial, fun _ => .inl ⟨htrailer, rfl⟩⟩
  | @file p fname data files he _ ih =>
      obtain ⟨⟨⟨hnul, -, hoff, hdata⟩, hline⟩, hrest⟩ := List.forall_mem_cons.1 hfiles
      have ih := ih (show p + entryBytes fname data ≠ 0 by omega) hrest
      rw [finds_iff (f := (fname, data)) hp he hoff hdata, placed, GoesRight]
      by_cases hf : fname = name
      · subst hf
        have hsame : Compares mem (p + cpioHeaderBytes) nameAt 1 := by
          have hvis : EndsVisible fname := fun c hc => hline c (List.mem_of_getLast? hc)
          have hans := compares_of_separates (.inr ⟨rfl, hvis, hvis⟩) hnul hnul he.pathname hnm
          rwa [if_pos rfl] at hans
        have htarget : target fname ((p, fname, data) :: placed (p + entryBytes fname data) files) =
            some (data.length, p + dataOffset fname) := by simp [target]
        rw [if_pos rfl, htarget]
        simp only [reduceCtorEq, and_false, false_or, Option.some.injEq, Prod.mk.injEq, and_true]
        constructor
        case mp =>
          intro h
          cases h with
          | inl h =>
              obtain ⟨hlit, -, hup⟩ := h
              unfold upToFour at hup
              exact ⟨hlit, by omega⟩
          | inr h => exact absurd (hsame.unique h.2.1) (by decide)
        case mpr =>
          intro h
          obtain ⟨hlit, h4⟩ := h
          refine .inl ⟨hlit, hsame, ?_⟩
          unfold upToFour
          omega
      · have htarget : target name ((p, fname, data) :: placed (p + entryBytes fname data) files) =
            target name (placed (p + entryBytes fname data) files) := by simp [target, hf]
        have hfar : target name (placed (p + entryBytes fname data) files) ≠
            some (upToFour data.length, p + dataOffset fname) := by
          intro h
          have hlt := target_lt h
          unfold entryBytes at hlt
          omega
        rw [if_neg hf, htarget, ih, target_eq_none]
        simp only [hfar, and_false, false_or]

/-- In particular they go right when no name in the archive is the beginning of
`"TRAILER!!!"` or of another name, or the other way round, and every size is a multiple
of four. -/
theorem goesRight_of_separates {p : Nat} (ha : ArchiveAt mem p files)
    (hfiles : ∀ f ∈ files, FileFits f ∧ (∀ c ∈ f.1, isLineEnd c = false) ∧ f.2.length % 4 = 0)
    (hsep : ∀ f ∈ files, Separates f.1 trailerName ∧ (f.1 ≠ name → Separates f.1 name))
    (hname : 0 ∉ name) (hline : ∀ c ∈ name, isLineEnd c = false)
    (hlit : HoldsAt mem literal (trailerName ++ [0])) (hnm : HoldsAt mem nameAt (name ++ [0])) :
    GoesRight mem literal nameAt name (placed p files) := by
  induction ha with
  | trailer _ => trivial
  | @file p fname data files he _ ih =>
      obtain ⟨⟨⟨hnul, htrailer, -, -⟩, hvis, hsize⟩, hfiles⟩ := List.forall_mem_cons.1 hfiles
      obtain ⟨⟨hsep₁, hsep₂⟩, hsep⟩ := List.forall_mem_cons.1 hsep
      have hans₁ := compares_of_separates hsep₁ hnul (by decide +kernel) he.pathname hlit
      rw [strip_of_visible hvis, strip_of_visible (by decide +kernel), if_neg htrailer] at hans₁
      rw [placed, GoesRight]
      by_cases hf : fname = name
      · rw [if_pos hf]
        exact ⟨hans₁, hsize⟩
      · have hans₂ := compares_of_separates (hsep₂ hf) hnul hname he.pathname hnm
        rw [strip_of_visible hvis, strip_of_visible hline, if_neg hf] at hans₂
        rw [if_neg hf]
        exact .inr ⟨hans₁, hans₂, ih hfiles hsep⟩

/-! ## the directory -/

namespace Vfs

variable {s : Vfs} {vs : List Nat}

/-- A lookup among the nodes of an archive gives the file of that name. -/
theorem find_node {p : Nat} (ha : ArchiveAt mem p files) (hmem : s.mem = mem)
    (hfiles : ∀ f ∈ files, 0 ∉ f.1) (hname : 0 ∉ name)
    (hall : List.Forall₂ (fun v af => IsNode s v af.1 af.2) vs (placed p files)) :
    ((vs.find? fun v => sameString s.mem (name.map byteChar) (s.ramInode v).name).map
      fun v => ((s.ramInode v).datasize, (s.ramInode v).data)) = target name (placed p files) := by
  induction ha generalizing vs with
  | trailer _ =>
      cases hall
      rfl
  | @file p fname data files he _ ih =>
      cases hall with
      | @cons v _ vs _ hv hall =>
          obtain ⟨hnul, hrest⟩ := List.forall_mem_cons.1 hfiles
          have hheld : HoldsAt s.mem (s.ramInode v).name (fname ++ [0]) := by
            rw [hmem, hv.name]
            exact he.pathname
          have hsame := sameString_iff hname hnul hheld
          have ih := ih hrest hall
          by_cases hf : name = fname
          · simp [target, placed, hf ▸ hsame.2 hf, hf, hv.datasize, hv.data]
          · rw [List.find?_cons, Bool.eq_false_iff.2 fun h => hf (hsame.1 h), ih]
            simp [target, placed, Ne.symm hf]

end Vfs

/-- Every entry is shorter than the archive. -/
theorem CpioArchive.entryBytes_le (ha : CpioArchive files b) :
    ∀ f ∈ files, entryBytes f.1 f.2 ≤ b.length := by
  induction ha with
  | trailer _ => simp
  | file he _ ih =>
      rw [List.forall_mem_cons, List.length_append, he.length]
      exact ⟨Nat.le_add_right _ _, fun f hf => Nat.le_trans (ih f hf) (Nat.le_add_left _ _)⟩

/-- Over a newc archive of at most `INITRAMFS_MAX_DIR_ENTRY` files with names
without line ends, `cpio_find_program` returns what a lookup in the directory of
`initramfs_setup_mount` gives, the size and the address of the data or nothing,
if and only if the comparisons on its way to the file go right and the size of the
file is a multiple of four.  The device tree has the ends of the archive as 32 bit
addresses. -/
theorem cpioFindProgram_eq_lookup_iff (s : Vfs) (mount literal nameAt : Nat)
    {files : List (List UInt8 × List UInt8)} {bytes name : List UInt8}
    (hcount : files.length ≤ initramfsMaxDirEntry)
    (hfiles : ∀ f ∈ files, 0 ∉ f.1 ∧ f.1 ≠ trailerName ∧ ∀ c ∈ f.1, isLineEnd c = false)
    (harchive : CpioArchive files bytes) (hlength : bytes.length < 2 ^ 32)
    (hstart : s.cpioDefaultStart ≠ 0) (hmem : HoldsAt s.mem s.cpioDefaultStart bytes)
    (hliteral : HoldsAt s.mem literal (trailerName ++ [0])) (hname : 0 ∉ name)
    (hnameAt : HoldsAt s.mem nameAt (name ++ [0])) :
    ∃ n s', s.initramfsSetupMount n mount = some s' ∧
      ((∃ m, cpioFindProgram s'.mem s'.cpioDefaultStart literal nameAt m =
          some ((s'.initramfsLookup (s'.mounts mount).root (name.map byteChar)).map fun v =>
            ((s'.ramInode v).datasize, (s'.ramInode v).data))) ↔
        GoesRight s.mem literal nameAt name (placed s.cpioDefaultStart files)) := by
  have hat := harchive.archiveAt hmem
  have hfits : ∀ f ∈ files, FileFits f ∧ ∀ c ∈ f.1, isLineEnd c = false := by
    intro f hf
    obtain ⟨hnul, htrailer, hline⟩ := hfiles f hf
    have hle := harchive.entryBytes_le f hf
    unfold entryBytes at hle
    exact ⟨⟨hnul, htrailer, by omega, by omega⟩, hline⟩
  have hnext := initramfsRoot_next mount s
  obtain ⟨s', vs, hloop, hl, hall⟩ := initramfsLoop_placed (s := s.initramfsRoot mount) hat hstart
    (fun f hf => (hfits f hf).1) (show 0 + files.length ≤ initramfsMaxDirEntry by omega)
    (show s.next + vnodeBytes < _ by
      rw [hnext]
      omega)
  have hlen : vs.length = (placed s.cpioDefaultStart files).length := hall.length_eq
  rw [length_placed] at hlen
  obtain ⟨hroot, hv, htype, hocc⟩ := hl.root (hlen ▸ hcount)
  have hmem' : s'.mem = s.mem := hl.mem
  have hstart' : s'.cpioDefaultStart = s.cpioDefaultStart := hl.cpioDefaultStart
  refine ⟨files.length + 2, s', by rw [initramfsSetupMount_eq, hloop], ?_⟩
  rw [hroot, initramfsLookup, hocc.find_eq, find_node hat hmem' (fun f hf => (hfiles f hf).1) hname hall,
    hmem', hstart']
  exact finds_target_iff hat hstart hfits hname hliteral hnameAt

/-- The archive of a file `a` with two bytes and a file `b` with four. -/
def readersArchive : List UInt8 :=
  let field (d : UInt8) : List UInt8 := List.replicate 7 48 ++ [d]
  ((plainHeader (field 50) (field 50)).bytes ++ ([97] ++ [0]) ++ [] ++ [7, 8] ++ [0, 0]) ++
    (((plainHeader (field 50) (field 52)).bytes ++ ([98] ++ [0]) ++ [] ++ [1, 2, 3, 4] ++ []) ++
      ((plainHeader (field 66) (field 48)).bytes ++ (trailerName ++ [0]) ++ [0, 0, 0] ++ [] ++ []))

theorem readersArchive_archive : CpioArchive [([97], [7, 8]), ([98], [1, 2, 3, 4])] readersArchive := by
  have h₂ : IsHexField 2 (List.replicate 7 48 ++ [50]) := isHexField_digit (by decide)
  have h₄ : IsHexField 4 (List.replicate 7 48 ++ [52]) := isHexField_digit (by decide)
  have h₀ : IsHexField 0 (List.replicate 7 48 ++ [48]) := isHexField_digit (by decide)
  have h₁₁ : IsHexField 11 (List.replicate 7 48 ++ [66]) := isHexField_digit (by decide)
  exact .file ⟨_, [], [0, 0], plainHeader_ok h₂ h₂, rfl, by decide, by decide, by decide, by decide⟩
    (.file ⟨_, [], [], plainHeader_ok h₂ h₄, rfl, by decide, by decide, by decide, by decide⟩
      (.trailer ⟨_, [0, 0, 0], [], plainHeader_ok h₁₁ h₀, rfl, by decide, by decide, by decide, by decide⟩))

/-- Memory with `"TRAILER!!!"` at 16, `"b"` at 27, `"a"` at 29, and that archive at 0x1000. -/
def readersVfs : Vfs where
  __ := zeroVfs
  cpioDefaultStart := 0x1000
  mem x := if x < 0x1000 then (trailerName ++ [0, 98, 0, 97, 0]).getD (x - 16) 0
    else readersArchive.getD (x - 0x1000) 0

/-- Both readers find `b`, behind `a`. -/
theorem cpioFindProgram_eq_lookup_b :
    cpioFindProgram readersVfs.mem readersVfs.cpioDefaultStart 16 27 4 = some (some (4, 0x10e4)) ∧
    ∃ n s', readersVfs.initramfsSetupMount n 8 = some s' ∧
      ∃ m, cpioFindProgram s'.mem s'.cpioDefaultStart 16 27 m =
        some ((s'.initramfsLookup (s'.mounts 8).root ([98].map byteChar)).map fun v =>
          ((s'.ramInode v).datasize, (s'.ramInode v).data)) := by
  obtain ⟨n, s', h, hiff⟩ := cpioFindProgram_eq_lookup_iff readersVfs 8 16 27 (by decide +kernel)
    (by decide +kernel) readersArchive_archive (by decide +kernel) (by decide +kernel) (by decide +kernel)
    (by decide) (show 0 ∉ [98] by decide) (by decide)
  have hright : GoesRight readersVfs.mem 16 27 [98] (placed 0x1000 [([97], [7, 8]), ([98], [1, 2, 3, 4])]) := by
    refine .inr ⟨⟨2, ?_⟩, ⟨2, ?_⟩, ⟨2, ?_⟩, rfl⟩ <;> decide +kernel
  exact ⟨by decide +kernel, n, s', h, hiff.2 hright⟩

/-- For `a` the one reader gives the size 4, the other 2. -/
theorem cpioFindProgram_size :
    cpioFindProgram readersVfs.mem readersVfs.cpioDefaultStart 16 29 4 = some (some (4, 0x1070)) ∧
      ((readersVfs.initramfsSetupMount 4 8).map fun s' =>
        (s'.initramfsLookup (s'.mounts 8).root ([97].map byteChar)).map fun v =>
          ((s'.ramInode v).datasize, (s'.ramInode v).data)) = some (some (2, 0x1070)) := by
  decide +kernel

end RpiKernel
