import Mathlib.Logic.Function.Basic
import RpiKernel.Memory.Holding

/-!
# RpiKernel.Mmu.PageTable

The page tables of `mmu.c`: `map_one_page`, which makes the missing tables on
the way down, and `mmu_free_page_tables`, which gives the tables below the
first one back.

The 64-bit words of kernel memory are a function of the address; addresses
and words are numbers below `2 ^ 64`.  `lookup` is the walk of the
translation hardware, written here to say what the two functions do.
A level `l` of the source is counted from the leaf, as `3 - l`.
-/

namespace RpiKernel

/-! ## descriptors -/

/-- `PD_TABLE`, `PD_ACCESS`, `PD_UNX`, `PD_KNX`, `PD_RDONLY`, `PD_UK_ACCESS`,
`MAIR_IDX_NORMAL_NOCACHE` and `ENTRY_ADDR_MASK`. -/
def pdTable : Nat := 0b11
def pdAccess : Nat := 1 <<< 10
def pdUnx : Nat := 1 <<< 54
def pdKnx : Nat := 1 <<< 53
def pdRdonly : Nat := 1 <<< 7
def pdUkAccess : Nat := 1 <<< 6
def mairIdxNormalNocache : Nat := 1
def entryAddrMask : Nat := 0xfffffffff000

/-- `PERIPHERAL_START` and `PERIPHERAL_END`. -/
def peripheralStart : Nat := 0x3c000000
def peripheralEnd : Nat := 0x3f000000

/-- `PHYS_TO_VIRT`. -/
def physToVirt (x : Nat) : Nat := (x + 0xffff000000000000) % 2 ^ 64

/-- `VIRT_TO_PHYS`. -/
def virtToPhys (x : Nat) : Nat := (x + (2 ^ 64 - 0xffff000000000000)) % 2 ^ 64

/-- The allocator, and the 64-bit words of kernel memory by address. -/
structure TableMem where
  alloc : Alloc
  words : Nat → Nat

/-- The words after a page was cleared. -/
def zeroPage (p : Nat) (w : Nat → Nat) : Nat → Nat :=
  fun x => if p ≤ x ∧ x < p + 0x1000 then 0 else w x

/-- The index of `va` in a table `d` levels above the leaf. -/
def tableIndex (va d : Nat) : Nat := va / 2 ^ (12 + 9 * d) % 512

/-- The table an entry points to. -/
def tableChild (e : Nat) : Nat := physToVirt (e &&& entryAddrMask)

/-! ## `map_one_page` -/

/-- An entry that points to the table at `p`. -/
def tableEntry (p : Nat) : Nat :=
  virtToPhys p ||| (pdAccess ||| pdTable ||| (mairIdxNormalNocache <<< 2))

/-- An entry that maps the page at `pa`. -/
def pageEntry (pa flag : Nat) : Nat :=
  pa ||| (pdAccess ||| pdTable ||| (mairIdxNormalNocache <<< 2) ||| pdKnx ||| flag)

/-- The table behind entry `idx` of the table at `t`, made if there is none.
When `kmalloc` returns `NULL` the new table is written through `NULL`, which
is not followed further. -/
def nextTable (t idx : Nat) (m : TableMem) : Option (Nat × TableMem) :=
  if m.words (t + 8 * idx) = 0 then
    match kmalloc 0x1000 m.alloc with
    | none => none
    | some (p, a) =>
        if p = 0 then none
        else
          let w := Function.update (zeroPage p m.words) (t + 8 * idx) (tableEntry p)
          some (tableChild (w (t + 8 * idx)), ⟨a, w⟩)
  else some (tableChild (m.words (t + 8 * idx)), m)

/-- The loop of `map_one_page` from the table at `t` on, `d` levels above the
leaf. -/
def mapLoop (va pa flag : Nat) : Nat → Nat → TableMem → Option TableMem
  | 0, t, m =>
      some { m with words := Function.update m.words (t + 8 * tableIndex va 0) (pageEntry pa flag) }
  | d + 1, t, m =>
      match nextTable t (tableIndex va (d + 1)) m with
      | none => none
      | some (t, m) => mapLoop va pa flag d t m

/-- `map_one_page`. -/
def mapOnePage (virtPgd va pa flag : Nat) (m : TableMem) : Option TableMem :=
  mapLoop va pa flag 3 virtPgd m

/-! ## `mmu_free_page_tables` -/

/-- One pass of the loop of `mmu_free_page_tables`; `below` is the recursive
call. -/
def freeEntry (below : Nat → TableMem → Option TableMem) (tableVirt i : Nat) (m : TableMem) :
    Option TableMem :=
  let e := m.words (tableVirt + 8 * i)
  if e ≠ 0 ∧ e &&& pdTable ≠ 0 then
    match below (e &&& entryAddrMask) m with
    | none => none
    | some m =>
        (kfree (physToVirt (e &&& entryAddrMask)) m.alloc).map fun a =>
          ⟨a, Function.update m.words (tableVirt + 8 * i) 0⟩
  else some m

/-- `mmu_free_page_tables(page_table, 2 - d)`. -/
def mmuFreePageTables : Nat → Nat → TableMem → Option TableMem
  | 0, pageTable, m =>
      (List.range 512).foldlM (fun m i => freeEntry (fun _ m => some m) (physToVirt pageTable) i m) m
  | d + 1, pageTable, m =>
      (List.range 512).foldlM
        (fun m i => freeEntry (mmuFreePageTables d) (physToVirt pageTable) i m) m

/-! ## what the tables say -/

/-- The descriptor of the page `va`, walking down from the table at `t`. -/
def lookup : Nat → (Nat → Nat) → Nat → Nat → Option Nat
  | 0, w, t, va =>
      let e := w (t + 8 * tableIndex va 0)
      if e &&& pdTable = pdTable then some e else none
  | d + 1, w, t, va =>
      let e := w (t + 8 * tableIndex va (d + 1))
      if e &&& pdTable = pdTable then lookup d w (tableChild e) va else none

/-- The descriptor that translates `va`; there are 48 bits of user addresses. -/
def translate (w : Nat → Nat) (pgd va : Nat) : Option Nat :=
  if va < 2 ^ 48 then lookup 3 w pgd va else none

/-- The tables below the table at `t`. -/
def subTables : Nat → (Nat → Nat) → Nat → List Nat
  | 0, _, _ => []
  | d + 1, w, t =>
      (List.range 512).flatMap fun i =>
        if w (t + 8 * i) = 0 then []
        else tableChild (w (t + 8 * i)) :: subTables d w (tableChild (w (t + 8 * i)))

/-- Every entry above the leaves is empty or points to a table. -/
def Entries : Nat → (Nat → Nat) → Nat → Prop
  | 0, _, _ => True
  | d + 1, w, t => ∀ i < 512, w (t + 8 * i) ≠ 0 →
      w (t + 8 * i) &&& pdTable = pdTable ∧ Entries d w (tableChild (w (t + 8 * i)))

/-- The tables from `t` on make a tree: no table is shared. -/
structure Tree (d : Nat) (w : Nat → Nat) (t : Nat) : Prop where
  aligned : t % 0x1000 = 0
  entries : Entries d w t
  nodup : (t :: subTables d w t).Nodup

/-- How many tables `map_one_page` has to make for `va`. -/
def missing : Nat → (Nat → Nat) → Nat → Nat → Nat
  | 0, _, _, _ => 0
  | d + 1, w, t, va =>
      if w (t + 8 * tableIndex va (d + 1)) = 0 then d + 1
      else missing d w (tableChild (w (t + 8 * tableIndex va (d + 1)))) va

/-- The next `n` requests for a page are granted. -/
def CanSupply : Nat → Alloc → Prop
  | 0, _ => True
  | n + 1, a => ∃ p a', kmalloc 0x1000 a = some (p, a') ∧ p ≠ 0 ∧ CanSupply n a'

end RpiKernel
