import RpiKernel.Mmu.PageTable
import RpiKernel.Utils.Words
import Mathlib.Data.List.Forall2

/-!
# RpiKernel.Boot.DeviceTree

`fdt_traverse` in `dtb.c`, and the flattened form of a tree it reads:
`ForestAt mem strings p forest q calls` says that memory holds the tokens of
`forest` from `p` to `q`, and that `calls` are what a callback has to be
called with, one call for each property.

The format ends the nodes with the token 9, which `dtb.h` has for `FDT_NOP`, and its own
`FDT_NOP` is 4, which the loop does not know and skips.  So the loop goes on behind the end, to the
first word that is 0 or to `totalsize`.  `fdtTraverse_calls_iff`: the callback gets the calls
for the properties and no others just when nothing there looks like a property.
-/

namespace RpiKernel

open Bytes

/-! ## the code -/

/-- What the callback is called with, up to the two names that are passed on. -/
structure FdtCall where
  nodeName : Nat
  propName : Nat
  propValue : Nat
  propLen : Int
deriving DecidableEq

def fdtMagicNumber : Nat := 0xD00DFEED
def fdtBeginNode : Nat := 0x1
def fdtEndNode : Nat := 0x2
def fdtProp : Nat := 0x3
def fdtNop : Nat := 0x9
def fdtEnd : Nat := 0x0

/-- `utils_change_endian_32(*p)`. -/
def fdtWord (mem : Nat → UInt8) (p : Nat) : Nat := utilsChangeEndian32 (loadWord mem p)

/-- The loop of `fdt_traverse` in at most `n` rounds, up to `limit`: the calls it makes, if
`callback` is not `NULL`. -/
def fdtLoop (mem : Nat → UInt8) (callback : Bool) (limit dtStrings : Nat) :
    Nat → Nat → Nat → Option (List FdtCall)
  | 0, _, _ => none
  | n + 1, dtStruct, currentNode =>
      if dtStruct < limit then
        let token := fdtWord mem dtStruct
        let dtStruct := dtStruct + 4
        if token = fdtBeginNode then
          (utilsStrlen mem n dtStruct).bind fun len =>
            fdtLoop mem callback limit dtStrings n (utilsAlign (dtStruct + len + 1) 4) dtStruct
        else if token = fdtProp then
          let propLen := fdtWord mem dtStruct
          let nameOffset := fdtWord mem (dtStruct + 4)
          let propValue := dtStruct + 8
          let rest := fdtLoop mem callback limit dtStrings n (utilsAlign (propValue + propLen) 4) currentNode
          if callback then
            rest.map (⟨currentNode, dtStrings + nameOffset, propValue, Int.bmod propLen (2 ^ 32)⟩ :: ·)
          else rest
        else if token = fdtEndNode then fdtLoop mem callback limit dtStrings n dtStruct currentNode
        else if token = fdtNop then fdtLoop mem callback limit dtStrings n dtStruct currentNode
        else if token = fdtEnd then some []
        else fdtLoop mem callback limit dtStrings n dtStruct currentNode
      else some []

/-- `dtb_base`, which is taken from the register `x20` at the first time. -/
def dtbBaseOf (dtbBase x20 : Nat) : Nat := if dtbBase = 0 then physToVirt x20 else dtbBase

/-- `fdt_traverse`. -/
def fdtTraverse (mem : Nat → UInt8) (callback : Bool) (dtbBase x20 n : Nat) : Option (List FdtCall) :=
  let base := dtbBaseOf dtbBase x20
  if fdtWord mem base ≠ fdtMagicNumber then some []
  else
    fdtLoop mem callback (base + fdtWord mem (base + 4)) (base + fdtWord mem (base + 12)) n
      (base + fdtWord mem (base + 8)) 0

/-! ## the format -/

/-- `FDT_NOP` and `FDT_END` of the format. -/
def formatNop : Nat := 0x4
def formatEnd : Nat := 0x9

/-- Nodes with their properties and children, one behind the other; a tree is one of them
without siblings. -/
inductive FdtForest where
  | nil
  | node (name : List UInt8) (props : List (List UInt8 × List UInt8)) (children siblings : FdtForest)

/-- The properties in the order of the document: the name of the node, the name and the
value. -/
def FdtForest.properties : FdtForest → List (List UInt8 × List UInt8 × List UInt8)
  | .nil => []
  | .node name props children siblings =>
      props.map (fun x => (name, x)) ++ children.properties ++ siblings.properties

/-- A big-endian word. -/
structure WordAt (mem : Nat → UInt8) (p n : Nat) : Prop where
  lt : n < 2 ^ 32
  held : HoldsAt mem p (be32 n)

/-- `FDT_NOP` tokens from `p` to `q`. -/
inductive NopsAt (mem : Nat → UInt8) : Nat → Nat → Prop
  | nil {p : Nat} : NopsAt mem p p
  | nop {p q : Nat} : WordAt mem p formatNop → NopsAt mem (p + 4) q → NopsAt mem p q

/-- The properties of the node whose name is at `owner`, from `p` to `q`.  Behind the token
are the length of the value and the offset of the name in the strings, then the value. -/
inductive PropsAt (mem : Nat → UInt8) (strings owner : Nat) :
    Nat → List (List UInt8 × List UInt8) → Nat → List FdtCall → Prop
  | nil {p : Nat} : PropsAt mem strings owner p [] p []
  | prop {p q r nameOffset : Nat} {name value : List UInt8} {props : List (List UInt8 × List UInt8)}
      {calls : List FdtCall} : NopsAt mem p q → WordAt mem q fdtProp → WordAt mem (q + 4) value.length →
      WordAt mem (q + 8) nameOffset → HoldsAt mem (q + 12) value → 0 ∉ name →
      HoldsAt mem (strings + nameOffset) (name ++ [0]) →
      PropsAt mem strings owner (upToFour (q + 12 + value.length)) props r calls →
      PropsAt mem strings owner p ((name, value) :: props) r
        (⟨owner, strings + nameOffset, q + 12, value.length⟩ :: calls)

/-- Nodes from `p` to `q`, the properties of each in front of its children. -/
inductive ForestAt (mem : Nat → UInt8) (strings : Nat) : Nat → FdtForest → Nat → List FdtCall → Prop
  | nil {p : Nat} : ForestAt mem strings p .nil p []
  | node {p q r s t u : Nat} {name : List UInt8} {props : List (List UInt8 × List UInt8)}
      {children siblings : FdtForest} {cs₁ cs₂ cs₃ : List FdtCall} : NopsAt mem p q →
      WordAt mem q fdtBeginNode → 0 ∉ name → HoldsAt mem (q + 4) (name ++ [0]) →
      PropsAt mem strings (q + 4) (upToFour (q + 4 + name.length + 1)) props r cs₁ →
      ForestAt mem strings r children s cs₂ → NopsAt mem s t → WordAt mem t fdtEndNode →
      ForestAt mem strings (t + 4) siblings u cs₃ →
      ForestAt mem strings p (.node name props children siblings) u (cs₁ ++ cs₂ ++ cs₃)

/-- A flattened device tree at `base`, inside of its `totalsize` bytes and of the address
space; `rest` is behind its end token. -/
structure FdtAt (mem : Nat → UInt8) (base totalsize rest : Nat) (tree : FdtForest) (calls : List FdtCall) :
    Prop where
  aligned : base % 4 = 0
  magic : WordAt mem base fdtMagicNumber
  total : WordAt mem (base + 4) totalsize
  blocks : ∃ offDtStruct offDtStrings p q, WordAt mem (base + 8) offDtStruct ∧ offDtStruct % 4 = 0 ∧
    WordAt mem (base + 12) offDtStrings ∧
    ForestAt mem (base + offDtStrings) (base + offDtStruct) tree p calls ∧ NopsAt mem p q ∧
    WordAt mem q formatEnd ∧ rest = q + 4 ∧ rest ≤ base + totalsize
  address : base + totalsize ≤ 2 ^ 64

/-- What a call is about: the strings and the value are where it points to. -/
structure Describes (mem : Nat → UInt8) (c : FdtCall) (x : List UInt8 × List UInt8 × List UInt8) :
    Prop where
  nodeName : HoldsAt mem c.nodeName (x.1 ++ [0])
  propName : HoldsAt mem c.propName (x.2.1 ++ [0])
  propValue : HoldsAt mem c.propValue x.2.2
  propLen : c.propLen = x.2.2.length

/-- Between `p` and `limit` the loop finds no property, up to the first word that is 0; it takes a
word 1 for the beginning of a node, and goes on behind the name. -/
inductive Skips (mem : Nat → UInt8) (limit : Nat) : Nat → Prop
  | limit {p : Nat} : limit ≤ p → Skips mem limit p
  | stop {p : Nat} : p < limit → fdtWord mem p = fdtEnd → Skips mem limit p
  | name {p n len : Nat} : p < limit → fdtWord mem p = fdtBeginNode → utilsStrlen mem n (p + 4) = some len →
      Skips mem limit (utilsAlign (p + 4 + len + 1) 4) → Skips mem limit p
  | word {p : Nat} : p < limit → fdtWord mem p ≠ fdtEnd → fdtWord mem p ≠ fdtBeginNode →
      fdtWord mem p ≠ fdtProp → Skips mem limit (p + 4) → Skips mem limit p

/-- The length of the value as the callback gets it. -/
def FdtCall.passed (c : FdtCall) : FdtCall := { c with propLen := c.propLen.bmod (2 ^ 32) }

variable {mem : Nat → UInt8} {base totalsize rest strings owner limit p q r cur cur' cur'' n m : Nat}
  {forest : FdtForest} {props : List (List UInt8 × List UInt8)} {calls calls' : List FdtCall}

theorem WordAt.read {n : Nat} (h : WordAt mem p n) : fdtWord mem p = n :=
  utilsChangeEndian32_be32 h.lt h.held

/-! ## what the calls are about -/

theorem PropsAt.describes {name : List UInt8} (h : PropsAt mem strings owner p props q calls)
    (hname : HoldsAt mem owner (name ++ [0])) :
    List.Forall₂ (Describes mem) calls (props.map fun x => (name, x)) := by
  induction h with
  | nil => exact .nil
  | prop _ _ _ _ hvalue _ hprop _ ih => exact .cons ⟨hname, hprop, hvalue, rfl⟩ ih

/-- There is one call for each property, in the order of the document. -/
theorem ForestAt.describes (h : ForestAt mem strings p forest q calls) :
    List.Forall₂ (Describes mem) calls forest.properties := by
  induction h with
  | nil => exact .nil
  | node _ _ _ hname hprops _ _ _ _ ih₂ ih₃ =>
      exact List.rel_append (List.rel_append (hprops.describes hname) ih₂) ih₃

/-! ## where the tokens are -/

theorem NopsAt.le (h : NopsAt mem p q) : p ≤ q := by
  induction h with
  | nil => exact Nat.le_refl _
  | nop _ _ ih => omega

theorem PropsAt.le (h : PropsAt mem strings owner p props q calls) : p ≤ q := by
  induction h with
  | nil => exact Nat.le_refl _
  | @prop p q _ _ _ value _ _ hnops _ _ _ _ _ _ _ ih =>
      have hle := hnops.le
      have hup := le_upToFour (q + 12 + value.length)
      omega

theorem ForestAt.le (h : ForestAt mem strings p forest q calls) : p ≤ q := by
  induction h with
  | nil => exact Nat.le_refl _
  | @node p q _ _ _ _ name _ _ _ _ _ _ hnops _ _ _ hprops _ hnops' _ _ ih₂ ih₃ =>
      have hle := hnops.le
      have hle' := hnops'.le
      have hle₁ := hprops.le
      have hup := le_upToFour (q + 4 + name.length + 1)
      omega

/-! ## more rounds -/

/-- With more rounds there is the same answer. -/
theorem utilsStrlen_rounds {len : Nat} (h : utilsStrlen mem n p = some len) (hnm : n ≤ m) :
    utilsStrlen mem m p = some len := by
  induction n generalizing m p len with
  | zero => exact absurd h (by simp [utilsStrlen])
  | succ n ih =>
      obtain ⟨m, rfl⟩ := Nat.exists_eq_add_of_le hnm
      rw [show n + 1 + m = n + m + 1 by omega]
      unfold utilsStrlen at h ⊢
      split at h
      next hz => rw [if_pos hz, h]
      next hz =>
        obtain ⟨len, hlen, rfl⟩ := Option.map_eq_some_iff.1 h
        rw [if_neg hz, ih hlen (Nat.le_add_right n m), Option.map_some]

theorem fdtLoop_rounds (h : fdtLoop mem true limit strings n p cur = some calls) (hnm : n ≤ m) :
    fdtLoop mem true limit strings m p cur = some calls := by
  induction n generalizing m p cur calls with
  | zero => exact absurd h (by simp [fdtLoop])
  | succ n ih =>
      obtain ⟨m, rfl⟩ := Nat.exists_eq_add_of_le hnm
      have hle : n ≤ n + m := Nat.le_add_right n m
      rw [show n + 1 + m = n + m + 1 by omega]
      unfold fdtLoop at h ⊢
      split at h
      next hp =>
        rw [if_pos hp]
        dsimp only at h ⊢
        split at h
        next hbegin =>
          obtain ⟨len, hlen, h⟩ := Option.bind_eq_some_iff.1 h
          rw [if_pos hbegin, utilsStrlen_rounds hlen hle, Option.bind_some, ih h hle]
        next hbegin =>
          rw [if_neg hbegin]
          split at h
          next hprop =>
            obtain ⟨calls, hcalls, rfl⟩ := Option.map_eq_some_iff.1 h
            rw [if_pos hprop, if_pos rfl, ih hcalls hle, Option.map_some]
          next hprop =>
            rw [if_neg hprop]
            split at h
            next hnode => rw [if_pos hnode, ih h hle]
            next hnode =>
              rw [if_neg hnode]
              split at h
              next hnop => rw [if_pos hnop, ih h hle]
              next hnop =>
                rw [if_neg hnop]
                split at h
                next hend => rw [if_pos hend, h]
                next hend => rw [if_neg hend, ih h hle]
      next hp => rw [if_neg hp, h]

theorem fdtTraverse_rounds {dtbBase x20 : Nat} (h : fdtTraverse mem true dtbBase x20 n = some calls)
    (hnm : n ≤ m) : fdtTraverse mem true dtbBase x20 m = some calls := by
  unfold fdtTraverse at h ⊢
  dsimp only at h ⊢
  split at h
  next hmagic => rw [if_pos hmagic, h]
  next hmagic => rw [if_neg hmagic, fdtLoop_rounds h hnm]

/-! ## reading them -/

/-- From `p` on, with the last name at `cur`, the loop makes the calls `calls`, and goes on at `q` with the
last name at `cur'`. -/
def Leads (mem : Nat → UInt8) (limit strings p cur : Nat) (calls : List FdtCall) (q cur' : Nat) : Prop :=
  ∃ j k, ∀ n, k ≤ n → fdtLoop mem true limit strings (n + j) p cur =
    (fdtLoop mem true limit strings n q cur').map (calls ++ ·)

theorem Leads.refl : Leads mem limit strings p cur [] p cur := ⟨0, 0, fun n _ => by simp⟩

theorem Leads.trans (h : Leads mem limit strings p cur calls q cur')
    (h' : Leads mem limit strings q cur' calls' r cur'') :
    Leads mem limit strings p cur (calls ++ calls') r cur'' := by
  obtain ⟨j, k, hk⟩ := h
  obtain ⟨j', k', hk'⟩ := h'
  refine ⟨j' + j, max k k', fun n hn => ?_⟩
  rw [← Nat.add_assoc, hk (n + j') (by omega), hk' n (by omega), Option.map_map]
  congr 1
  funext cs
  exact (List.append_assoc ..).symm

/-- One round. -/
theorem Leads.of_round (k : Nat) (h : ∀ n, k ≤ n → fdtLoop mem true limit strings (n + 1) p cur =
    (fdtLoop mem true limit strings n q cur').map (calls ++ ·)) : Leads mem limit strings p cur calls q cur' :=
  ⟨1, k, h⟩

/-- A word that the loop does not know, or takes for `FDT_NOP`. -/
theorem leads_word {w : Nat} (h : WordAt mem p w) (hp : p < limit) (hbegin : w ≠ fdtBeginNode)
    (hprop : w ≠ fdtProp) (hend : w ≠ fdtEnd) : Leads mem limit strings p cur [] (p + 4) cur := by
  refine .of_round 0 fun n _ => ?_
  simp [fdtLoop, hp, h.read, hbegin, hprop, hend]

theorem leads_beginNode {name : List UInt8} (h : WordAt mem p fdtBeginNode) (h0 : 0 ∉ name)
    (hname : HoldsAt mem (p + 4) (name ++ [0])) (hp : p < limit)
    (haddr : p + 4 + name.length + 1 + 3 < 2 ^ 64) :
    Leads mem limit strings p cur [] (upToFour (p + 4 + name.length + 1)) (p + 4) := by
  refine .of_round (name.length + 1) fun n hn => ?_
  have hstrlen := utilsStrlen_eq h0 hname (show name.length < n by omega)
  simp [fdtLoop, hp, h.read, hstrlen, utilsAlign_four haddr]

theorem leads_prop {nameOffset : Nat} {value : List UInt8} (h : WordAt mem p fdtProp)
    (hlen : WordAt mem (p + 4) value.length) (hoff : WordAt mem (p + 8) nameOffset) (hp : p < limit)
    (haddr : p + 12 + value.length + 3 < 2 ^ 64) :
    Leads mem limit strings p cur [FdtCall.passed ⟨cur, strings + nameOffset, p + 12, value.length⟩]
      (upToFour (p + 12 + value.length)) cur := by
  refine .of_round 0 fun n _ => ?_
  have hvalue := utilsAlign_four haddr
  have hne : fdtProp ≠ fdtBeginNode := by decide
  simp only [fdtLoop, if_pos hp, h.read, if_neg hne, if_true, hlen.read]
  rw [show p + 4 + 4 = p + 8 from rfl, hoff.read, show p + 4 + 8 = p + 12 from rfl, hvalue]
  rfl

theorem NopsAt.leads (h : NopsAt mem p q) (hq : q < limit) : Leads mem limit strings p cur [] q cur := by
  induction h with
  | nil => exact .refl
  | nop hword hnops ih =>
      have hle := hnops.le
      exact (leads_word hword (by omega) (by decide) (by decide) (by decide)).trans (ih hq)

/-- What may be rounded up below the limit. -/
theorem lt_of_upToFour {x : Nat} (h : upToFour x ≤ p) (hp : p < limit) (hlimit : limit ≤ 2 ^ 64) :
    x + 3 < 2 ^ 64 := by
  unfold upToFour at h
  omega

theorem PropsAt.leads (h : PropsAt mem strings owner p props q calls) (hq : q < limit)
    (hlimit : limit ≤ 2 ^ 64) : Leads mem limit strings p owner (calls.map FdtCall.passed) q owner := by
  induction h with
  | nil => exact .refl
  | @prop p q _ nameOffset _ value _ _ hnops htoken hlen hoff _ _ _ hprops ih =>
      have hle := hprops.le
      have hup := le_upToFour (q + 12 + value.length)
      have hone : Leads mem limit strings q owner
          [FdtCall.passed ⟨owner, strings + nameOffset, q + 12, value.length⟩] (upToFour (q + 12 + value.length))
          owner := leads_prop htoken hlen hoff (by omega) (lt_of_upToFour hle hq hlimit)
      exact (hnops.leads (by omega)).trans (hone.trans (ih hq))

/-- Behind the nodes the loop goes on with the name it has seen last. -/
theorem ForestAt.leads (h : ForestAt mem strings p forest q calls) (hq : q < limit) (hlimit : limit ≤ 2 ^ 64)
    (cur : Nat) : ∃ cur', Leads mem limit strings p cur (calls.map FdtCall.passed) q cur' := by
  induction h generalizing cur with
  | nil => exact ⟨cur, .refl⟩
  | @node p q r s t _ name _ _ _ _ _ _ hnops htoken h0 hname hprops hchildren hnops' hend hsiblings ih₂ ih₃ =>
      have hle₁ := hprops.le
      have hle₂ := hchildren.le
      have hle₃ := hnops'.le
      have hle₄ := hsiblings.le
      have hup := le_upToFour (q + 4 + name.length + 1)
      have hbegin : Leads mem limit strings q cur [] (upToFour (q + 4 + name.length + 1)) (q + 4) :=
        leads_beginNode htoken h0 hname (by omega) (lt_of_upToFour hle₁ (by omega) hlimit)
      obtain ⟨cur₂, hchild⟩ := ih₂ (by omega) (q + 4)
      have hnode : Leads mem limit strings t cur₂ [] (t + 4) cur₂ :=
        leads_word hend (by omega) (by decide) (by decide) (by decide)
      obtain ⟨cur₃, hsib⟩ := ih₃ hq cur₂
      refine ⟨cur₃, ?_⟩
      have hall := ((hnops.leads (by omega)).trans hbegin).trans <| (hprops.leads (by omega) hlimit).trans <|
        hchild.trans <| (hnops'.leads (by omega)).trans <| hnode.trans hsib
      simpa only [List.map_append, List.append_assoc, List.nil_append] using hall

/-- Up to the end token of the format, and behind it. -/
theorem FdtAt.leads (h : FdtAt mem base totalsize rest forest calls) : ∃ cur', Leads mem (base + totalsize)
    (base + fdtWord mem (base + 12)) (base + fdtWord mem (base + 8)) 0 (calls.map FdtCall.passed) rest cur' := by
  obtain ⟨-, -, -, ⟨offDtStruct, offDtStrings, p, q, hstruct, -, hstrings, hforest, hnops, hend, rfl, hq⟩,
    haddr⟩ := h
  have hle := hnops.le
  obtain ⟨cur', hlead⟩ := hforest.leads (show p < base + totalsize by omega) haddr 0
  have htail : Leads mem (base + totalsize) (base + offDtStrings) p cur' [] (q + 4) cur' :=
    (hnops.leads (by omega)).trans (leads_word hend (by omega) (by decide) (by decide) (by decide))
  rw [hstruct.read, hstrings.read]
  exact ⟨cur', by simpa only [List.append_nil] using hlead.trans htail⟩

/-! ## behind the end -/

/-- The loop makes no more calls. -/
theorem Skips.loop (h : Skips mem limit p) (strings : Nat) :
    ∃ k, ∀ n, k ≤ n → ∀ cur, fdtLoop mem true limit strings n p cur = some [] := by
  have hround : ∀ {p k : Nat}, (∀ n, k ≤ n → ∀ cur, fdtLoop mem true limit strings (n + 1) p cur = some []) →
      ∃ k, ∀ n, k ≤ n → ∀ cur, fdtLoop mem true limit strings n p cur = some [] := by
    intro p k hk
    refine ⟨k + 1, fun n hn cur => ?_⟩
    obtain ⟨n, rfl⟩ := Nat.exists_eq_succ_of_ne_zero (Nat.ne_of_gt (Nat.zero_lt_of_lt hn))
    exact hk n (Nat.le_of_succ_le_succ hn) cur
  induction h with
  | limit hp => exact hround (k := 0) fun n _ cur => by rw [fdtLoop, if_neg (Nat.not_lt.2 hp)]
  | stop hp hword =>
      exact hround (k := 0) fun n _ cur => by
        simp [fdtLoop, hp, hword, fdtEnd, fdtBeginNode, fdtProp, fdtEndNode, fdtNop]
  | @name p m len hp hword hlen _ ih =>
      obtain ⟨k, hk⟩ := ih
      refine hround (k := max k m) fun n hn cur => ?_
      simp [fdtLoop, hp, hword, utilsStrlen_rounds hlen (show m ≤ n by omega), hk n (by omega)]
  | @word p hp hend hbegin hprop _ ih =>
      obtain ⟨k, hk⟩ := ih
      refine hround (k := k) fun n hn cur => ?_
      simp [fdtLoop, hp, hend, hbegin, hprop, hk n hn]

/-- Where it makes none there is no property. -/
theorem skips_of_loop (h : fdtLoop mem true limit strings n p cur = some []) : Skips mem limit p := by
  induction n generalizing p cur with
  | zero => exact absurd h (by simp [fdtLoop])
  | succ n ih =>
      by_cases hp : p < limit
      · by_cases hend : fdtWord mem p = fdtEnd
        · exact .stop hp hend
        by_cases hbegin : fdtWord mem p = fdtBeginNode
        · simp only [fdtLoop, if_pos hp, if_pos hbegin] at h
          obtain ⟨len, hlen, h⟩ := Option.bind_eq_some_iff.1 h
          exact .name hp hbegin hlen (ih h)
        by_cases hprop : fdtWord mem p = fdtProp
        · simp only [fdtLoop, if_pos hp, if_neg hbegin, if_pos hprop, if_true] at h
          obtain ⟨cs, -, hcs⟩ := Option.map_eq_some_iff.1 h
          cases hcs
        · have hnext : fdtLoop mem true limit strings n (p + 4) cur = some [] := by
            simpa [fdtLoop, hp, hend, hbegin, hprop] using h
          exact .word hp hend hbegin hprop (ih hnext)
      · exact .limit (Nat.not_lt.1 hp)

/-- The length arrives as it is where an `int` has room for it. -/
theorem Describes.passed {c : FdtCall} {x : List UInt8 × List UInt8 × List UInt8}
    (h : Describes mem c x) (hx : x.2.2.length < 2 ^ 31) : c.passed = c := by
  have hlen := h.propLen
  have hmod : c.propLen.bmod (2 ^ 32) = c.propLen := by
    rw [Int.bmod_eq_of_le] <;> omega
  rw [FdtCall.passed, hmod]

theorem passed_of_describes {xs : List (List UInt8 × List UInt8 × List UInt8)}
    (h : List.Forall₂ (Describes mem) calls xs) (hx : ∀ x ∈ xs, x.2.2.length < 2 ^ 31) :
    calls.map FdtCall.passed = calls := by
  induction h with
  | nil => rfl
  | cons hc _ ih =>
      obtain ⟨hx, hxs⟩ := List.forall_mem_cons.1 hx
      rw [List.map_cons, hc.passed hx, ih hxs]

/-- Only a length that an `int` has room for is passed as it is. -/
theorem lengths_of_passed {xs : List (List UInt8 × List UInt8 × List UInt8)}
    (h : List.Forall₂ (Describes mem) calls xs) (h' : List.Forall₂ (Describes mem) (calls.map FdtCall.passed) xs) :
    ∀ x ∈ xs, x.2.2.length < 2 ^ 31 := by
  induction h with
  | nil => exact fun x hx => absurd hx List.not_mem_nil
  | @cons c x _ _ hc _ ih =>
      rw [List.map_cons, List.forall₂_cons] at h'
      have hlen : c.propLen.bmod (2 ^ 32) = x.2.2.length := h'.1.propLen
      rw [hc.propLen] at hlen
      have hlt : ((x.2.2.length : Int).bmod (2 ^ 32)) < 2 ^ 31 := Int.bmod_lt (by decide)
      exact List.forall_mem_cons.2 ⟨by omega, ih h'.2⟩

variable {dtbBase x20 : Nat}

/-- What `fdt_traverse` of what is at `dtb_base` calls: the properties, and what is found behind the end. -/
theorem FdtAt.traverse (h : FdtAt mem (dtbBaseOf dtbBase x20) totalsize rest forest calls) :
    ∃ cur strings j k, ∀ n, k ≤ n → fdtTraverse mem true dtbBase x20 (n + j) =
      (fdtLoop mem true (dtbBaseOf dtbBase x20 + totalsize) strings n rest cur).map
        (calls.map FdtCall.passed ++ ·) := by
  obtain ⟨cur, j, k, hlead⟩ := h.leads
  refine ⟨cur, dtbBaseOf dtbBase x20 + fdtWord mem (dtbBaseOf dtbBase x20 + 12), j, k, fun n hn => ?_⟩
  rw [← hlead n hn, fdtTraverse]
  simp only [h.magic.read, h.total.read, ne_eq, not_true_eq_false, if_false]

/-- With enough rounds, where nothing is found behind the end. -/
theorem FdtAt.rounds (h : FdtAt mem (dtbBaseOf dtbBase x20) totalsize rest forest calls)
    (hskips : Skips mem (dtbBaseOf dtbBase x20 + totalsize) rest) :
    ∃ k, ∀ n, k ≤ n → fdtTraverse mem true dtbBase x20 n = some (calls.map FdtCall.passed) := by
  obtain ⟨cur, strings, j, k, htraverse⟩ := h.traverse
  obtain ⟨k', hk'⟩ := hskips.loop strings
  refine ⟨max k k' + j, fun n hn => ?_⟩
  obtain ⟨m, rfl⟩ := Nat.exists_eq_add_of_le (show j ≤ n by omega)
  rw [Nat.add_comm, htraverse m (by omega), hk' m (by omega), Option.map_some, List.append_nil]

/-- **Device trees.**  Over the flattened form of a tree, at any address and with `FDT_NOP` between any two
tokens, `fdt_traverse` returns and has called the callback once for each property, in the order of
the document, with the name of the node, the name of the property, the place of the value and its
length, if and only if an `int` has room for the lengths and no property is found behind the end. -/
theorem fdtTraverse_calls_iff {mem : Nat → UInt8} {dtbBase x20 totalsize rest : Nat} {tree : FdtForest}
    {calls : List FdtCall} (h : FdtAt mem (dtbBaseOf dtbBase x20) totalsize rest tree calls) :
    (∃ n made, fdtTraverse mem true dtbBase x20 n = some made ∧
      List.Forall₂ (Describes mem) made tree.properties) ↔
    (∀ x ∈ tree.properties, x.2.2.length < 2 ^ 31) ∧ Skips mem (dtbBaseOf dtbBase x20 + totalsize) rest := by
  obtain ⟨-, -, -, ⟨_, _, _, _, -, -, -, hforest, -⟩, -⟩ := id h
  have hcalls := hforest.describes
  constructor
  case mp =>
    intro ⟨n, made, hmade, hdescribes⟩
    obtain ⟨cur, strings, j, k, htraverse⟩ := h.traverse
    have hmore := fdtTraverse_rounds hmade (show n ≤ max n k + j by omega)
    rw [htraverse (max n k) (Nat.le_max_right n k)] at hmore
    obtain ⟨tail, htail, rfl⟩ := Option.map_eq_some_iff.1 hmore
    have hlen := hdescribes.length_eq.trans hcalls.length_eq.symm
    rw [List.length_append, List.length_map] at hlen
    obtain rfl : tail = [] := List.length_eq_zero_iff.1 (by omega)
    rw [List.append_nil] at hdescribes
    exact ⟨lengths_of_passed hcalls hdescribes, skips_of_loop htail⟩
  case mpr =>
    intro ⟨hlens, hskips⟩
    obtain ⟨k, hk⟩ := h.rounds hskips
    refine ⟨k, _, hk k (Nat.le_refl k), ?_⟩
    rwa [passed_of_describes hcalls hlens]

instance (mem : Nat → UInt8) (p n : Nat) : Decidable (WordAt mem p n) :=
  decidable_of_iff (n < 2 ^ 32 ∧ HoldsAt mem p (be32 n)) ⟨fun h => ⟨h.1, h.2⟩, fun h => ⟨h.1, h.2⟩⟩

/-- A root with a property `a` of four bytes: the header, the structure block at 40, and the strings. -/
def propBlob : List UInt8 :=
  be32 fdtMagicNumber ++ be32 74 ++ be32 40 ++ be32 72 ++ List.replicate 24 0 ++
    be32 fdtBeginNode ++ [0, 0, 0, 0] ++ be32 fdtProp ++ be32 4 ++ be32 0 ++ [0, 0, 0, 1] ++
    be32 fdtEndNode ++ be32 formatEnd ++ ([97] ++ [0])

/-- Memory with that at 0x1000. -/
def propMemory (x : Nat) : UInt8 := propBlob.getD (x - 0x1000) 0

/-- Behind the end there is only the name. -/
theorem fdtTraverse_calls_iff_four : ∃ n made, fdtTraverse propMemory true 0x1000 0 n = some made ∧
    List.Forall₂ (Describes propMemory) made [([], [97], [0, 0, 0, 1])] := by
  have hprops : PropsAt propMemory 0x1048 0x102c (upToFour (0x1028 + 4 + 0 + 1)) [([97], [0, 0, 0, 1])] 0x1040
      [⟨0x102c, 0x1048, 0x103c, 4⟩] :=
    .prop .nil (by decide +kernel) (by decide +kernel) (show WordAt propMemory _ 0 by decide +kernel)
      (by decide +kernel) (by decide) (by decide +kernel) .nil
  have hforest := @ForestAt.node propMemory 0x1048 0x1028 0x1028 0x1040 0x1040 0x1040 0x1044 [] _ .nil .nil _ [] []
    .nil (by decide +kernel) (by decide) (by decide +kernel) hprops .nil .nil (by decide +kernel) .nil
  have hat : FdtAt propMemory (dtbBaseOf 0x1000 0) 74 0x1048 (.node [] [([97], [0, 0, 0, 1])] .nil .nil)
      [⟨0x102c, 0x1048, 0x103c, 4⟩] :=
    ⟨by decide, by decide +kernel, by decide +kernel, ⟨40, 0x48, 0x1044, 0x1044, by decide +kernel, by decide,
      by decide +kernel, hforest, .nil, by decide +kernel, rfl, by decide⟩, by decide⟩
  have hskips : Skips propMemory (dtbBaseOf 0x1000 0 + 74) 0x1048 :=
    .word (by decide) (by decide +kernel) (by decide +kernel) (by decide +kernel) (.limit (by decide))
  exact (fdtTraverse_calls_iff hat).2 ⟨by simp [FdtForest.properties], hskips⟩

/-- A root without properties; free space behind the end still has the token of one that was there. -/
def staleBlob : List UInt8 :=
  be32 fdtMagicNumber ++ be32 68 ++ be32 40 ++ be32 56 ++ List.replicate 24 0 ++
    be32 fdtBeginNode ++ [0, 0, 0, 0] ++ be32 fdtEndNode ++ be32 formatEnd ++
    be32 fdtProp ++ be32 0 ++ be32 0

/-- Memory with that at 0x1000. -/
def staleMemory (x : Nat) : UInt8 := staleBlob.getD (x - 0x1000) 0

/-- **Behind the end**: the callback is called for a property that the tree does not have. -/
theorem fdtTraverse_stale : FdtAt staleMemory 0x1000 68 0x1038 (.node [] [] .nil .nil) [] ∧
    fdtTraverse staleMemory true 0x1000 0 8 = some [⟨0x102c, 0x1038, 0x1044, 0⟩] ∧
    ¬ ∃ n made, fdtTraverse staleMemory true 0x1000 0 n = some made ∧
      List.Forall₂ (Describes staleMemory) made (FdtForest.node [] [] .nil .nil).properties := by
  have hforest := @ForestAt.node staleMemory 0x1038 0x1028 0x1028 0x1030 0x1030 0x1030 0x1034 [] [] .nil .nil [] [] []
    .nil (by decide +kernel) (by decide) (by decide +kernel) .nil .nil .nil (by decide +kernel) .nil
  have hrun : fdtTraverse staleMemory true 0x1000 0 8 = some [⟨0x102c, 0x1038, 0x1044, 0⟩] := by decide +kernel
  refine ⟨⟨by decide, by decide +kernel, by decide +kernel, ⟨40, 56, 0x1034, 0x1034, by decide +kernel, by decide,
    by decide +kernel, hforest, .nil, by decide +kernel, rfl, by decide⟩, by decide⟩, hrun, ?_⟩
  intro ⟨n, made, hmade, hdescribes⟩
  have hboth := (fdtTraverse_rounds hmade (Nat.le_max_left n 8)).symm.trans
    (fdtTraverse_rounds hrun (Nat.le_max_right n 8))
  rw [Option.some.inj hboth] at hdescribes
  cases hdescribes

end RpiKernel
