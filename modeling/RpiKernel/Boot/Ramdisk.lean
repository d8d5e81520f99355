import RpiKernel.Boot.DeviceTree
import RpiKernel.Utils.StringCompare

/-!
# RpiKernel.Boot.Ramdisk

How `main` finds the ramdisk: two traversals of the device tree with `initramfs_callback`, for the
properties `linux,initrd-start` and `linux,initrd-end` of the node `chosen`.

The names are compared by `utils_string_compare`, which goes on behind a string that is the beginning
of the other, the empty name of the root among them.  Behind the name of a node
it finds the padding and a token (`ForestAt.followed`), and that ends the comparison
(`compares_followed`).  So the callback takes up the values of these properties and of no others
(`findRamdisk_cells`).
-/

namespace RpiKernel

open Bytes

/-! ## the code -/

/-- `CPIO_DEFAULT_START` and `CPIO_DEFAULT_END`. -/
structure Ramdisk where
  start : Nat
  fin : Nat

/-- Where the string literals are: those of `initramfs_callback`, and the arguments of `main`. -/
structure RamdiskStrings where
  start : Nat
  fin : Nat
  targetNode : Nat
  targetStart : Nat
  targetEnd : Nat

/-- `utils_string_compare(str1, str2) > 0` in at most `n` rounds. -/
def stringsEqual (mem : Nat → UInt8) (n str₁ str₂ : Nat) : Option Bool :=
  (utilsStringCompare (whole mem) (whole mem) n str₁ str₂).map fun r => decide (0 < r)

/-- `initramfs_callback`, with at most `n` rounds for a comparison. -/
def initramfsCallback (mem : Nat → UInt8) (strings : RamdiskStrings) (n targetNodeName targetPropName : Nat)
    (r : Ramdisk) (c : FdtCall) : Option Ramdisk :=
  (stringsEqual mem n c.nodeName targetNodeName).bind fun sameNode =>
    if !sameNode then some r
    else
      (stringsEqual mem n c.propName targetPropName).bind fun sameProp =>
        if !sameProp then some r
        else
          (stringsEqual mem n strings.start targetPropName).bind fun isStart =>
            if isStart then some { r with start := physToVirt (fdtWord mem c.propValue) }
            else
              (stringsEqual mem n strings.fin targetPropName).map fun isEnd =>
                if isEnd then { r with fin := physToVirt (fdtWord mem c.propValue) } else r

/-- `fdt_traverse(initramfs_callback, target_node_name, target_prop_name)`. -/
def traverseRamdisk (mem : Nat → UInt8) (strings : RamdiskStrings)
    (dtbBase x20 n targetNodeName targetPropName : Nat) (r : Ramdisk) : Option Ramdisk :=
  (fdtTraverse mem true dtbBase x20 n).bind fun calls =>
    calls.foldlM (initramfsCallback mem strings n targetNodeName targetPropName) r

/-- The two traversals of `main`; the second one finds `dtb_base` set. -/
def findRamdisk (mem : Nat → UInt8) (strings : RamdiskStrings) (dtbBase x20 n : Nat) (r : Ramdisk) :
    Option Ramdisk :=
  (traverseRamdisk mem strings dtbBase x20 n strings.targetNode strings.targetStart r).bind fun r =>
    traverseRamdisk mem strings (dtbBaseOf dtbBase x20) x20 n strings.targetNode strings.targetEnd r

/-! ## what is behind the names -/

/-- What a call is about, with what stands behind the name of its node. -/
structure Followed (mem : Nat → UInt8) (c : FdtCall) (x : List UInt8 × List UInt8 × List UInt8) : Prop where
  describes : Describes mem c x
  nodeNul : 0 ∉ x.1
  propNul : 0 ∉ x.2.1
  token : WordAt mem (upToFour (c.nodeName + x.1.length + 1)) formatNop ∨
    WordAt mem (upToFour (c.nodeName + x.1.length + 1)) fdtProp

/-- The padding of the name is zero. -/
def Padded (mem : Nat → UInt8) (c : FdtCall) (x : List UInt8 × List UInt8 × List UInt8) : Prop :=
  ∀ i < upToFour (c.nodeName + x.1.length + 1) - (c.nodeName + x.1.length + 1),
    mem (c.nodeName + x.1.length + 1 + i) = 0

instance (mem : Nat → UInt8) (c : FdtCall) (x : List UInt8 × List UInt8 × List UInt8) :
    Decidable (Padded mem c x) := inferInstanceAs (Decidable (∀ i < _, _))

variable {mem : Nat → UInt8} {strings owner p q n : Nat} {forest : FdtForest}
  {props : List (List UInt8 × List UInt8)} {calls : List FdtCall} {s t r : List UInt8} {b d : UInt8}

/-- Properties begin with a token. -/
theorem PropsAt.token (h : PropsAt mem strings owner p props q calls) (hne : props ≠ []) :
    WordAt mem p formatNop ∨ WordAt mem p fdtProp := by
  cases h with
  | nil => contradiction
  | prop hnops htoken =>
      cases hnops with
      | nil => exact .inr htoken
      | nop hword _ => exact .inl hword

theorem PropsAt.followed (h : PropsAt mem strings owner p props q calls) {name : List UInt8}
    (hname : HoldsAt mem owner (name ++ [0])) (h0 : 0 ∉ name)
    (htoken : props ≠ [] → WordAt mem (upToFour (owner + name.length + 1)) formatNop ∨
      WordAt mem (upToFour (owner + name.length + 1)) fdtProp) :
    List.Forall₂ (Followed mem) calls (props.map fun x => (name, x)) := by
  induction h with
  | nil => exact .nil
  | prop _ _ _ _ hvalue hnul hprop _ ih =>
      have htoken := htoken (List.cons_ne_nil _ _)
      exact .cons ⟨⟨hname, hprop, hvalue, rfl⟩, h0, hnul, htoken⟩ (ih fun _ => htoken)

/-- Behind the name of a node with properties there is a token. -/
theorem ForestAt.followed (h : ForestAt mem strings p forest q calls) :
    List.Forall₂ (Followed mem) calls forest.properties := by
  induction h with
  | nil => exact .nil
  | node _ _ h0 hname hprops _ _ _ _ ih₂ ih₃ =>
      exact List.rel_append (List.rel_append (hprops.followed hname h0 hprops.token) ih₂) ih₃

/-! ## comparing -/

/-- Skipping goes over zeros. -/
theorem skipLoop_zeros {k : Nat} (hzero : ∀ i < k, mem (p + i) = 0) (hb : isLineEnd (mem (p + k)) = false)
    (hb0 : mem (p + k) ≠ 0) : skipLoop (whole mem) (k + 1) p = some (p + k) := by
  induction k generalizing p with
  | zero =>
      have hread : ReadsAt (whole mem) p ([] ++ [mem p]) := ⟨rfl, trivial⟩
      have hsplit := skipLoop_split (n := 1) (by simp) hb hb0 hread (by decide)
      simpa using hsplit
  | succ k ih =>
      have hrest : p + 1 + k = p + (k + 1) := by omega
      rw [skipLoop, show whole mem p = some 0 from congrArg some (hzero 0 (Nat.succ_pos k)), Option.bind_some,
        if_pos (by simp), ih (fun i hi => ?_) (by rwa [hrest]) (by rwa [hrest]), hrest]
      rw [Nat.add_assoc, Nat.add_comm 1]
      exact hzero (i + 1) (Nat.succ_lt_succ hi)

/-- What is held can be read. -/
theorem readsAt_whole {bytes : List UInt8} (h : HoldsAt mem p bytes) : ReadsAt (whole mem) p bytes := by
  induction bytes generalizing p with
  | nil => trivial
  | cons c bytes ih =>
      obtain ⟨hc, hrest⟩ := holdsAt_cons.1 h
      exact ⟨congrArg some hc, ih hrest⟩

/-- One round over a visible byte. -/
theorem compares_cons {c : UInt8} {r : Nat} (hc : isLineEnd c = false) (hs : 0 ∉ c :: s) (ht : 0 ∉ c :: t)
    (hp : HoldsAt mem p (c :: s ++ [0])) (hq : HoldsAt mem q (c :: t ++ [0]))
    (h : Compares mem (p + 1) (q + 1) r) : Compares mem p q r := by
  obtain ⟨n, hn⟩ := h
  have hround : utilsStringCompare (whole mem) (whole mem) (n + 1 + 1) p q =
      if c = c then utilsStringCompare (whole mem) (whole mem) (n + 1) (p + 1) (q + 1) else some 0 :=
    have hnone : ∀ x ∈ ([] : List UInt8), isLineEnd x = true := by simp
    utilsStringCompare_split hnone hnone hc hc hs ht (readsAt_whole hp) (readsAt_whole hq) (Nat.succ_pos n)
      (Nat.succ_pos n)
  rw [if_pos rfl] at hround
  exact ⟨n + 1 + 1, hround.trans (utilsStringCompare_rounds (Nat.le_succ n) hn)⟩

/-- The string at `p` is the beginning of the one at `q`, which goes on with another byte than the first
one behind the terminators of the former. -/
theorem compares_followed {k : Nat} (hs : 0 ∉ s ++ d :: r) (hvisible : ∀ c ∈ s ++ d :: r, isLineEnd c = false)
    (hp : HoldsAt mem p s) (hq : HoldsAt mem q (s ++ d :: r ++ [0]))
    (hzero : ∀ i < k + 1, mem (p + s.length + i) = 0) (hb : isLineEnd (mem (p + s.length + (k + 1))) = false)
    (hb0 : mem (p + s.length + (k + 1)) ≠ 0) (hne : mem (p + s.length + (k + 1)) ≠ d) :
    Compares mem p q 0 := by
  induction s generalizing p q with
  | nil =>
      simp only [List.nil_append, List.mem_cons, not_or, List.length_nil, Nat.add_zero] at *
      have hd : mem q = d := (holdsAt_cons.1 hq).1
      have hskip := skipLoop_zeros hzero hb hb0
      have hread : ReadsAt (whole mem) q ([] ++ [d]) := ⟨congrArg some hd, trivial⟩
      have hskip' := skipLoop_split (n := k + 2) (by simp) (hvisible d (by simp)) (Ne.symm hs.1) hread
        (Nat.succ_pos _)
      have hd0 : d ≠ 0 := Ne.symm hs.1
      refine ⟨k + 3, ?_⟩
      rw [utilsStringCompare, show whole mem p = some 0 from congrArg some (hzero 0 (Nat.succ_pos k)),
        show whole mem q = some d from congrArg some hd]
      simp [hskip, hskip', whole, hne, hd, hd0]
  | cons c s ih =>
      have hplace : ∀ i, p + (c :: s).length + i = p + 1 + s.length + i := fun i => by
        rw [List.length_cons]
        omega
      have hend : HoldsAt mem p (c :: s ++ [0]) :=
        holdsAt_append.2 ⟨hp, holdsAt_cons.2 ⟨hzero 0 (Nat.succ_pos k), holdsAt_nil⟩⟩
      simp only [hplace] at hzero hb hb0 hne
      have hs' : 0 ∉ c :: s := fun h0 => hs (List.mem_append_left _ h0)
      exact compares_cons (hvisible c (by simp)) hs' hs hend hq
        (ih (fun h0 => hs (List.mem_cons_of_mem c h0)) (fun x hx => hvisible x (List.mem_cons_of_mem c hx))
          (holdsAt_cons.1 hp).2 (holdsAt_cons.1 hq).2 hzero hb hb0 hne)

/-! ## the callback -/

/-- `"chosen"`. -/
def chosenName : List UInt8 := [99, 104, 111, 115, 101, 110]

/-- `"linux,initrd-start"`. -/
def initrdStartName : List UInt8 :=
  [108, 105, 110, 117, 120, 44, 105, 110, 105, 116, 114, 100, 45, 115, 116, 97, 114, 116]

/-- `"linux,initrd-end"`. -/
def initrdEndName : List UInt8 := [108, 105, 110, 117, 120, 44, 105, 110, 105, 116, 114, 100, 45, 101, 110, 100]

/-- The literals are in memory. -/
structure RamdiskStrings.At (mem : Nat → UInt8) (strings : RamdiskStrings) : Prop where
  start : HoldsAt mem strings.start (initrdStartName ++ [0])
  fin : HoldsAt mem strings.fin (initrdEndName ++ [0])
  targetNode : HoldsAt mem strings.targetNode (chosenName ++ [0])
  targetStart : HoldsAt mem strings.targetStart (initrdStartName ++ [0])
  targetEnd : HoldsAt mem strings.targetEnd (initrdEndName ++ [0])

/-- A name that is compared with `"chosen"` as it should be, where a token is behind it. -/
def NodeNameOk (name : List UInt8) : Prop :=
  Separates name chosenName ∨ (name <+: chosenName ∧ name ≠ chosenName)

/-- The property `target` of the node `chosen`. -/
def Chosen (target : List UInt8) (x : List UInt8 × List UInt8 × List UInt8) : Prop :=
  stripLineEnds x.1 = chosenName ∧ stripLineEnds x.2.1 = target

instance (target : List UInt8) (x : List UInt8 × List UInt8 × List UInt8) : Decidable (Chosen target x) :=
  inferInstanceAs (Decidable (_ ∧ _))

/-- The first cell of a value. -/
def cell (value : List UInt8) : Nat := (value.take 4).foldl (fun n b => n * 256 + b.toNat) 0

theorem fdtWord_eq_cell {value : List UInt8} (hlen : 4 ≤ value.length) (h : HoldsAt mem p value) :
    fdtWord mem p = cell value := by
  obtain ⟨a, b, c, d, rest, rfl⟩ : ∃ a b c d rest, value = a :: b :: c :: d :: rest := by
    match value, hlen with
    | a :: b :: c :: d :: rest, _ => exact ⟨a, b, c, d, rest, rfl⟩
  obtain ⟨h₀, h₁, h₂, h₃, -⟩ := (holdsAt_cons.1 h).imp id fun h => (holdsAt_cons.1 h).imp id fun h =>
    (holdsAt_cons.1 h).imp id fun h => holdsAt_cons.1 h
  rw [fdtWord, loadWord, h₀, h₁, h₂, h₃, utilsChangeEndian32_eq a.toNat_lt b.toNat_lt c.toNat_lt d.toNat_lt]
  simp only [cell, List.take_succ_cons, List.take_zero, List.foldl_cons, List.foldl_nil]
  omega

/-- With enough rounds a comparison answers. -/
theorem Compares.stringsEqual {k : Nat} (h : Compares mem p q k) :
    ∃ m, ∀ n, m ≤ n → RpiKernel.stringsEqual mem n p q = some (decide (0 < k)) := by
  obtain ⟨m, hm⟩ := h
  exact ⟨m, fun n hn => by rw [RpiKernel.stringsEqual, utilsStringCompare_rounds hn hm, Option.map_some]⟩

/-- Names that separate. -/
theorem stringsEqual_of_separates (hsep : Separates s t) (hs : 0 ∉ s) (ht : 0 ∉ t)
    (hp : HoldsAt mem p (s ++ [0])) (hq : HoldsAt mem q (t ++ [0])) :
    ∃ m, ∀ n, m ≤ n → stringsEqual mem n p q = some (decide (stripLineEnds s = stripLineEnds t)) := by
  obtain ⟨m, hm⟩ := (compares_of_separates hsep hs ht hp hq).stringsEqual
  refine ⟨m, fun n hn => ?_⟩
  rw [hm n hn]
  split <;> simp [*]

/-- The bytes of a token. -/
theorem WordAt.token_bytes {b : UInt8} (h : WordAt mem p b.toNat) :
    (∀ i < 3, mem (p + i) = 0) ∧ mem (p + 3) = b := by
  have hbytes : be32 b.toNat = [0, 0, 0, b] := by
    have hlt := b.toNat_lt
    simp only [be32, List.cons.injEq, and_true]
    refine ⟨?_, ?_, ?_, UInt8.ofNat_toNat⟩ <;>
      (apply UInt8.toNat_inj.1; simp only [UInt8.toNat_ofNat']; show _ = 0; omega)
  have hheld := h.held
  rw [hbytes] at hheld
  obtain ⟨h₀, h₁, h₂, h₃, -⟩ := (holdsAt_cons.1 hheld).imp id fun h => (holdsAt_cons.1 h).imp id fun h =>
    (holdsAt_cons.1 h).imp id fun h => holdsAt_cons.1 h
  refine ⟨fun i hi => ?_, h₃⟩
  obtain rfl | rfl | rfl : i = 0 ∨ i = 1 ∨ i = 2 := by omega
  · exact h₀
  · exact h₁
  · exact h₂

/-- Behind the name of a node with properties come zeros, and then a byte that is in no name. -/
theorem Followed.behind {c : FdtCall} {x : List UInt8 × List UInt8 × List UInt8} (h : Followed mem c x)
    (hpad : Padded mem c x) : ∃ k, (∀ i < k + 1, mem (c.nodeName + x.1.length + i) = 0) ∧
      (mem (c.nodeName + x.1.length + (k + 1)) = 4 ∨ mem (c.nodeName + x.1.length + (k + 1)) = 3) := by
  have hle := le_upToFour (c.nodeName + x.1.length + 1)
  have hnul : mem (c.nodeName + x.1.length) = 0 := (holdsAt_cons.1 (holdsAt_append.1 h.describes.nodeName).2).1
  have hpad' := hpad
  unfold Padded at hpad'
  have htoken : (∀ i < 3, mem (upToFour (c.nodeName + x.1.length + 1) + i) = 0) ∧
      (mem (upToFour (c.nodeName + x.1.length + 1) + 3) = 4 ∨
        mem (upToFour (c.nodeName + x.1.length + 1) + 3) = 3) := by
    cases h.token with
    | inl hnop =>
        obtain ⟨hzero, hlast⟩ := WordAt.token_bytes (b := 4) hnop
        exact ⟨hzero, .inl hlast⟩
    | inr hprop =>
        obtain ⟨hzero, hlast⟩ := WordAt.token_bytes (b := 3) hprop
        exact ⟨hzero, .inr hlast⟩
  generalize upToFour (c.nodeName + x.1.length + 1) = token at hle hpad' htoken
  obtain ⟨j, rfl⟩ := Nat.exists_eq_add_of_le hle
  refine ⟨j + 3, fun i hi => ?_, ?_⟩
  · rcases Nat.eq_zero_or_pos i with rfl | hpos
    · exact hnul
    · rcases Nat.lt_or_ge i (j + 1) with hlt | hge
      · have hzero := hpad' (i - 1) (by omega)
        rwa [show c.nodeName + x.1.length + 1 + (i - 1) = c.nodeName + x.1.length + i by omega] at hzero
      · obtain ⟨l, rfl⟩ := Nat.exists_eq_add_of_le hge
        have hzero := htoken.1 l (by omega)
        rwa [show c.nodeName + x.1.length + 1 + j + l = c.nodeName + x.1.length + (j + 1 + l) by omega] at hzero
  · have hlast := htoken.2
    rwa [show c.nodeName + x.1.length + 1 + j + 3 = c.nodeName + x.1.length + (j + 3 + 1) by omega] at hlast

/-- The name of a node is compared with `"chosen"`. -/
theorem Followed.node {c : FdtCall} {x : List UInt8 × List UInt8 × List UInt8} (h : Followed mem c x)
    (hpad : Padded mem c x) (hname : NodeNameOk x.1) (hq : HoldsAt mem q (chosenName ++ [0])) :
    ∃ m, ∀ n, m ≤ n → stringsEqual mem n c.nodeName q = some (decide (stripLineEnds x.1 = chosenName)) := by
  cases hname with
  | inl hsep => exact stringsEqual_of_separates hsep h.nodeNul (by decide) h.describes.nodeName hq
  | inr hprefix =>
      obtain ⟨⟨rest, hrest⟩, hne⟩ := hprefix
      obtain ⟨d, r, rfl⟩ : ∃ d r, rest = d :: r := by
        cases rest with
        | nil => exact absurd (by simpa using hrest) hne
        | cons d r => exact ⟨d, r, rfl⟩
      have hvisible : ∀ c ∈ x.1 ++ d :: r, isLineEnd c = false := by
        rw [hrest]
        decide +kernel
      have hd : d ∈ chosenName := hrest ▸ List.mem_append_right _ (List.mem_cons_self ..)
      obtain ⟨k, hzero, hbyte⟩ := h.behind hpad
      have hcompare : Compares mem c.nodeName q 0 := by
        refine compares_followed (k := k) (d := d) (r := r) (hrest ▸ by decide +kernel) hvisible
          (holdsAt_append.1 h.describes.nodeName).1 (hrest ▸ hq) hzero ?_ ?_ ?_
        · rcases hbyte with hbyte | hbyte <;> (rw [hbyte]; decide)
        · rcases hbyte with hbyte | hbyte <;> (rw [hbyte]; decide)
        · have hnot : (4 : UInt8) ∉ chosenName ∧ (3 : UInt8) ∉ chosenName := by decide
          rcases hbyte with hbyte | hbyte <;> rw [hbyte] <;> rintro rfl
          · exact hnot.1 hd
          · exact hnot.2 hd
      obtain ⟨m, hm⟩ := hcompare.stringsEqual
      refine ⟨m, fun n hn => ?_⟩
      rw [hm n hn, strip_of_visible fun c hc => hvisible c (List.mem_append_left _ hc), decide_eq_false hne]
      rfl

variable {lits : RamdiskStrings} {c : FdtCall} {x : List UInt8 × List UInt8 × List UInt8} {target : List UInt8}
  {f : Ramdisk → Nat → Ramdisk} {targetNode targetProp : Nat}

/-- What the callback does with a value of the property that is looked for. -/
def storeRamdisk (mem : Nat → UInt8) (lits : RamdiskStrings) (n targetProp : Nat) (r : Ramdisk) (v : Nat) :
    Option Ramdisk :=
  (stringsEqual mem n lits.start targetProp).bind fun isStart =>
    if isStart then some { r with start := v }
    else (stringsEqual mem n lits.fin targetProp).map fun isEnd => if isEnd then { r with fin := v } else r

/-- A call of the callback. -/
theorem Followed.callback (h : Followed mem c x) (hpad : Padded mem c x) (hname : NodeNameOk x.1)
    (hsep : stripLineEnds x.1 = chosenName → Separates x.2.1 target) (hcell : Chosen target x → 4 ≤ x.2.2.length)
    (hstrip : stripLineEnds target = target) (h0 : 0 ∉ target)
    (hnode : HoldsAt mem targetNode (chosenName ++ [0])) (hprop : HoldsAt mem targetProp (target ++ [0]))
    (hset : ∃ m, ∀ n, m ≤ n → ∀ r v, storeRamdisk mem lits n targetProp r v = some (f r v)) :
    ∃ m, ∀ n, m ≤ n → ∀ r, initramfsCallback mem lits n targetNode targetProp r c =
      some (if Chosen target x then f r (physToVirt (cell x.2.2)) else r) := by
  obtain ⟨m₀, hnode⟩ := h.node hpad hname hnode
  obtain ⟨m₁, hset⟩ := hset
  by_cases hchosen : stripLineEnds x.1 = chosenName
  · obtain ⟨m₂, hprop⟩ := stringsEqual_of_separates (hsep hchosen) h.propNul h0 h.describes.propName hprop
    refine ⟨max m₀ (max m₁ m₂), fun n hn r => ?_⟩
    have hstore := hset n (by omega) r (physToVirt (fdtWord mem c.propValue))
    rw [storeRamdisk] at hstore
    rw [initramfsCallback, hnode n (by omega), Option.bind_some, decide_eq_true hchosen, Bool.not_true,
      if_neg Bool.false_ne_true, hprop n (by omega), Option.bind_some, hstore, hstrip]
    by_cases htarget : stripLineEnds x.2.1 = target
    · have hx : Chosen target x := ⟨hchosen, htarget⟩
      rw [decide_eq_true htarget, Bool.not_true, if_neg Bool.false_ne_true, if_pos hx,
        fdtWord_eq_cell (hcell hx) h.describes.propValue]
    · rw [decide_eq_false htarget, Bool.not_false, if_pos rfl, if_neg fun hx => htarget hx.2]
  · refine ⟨m₀, fun n hn r => ?_⟩
    rw [initramfsCallback, hnode n hn, Option.bind_some, decide_eq_false hchosen, Bool.not_false, if_pos rfl,
      if_neg fun hx => hchosen hx.1]

/-- Calls that end are made one after the other. -/
theorem foldlM_of_forall₂ {α β σ : Type} {f : Nat → σ → α → Option σ} {g : σ → β → σ} {as : List α} {bs : List β}
    (h : List.Forall₂ (fun a b => ∃ m, ∀ n, m ≤ n → ∀ s, f n s a = some (g s b)) as bs) :
    ∃ m, ∀ n, m ≤ n → ∀ s, as.foldlM (f n) s = some (bs.foldl g s) := by
  induction h with
  | nil => exact ⟨0, fun _ _ _ => rfl⟩
  | cons hab _ ih =>
      obtain ⟨m, hm⟩ := hab
      obtain ⟨m', hm'⟩ := ih
      refine ⟨max m m', fun n hn s => ?_⟩
      rw [List.foldlM_cons, hm n (by omega), List.foldl_cons]
      exact hm' n (by omega) _

/-! ## the traversals -/

/-- The properties of `chosen` have names that are told apart, and values of a cell. -/
structure RamdiskNames (x : List UInt8 × List UInt8 × List UInt8) : Prop where
  node : NodeNameOk x.1
  start : stripLineEnds x.1 = chosenName → Separates x.2.1 initrdStartName
  fin : stripLineEnds x.1 = chosenName → Separates x.2.1 initrdEndName
  value : Chosen initrdStartName x ∨ Chosen initrdEndName x → 4 ≤ x.2.2.length

/-- The value of the last property `target` of `chosen`, as an address. -/
def lastCell (target : List UInt8) (xs : List (List UInt8 × List UInt8 × List UInt8)) (v : Nat) : Nat :=
  xs.foldl (fun v x => if Chosen target x then physToVirt (cell x.2.2) else v) v

theorem storeRamdisk_start (hlits : lits.At mem) : ∃ m, ∀ n, m ≤ n → ∀ r v,
    storeRamdisk mem lits n lits.targetStart r v = some { r with start := v } := by
  obtain ⟨m, hm⟩ := stringsEqual_of_separates (s := initrdStartName) (t := initrdStartName) (by decide +kernel)
    (by decide +kernel) (by decide +kernel) hlits.start hlits.targetStart
  exact ⟨m, fun n hn r v => by rw [storeRamdisk, hm n hn]; rfl⟩

theorem storeRamdisk_end (hlits : lits.At mem) : ∃ m, ∀ n, m ≤ n → ∀ r v,
    storeRamdisk mem lits n lits.targetEnd r v = some { r with fin := v } := by
  obtain ⟨m, hm⟩ := stringsEqual_of_separates (s := initrdStartName) (t := initrdEndName) (by decide +kernel)
    (by decide +kernel) (by decide +kernel) hlits.start hlits.targetEnd
  obtain ⟨m', hm'⟩ := stringsEqual_of_separates (s := initrdEndName) (t := initrdEndName) (by decide +kernel)
    (by decide +kernel) (by decide +kernel) hlits.fin hlits.targetEnd
  refine ⟨max m m', fun n hn r v => ?_⟩
  rw [storeRamdisk, hm n (by omega), hm' n (by omega)]
  rfl

theorem RamdiskNames.callback_start (hx : RamdiskNames x) (h : Followed mem c x) (hpad : Padded mem c x)
    (hlits : lits.At mem) : ∃ m, ∀ n, m ≤ n → ∀ r,
      initramfsCallback mem lits n lits.targetNode lits.targetStart r c =
        some (if Chosen initrdStartName x then { r with start := physToVirt (cell x.2.2) } else r) :=
  h.callback (f := fun r v => { r with start := v }) hpad hx.node hx.start (fun h => hx.value (.inl h))
    (by decide) (by decide) hlits.targetNode hlits.targetStart (storeRamdisk_start hlits)

theorem RamdiskNames.callback_end (hx : RamdiskNames x) (h : Followed mem c x) (hpad : Padded mem c x)
    (hlits : lits.At mem) : ∃ m, ∀ n, m ≤ n → ∀ r,
      initramfsCallback mem lits n lits.targetNode lits.targetEnd r c =
        some (if Chosen initrdEndName x then { r with fin := physToVirt (cell x.2.2) } else r) :=
  h.callback (f := fun r v => { r with fin := v }) hpad hx.node hx.fin (fun h => hx.value (.inr h))
    (by decide) (by decide) hlits.targetNode hlits.targetEnd (storeRamdisk_end hlits)

variable {dtbBase x20 totalsize rest : Nat} {tree : FdtForest}

/-- The first traversal sets `dtb_base`. -/
theorem dtbBaseOf_dtbBaseOf : dtbBaseOf (dtbBaseOf dtbBase x20) x20 = dtbBaseOf dtbBase x20 := by
  by_cases h : dtbBase = 0
  · simp [dtbBaseOf, h]
  · simp [dtbBaseOf, h]

/-- One traversal. -/
theorem FdtAt.traverseRamdisk (hat : FdtAt mem (dtbBaseOf dtbBase x20) totalsize rest tree calls)
    (hskips : Skips mem (dtbBaseOf dtbBase x20 + totalsize) rest)
    (hcalls : List.Forall₂ (fun c x => ∃ m, ∀ n, m ≤ n → ∀ r,
      initramfsCallback mem lits n targetNode targetProp r c =
        some (if Chosen target x then f r (physToVirt (cell x.2.2)) else r)) calls tree.properties) :
    ∃ m, ∀ n, m ≤ n → ∀ r, RpiKernel.traverseRamdisk mem lits dtbBase x20 n targetNode targetProp r =
      some (tree.properties.foldl
        (fun r x => if Chosen target x then f r (physToVirt (cell x.2.2)) else r) r) := by
  obtain ⟨m, hm⟩ := hat.rounds hskips
  -- the length is not looked at
  obtain ⟨m', hm'⟩ := foldlM_of_forall₂ (f := fun n => initramfsCallback mem lits n targetNode targetProp)
    (g := fun r x => if Chosen target x then f r (physToVirt (cell x.2.2)) else r)
    (List.forall₂_map_left_iff.2 hcalls : List.Forall₂ _ (calls.map FdtCall.passed) tree.properties)
  refine ⟨max m m', fun n hn r => ?_⟩
  rw [RpiKernel.traverseRamdisk, hm n (by omega), Option.bind_some]
  exact hm' n (by omega) r

theorem foldl_start (xs : List (List UInt8 × List UInt8 × List UInt8)) (r : Ramdisk) :
    xs.foldl (fun r x => if Chosen target x then { r with start := physToVirt (cell x.2.2) } else r) r =
      { r with start := lastCell target xs r.start } := by
  induction xs generalizing r with
  | nil => rfl
  | cons x xs ih =>
      rw [List.foldl_cons, ih, lastCell, lastCell, List.foldl_cons]
      split <;> rfl

theorem foldl_end (xs : List (List UInt8 × List UInt8 × List UInt8)) (r : Ramdisk) :
    xs.foldl (fun r x => if Chosen target x then { r with fin := physToVirt (cell x.2.2) } else r) r =
      { r with fin := lastCell target xs r.fin } := by
  induction xs generalizing r with
  | nil => rfl
  | cons x xs ih =>
      rw [List.foldl_cons, ih, lastCell, lastCell, List.foldl_cons]
      split <;> rfl

/-- **The ramdisk.**  Over a device tree with zeros for padding, where names are told apart, the two
traversals of `main` return, and the limits of the ramdisk are the values of the last
properties `linux,initrd-start` and `linux,initrd-end` of `chosen`, or what they have been before
if there is none. -/
theorem findRamdisk_cells (hat : FdtAt mem (dtbBaseOf dtbBase x20) totalsize rest tree calls)
    (hskips : Skips mem (dtbBaseOf dtbBase x20 + totalsize) rest)
    (hpad : List.Forall₂ (Padded mem) calls tree.properties) (hnames : ∀ x ∈ tree.properties, RamdiskNames x)
    (hlits : lits.At mem) (r : Ramdisk) :
    ∃ n, findRamdisk mem lits dtbBase x20 n r =
      some ⟨lastCell initrdStartName tree.properties r.start, lastCell initrdEndName tree.properties r.fin⟩ := by
  obtain ⟨-, -, -, ⟨_, _, _, _, -, -, -, hforest, -⟩, -⟩ := id hat
  obtain ⟨hlen, hfollowed⟩ := List.forall₂_iff_zip.1 hforest.followed
  obtain ⟨-, hpad⟩ := List.forall₂_iff_zip.1 hpad
  obtain ⟨m, hm⟩ := hat.traverseRamdisk hskips (f := fun r v => { r with start := v }) (List.forall₂_iff_zip.2 ⟨hlen,
    fun hcx => (hnames _ (List.of_mem_zip hcx).2).callback_start (hfollowed hcx) (hpad hcx) hlits⟩)
  rw [← dtbBaseOf_dtbBaseOf] at hat hskips
  obtain ⟨m', hm'⟩ := hat.traverseRamdisk hskips (f := fun r v => { r with fin := v }) (List.forall₂_iff_zip.2 ⟨hlen,
    fun hcx => (hnames _ (List.of_mem_zip hcx).2).callback_end (hfollowed hcx) (hpad hcx) hlits⟩)
  refine ⟨max m m', ?_⟩
  rw [findRamdisk, hm _ (Nat.le_max_left m m'), Option.bind_some, hm' _ (Nat.le_max_right m m'), foldl_start,
    foldl_end]

/-! ## a tree with a ramdisk -/

/-- A root with a property `a`, and `chosen` with the two limits. -/
def ramdiskTree : FdtForest :=
  .node [] [([97], [])]
    (.node chosenName [(initrdStartName, be32 0x8000000), (initrdEndName, be32 0x8001000)] .nil .nil) .nil

/-- Its flattened form: the header, the structure block at 40, and the strings at 116. -/
def ramdiskBlob : List UInt8 :=
  be32 fdtMagicNumber ++ be32 154 ++ be32 40 ++ be32 116 ++ List.replicate 24 0 ++
    be32 fdtBeginNode ++ [0, 0, 0, 0] ++ be32 fdtProp ++ be32 0 ++ be32 36 ++
    be32 fdtBeginNode ++ (chosenName ++ [0, 0]) ++
    be32 fdtProp ++ be32 4 ++ be32 0 ++ be32 0x8000000 ++ be32 fdtProp ++ be32 4 ++ be32 19 ++ be32 0x8001000 ++
    be32 fdtEndNode ++ be32 fdtEndNode ++ be32 formatEnd ++
    (initrdStartName ++ [0]) ++ (initrdEndName ++ [0]) ++ ([97] ++ [0])

/-- Memory with that at 0x1000, and with the literals in front of it. -/
def ramdiskMemory (x : Nat) : UInt8 :=
  if x < 0x1000 then ((chosenName ++ [0]) ++ (initrdStartName ++ [0]) ++ (initrdEndName ++ [0])).getD x 0
  else ramdiskBlob.getD (x - 0x1000) 0

/-- Where they are. -/
def ramdiskStrings : RamdiskStrings := ⟨7, 26, 0, 7, 26⟩

/-- The calls for its three properties. -/
def ramdiskCalls : List FdtCall :=
  [⟨0x102c, 0x1098, 0x103c, 0⟩, ⟨0x1040, 0x1074, 0x1054, 4⟩, ⟨0x1040, 0x1087, 0x1064, 4⟩]

theorem ramdiskTree_at : FdtAt ramdiskMemory 0x1000 154 0x1074 ramdiskTree ramdiskCalls := by
  have hchosen : PropsAt ramdiskMemory 0x1074 0x1040 (upToFour (0x103c + 4 + 6 + 1))
      [(initrdStartName, be32 0x8000000), (initrdEndName, be32 0x8001000)] 0x1068
      [⟨0x1040, 0x1074, 0x1054, 4⟩, ⟨0x1040, 0x1087, 0x1064, 4⟩] :=
    .prop .nil (by decide +kernel) (by decide +kernel) (show WordAt ramdiskMemory _ 0 by decide +kernel)
      (by decide +kernel) (by decide) (by decide +kernel) <|
    .prop .nil (by decide +kernel) (by decide +kernel) (show WordAt ramdiskMemory _ 19 by decide +kernel)
      (by decide +kernel) (by decide) (by decide +kernel) .nil
  have hnode := @ForestAt.node ramdiskMemory 0x1074 0x103c 0x103c 0x1068 0x1068 0x1068 0x106c chosenName _ .nil .nil
    _ [] [] .nil (by decide +kernel) (by decide) (by decide +kernel) hchosen .nil .nil (by decide +kernel) .nil
  have hprops : PropsAt ramdiskMemory 0x1074 0x102c (upToFour (0x1028 + 4 + 0 + 1)) [([97], [])] 0x103c
      [⟨0x102c, 0x1098, 0x103c, 0⟩] :=
    .prop .nil (by decide +kernel) (by decide +kernel) (show WordAt ramdiskMemory _ 36 by decide +kernel)
      (by decide +kernel) (by decide) (by decide +kernel) .nil
  have hforest := @ForestAt.node ramdiskMemory 0x1074 0x1028 0x1028 0x103c 0x106c 0x106c 0x1070 [] _ _ .nil _ _ []
    .nil (by decide +kernel) (by decide) (by decide +kernel) hprops hnode .nil (by decide +kernel) .nil
  exact ⟨by decide, by decide +kernel, by decide +kernel, ⟨40, 0x74, 0x1070, 0x1070, by decide +kernel, by decide,
    by decide +kernel, hforest, .nil, by decide +kernel, rfl, by decide⟩, by decide⟩

/-- The words of the strings. -/
theorem skips_words {k : Nat} (hk : ∀ i < k, fdtWord mem (p + 4 * i) ≠ fdtEnd ∧
    fdtWord mem (p + 4 * i) ≠ fdtBeginNode ∧ fdtWord mem (p + 4 * i) ≠ fdtProp) {limit : Nat}
    (hlimit : limit ≤ p + 4 * k) : Skips mem limit p := by
  induction k generalizing p with
  | zero => exact .limit hlimit
  | succ k ih =>
      by_cases hp : p < limit
      · obtain ⟨hend, hbegin, hprop⟩ := hk 0 (Nat.succ_pos k)
        refine .word hp hend hbegin hprop (ih (fun i hi => ?_) (by omega))
        have hi' := hk (i + 1) (Nat.succ_lt_succ hi)
        rwa [show p + 4 * (i + 1) = p + 4 + 4 * i by omega] at hi'
      · exact .limit (Nat.not_lt.1 hp)

theorem ramdiskMemory_skips : Skips ramdiskMemory (dtbBaseOf 0x1000 0 + 154) 0x1074 :=
  skips_words (k := 10) (by decide +kernel) (by decide)

/-- Both limits are found. -/
theorem findRamdisk_cells_two : ∃ n, findRamdisk ramdiskMemory ramdiskStrings 0x1000 0 n ⟨0, 0⟩ =
    some ⟨0xffff000008000000, 0xffff000008001000⟩ := by
  have hat : FdtAt ramdiskMemory (dtbBaseOf 0x1000 0) 154 0x1074 ramdiskTree ramdiskCalls := ramdiskTree_at
  have hpad : List.Forall₂ (Padded ramdiskMemory) ramdiskCalls ramdiskTree.properties :=
    .cons (by decide +kernel) (.cons (by decide +kernel) (.cons (by decide +kernel) .nil))
  have hlits : ramdiskStrings.At ramdiskMemory :=
    ⟨by decide +kernel, by decide +kernel, by decide +kernel, by decide +kernel, by decide +kernel⟩
  have hnames : ∀ x ∈ ramdiskTree.properties, RamdiskNames x := by
    simp only [ramdiskTree, FdtForest.properties, List.map_cons, List.map_nil, List.append_nil, List.singleton_append,
      List.forall_mem_cons, List.not_mem_nil, false_imp_iff, implies_true, and_true]
    refine ⟨⟨.inr (by decide +kernel), ?_, ?_, ?_⟩, ⟨.inl (by decide +kernel), ?_, ?_, ?_⟩,
      ⟨.inl (by decide +kernel), ?_, ?_, ?_⟩⟩ <;> decide +kernel
  exact findRamdisk_cells hat ramdiskMemory_skips hpad hnames hlits ⟨0, 0⟩

end RpiKernel
