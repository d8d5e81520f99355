import RpiKernel.Vfs.VfsRun

/-!
# RpiKernel.Vfs.NameBuffers

The buffers that hold the name of a component: `component_name` of `vfs_lookup`, of 16 bytes,
and the field of a tmpfs inode, of 15.

`vfsLookupWrites` is `vfs_lookup` with the indices of its buffer that it writes
(`vfsLookupWrites_snd`).  They are in the buffer as long as the walk comes to no component of
more than 15 characters (`vfsLookup_fits`); the test of `tmpfs_create` and `tmpfs_mkdir` lets
one character too many through (`tmpfsMake_fits`).
-/

namespace RpiKernel

open Runs

/-- `sizeof(component_name)` and the size of `name` in `struct tmpfs_inode`. -/
def componentBytes : Nat := maxFileName + 1
def nameBytes : Nat := maxFileName

namespace Vfs

/-! ## writes of a lookup -/

/-- `lookupLoop` with the indices of `component_name` that are written, up to the first one
behind the buffer. -/
def lookupWrites (n : Nat) (s : Vfs) : List Char → List Char → Nat → List Nat × Option (Option Nat)
  | [], componentName, dirnode => ([componentName.length], lookupComponent n s dirnode componentName)
  | c :: cs, componentName, dirnode =>
      if componentBytes ≤ componentName.length then ([componentName.length], none)
      else if c = '/' then
        match lookupComponent n s dirnode componentName with
        | some (some dirnode) =>
            let r := lookupWrites n s cs [] dirnode
            (componentName.length :: r.1, r.2)
        | r => ([componentName.length], r)
      else
        let r := lookupWrites n s cs (componentName ++ [c]) dirnode
        (componentName.length :: r.1, r.2)

/-- `vfs_lookup` with the indices of `component_name` that it writes. -/
def vfsLookupWrites (n : Nat) (pathname : List Char) (s : Vfs) : List Nat × Option (Option Nat) :=
  if pathname = [] then ([], some (some s.root))
  else lookupWrites n s (pathname.drop 1) [] s.root

variable {s s' : Vfs} {g : Shape} {n d : Nat} {p : List Char} {cs : List (List Char)}

/-- A component that is too long is not looked up. -/
theorem lookupLoop_long {acc : List Char} (h : componentBytes ≤ acc.length) (p : List Char) (d : Nat) :
    lookupLoop n s p acc d = none := by
  have hlong : ∀ acc : List Char, componentBytes ≤ acc.length → lookupComponent n s d acc = none := by
    intro acc h
    exact if_pos h
  induction p generalizing acc with
  | nil => exact hlong acc h
  | cons c p ih =>
      rw [lookupLoop, hlong acc h, ih (by rw [List.length_append]; omega)]
      split <;> rfl

/-- Without the indices it is `vfs_lookup`. -/
theorem vfsLookupWrites_snd : (s.vfsLookupWrites n p).2 = s.vfsLookup n p := by
  have hloop : ∀ (p acc : List Char) (d : Nat), (lookupWrites n s p acc d).2 = lookupLoop n s p acc d := by
    intro p
    induction p with
    | nil => exact fun acc d => rfl
    | cons c p ih =>
        intro acc d
        rw [lookupWrites]
        split
        next hlong => rw [lookupLoop_long hlong]
        next =>
          rw [lookupLoop]
          split
          next =>
            cases lookupComponent n s d acc with
            | none => rfl
            | some r =>
                cases r with
                | none => rfl
                | some d' => exact ih [] d'
          next => exact ih (acc ++ [c]) d
  unfold vfsLookupWrites vfsLookup
  split
  · rfl
  · exact hloop _ _ _

/-- Every component that the walk from `d` comes to fits the buffer. -/
def walkFits (n : Nat) (s : Vfs) : List (List Char) → Nat → Prop
  | [], _ => True
  | c :: cs, d => c.length ≤ maxFileName ∧
      ∀ d', lookupComponent n s d c = some (some d') → walkFits n s cs d'

/-- The writes of the loop are in the buffer just when the components are. -/
theorem lookupWrites_iff (p acc : List Char) (d : Nat) :
    (∀ i ∈ (lookupWrites n s p acc d).1, i < componentBytes) ↔
      walkFits n s ((p.splitOn '/').modifyHead (acc ++ ·)) d := by
  have hbytes : componentBytes = maxFileName + 1 := rfl
  induction p generalizing acc d with
  | nil =>
      simp [lookupWrites, walkFits]
      omega
  | cons c p ih =>
      rw [lookupWrites, List.splitOn, List.splitOnP_cons_eq_if_modifyHead]
      by_cases hlong : componentBytes ≤ acc.length
      · rw [if_pos hlong]
        refine iff_of_false (fun h => absurd (h acc.length List.mem_cons_self) (by omega)) ?_
        split
        · exact fun h => absurd h.1 (by simp; omega)
        · obtain ⟨q, qs, hq⟩ := List.exists_cons_of_ne_nil (List.splitOnP_ne_nil (· == '/') p)
          rw [hq]
          exact fun h => absurd h.1 (by simp; omega)
      · rw [if_neg hlong]
        by_cases hc : c = '/'
        · have hid : (List.splitOnP (· == '/') p).modifyHead (([] : List Char) ++ ·) =
              List.splitOnP (· == '/') p := congrFun List.modifyHead_id _
          have hrest := fun d' => ih [] d'
          rw [List.splitOn, hid] at hrest
          simp only [hc, if_true, beq_self_eq_true, List.modifyHead_cons, List.append_nil, walkFits]
          cases lookupComponent n s d acc with
          | none =>
              simp
              omega
          | some r =>
              cases r with
              | none =>
                  simp
                  omega
              | some d' =>
                  simp [← hrest]
                  omega
        · have hrest := ih (acc ++ [c]) d
          simp only [hc, if_false, beq_iff_eq, List.modifyHead_modifyHead]
          have hhead : ((acc ++ ·) ∘ (c :: ·) : List Char → List Char) = (acc ++ [c] ++ ·) := by
            funext l
            simp
          rw [hhead]
          refine Iff.trans ?_ hrest
          simp
          omega

/-! ## the components that a walk comes to -/

/-- The walk along `pathname` comes to the component `c`: those in front of it lead to a
vnode. -/
def ComesTo (s : Vfs) (pathname c : List Char) : Prop :=
  ∃ pre rest w, components pathname = pre ++ c :: rest ∧ Resolves s s.root pre w

/-- The walk along `pathname` comes to no component that is too long. -/
def FitsBuffer (s : Vfs) (pathname : List Char) : Prop :=
  ∀ c, s.ComesTo pathname c → c.length ≤ maxFileName

/-- One component of a walk. -/
theorem WellFormed.lookupComponent_iff (hs : WellFormed s g) (hn : s.next ≤ n) (hd : d ∈ g.nodes)
    {c : List Char} {w : Nat} : lookupComponent n s d c = some (some w) ↔
      c.length ≤ maxFileName ∧ ∃ v, s.lookup d c = some v ∧ Crosses s v w := by
  unfold lookupComponent
  by_cases hlong : c.length > maxFileName
  · rw [if_pos hlong]
    exact iff_of_false nofun fun h => absurd h.1 (Nat.not_le.2 hlong)
  · rw [if_neg hlong, and_iff_right (Nat.le_of_not_lt hlong)]
    cases hl : s.lookup d c with
    | none => simp
    | some v =>
        have hv := (hs.kid d hd v (hs.lookup_kid hd hl).1).1
        obtain ⟨w', hw'⟩ := hs.redirect hv (Nat.le_trans hn (Nat.le_add_left n v))
        have hcross := redirect_crosses hw'
        simp only [hw', Option.map_some, Option.some.injEq]
        constructor
        · exact fun he => ⟨v, rfl, he ▸ hcross⟩
        · intro ⟨v', hv', hc⟩
          subst hv'
          exact hcross.unique hc

/-- The lookup of a component that fits comes back. -/
theorem WellFormed.lookupComponent_some (hs : WellFormed s g) (hn : s.next ≤ n) (hd : d ∈ g.nodes)
    {c : List Char} : (∃ r, lookupComponent n s d c = some r) ↔ c.length ≤ maxFileName := by
  unfold lookupComponent
  by_cases hlong : c.length > maxFileName
  · rw [if_pos hlong]
    exact iff_of_false (fun h => by simp at h) (Nat.not_le.2 hlong)
  · rw [if_neg hlong]
    refine iff_of_true ?_ (Nat.le_of_not_lt hlong)
    cases hl : s.lookup d c with
    | none => exact ⟨none, rfl⟩
    | some v =>
        have hv := (hs.kid d hd v (hs.lookup_kid hd hl).1).1
        obtain ⟨w, hw⟩ := hs.redirect hv (Nat.le_trans hn (Nat.le_add_left n v))
        exact ⟨some w, by simp [hw]⟩

/-- What the components fit that a walk comes to. -/
theorem WellFormed.walkFits_iff (hs : WellFormed s g) (hn : s.next ≤ n) (hd : d ∈ g.nodes) :
    walkFits n s cs d ↔
      ∀ pre c rest w, cs = pre ++ c :: rest → Resolves s d pre w → c.length ≤ maxFileName := by
  induction cs generalizing d with
  | nil => simp [walkFits]
  | cons c cs ih =>
      constructor
      · intro ⟨hc, hrest⟩ pre c' rest w he hr
        cases pre with
        | nil => exact (List.cons.inj he).1 ▸ hc
        | cons a pre =>
            obtain ⟨rfl, rfl⟩ := List.cons.inj he
            obtain ⟨v, w', hl, hcross, hr⟩ := resolves_cons.1 hr
            have hw' := hs.crosses_mem (hs.kid d hd v (hs.lookup_kid hd hl).1).1 hcross
            have hnext := hrest w' ((hs.lookupComponent_iff hn hd).2 ⟨hc, v, hl, hcross⟩)
            exact (ih hw').1 hnext pre c' rest w rfl hr
      · intro h
        refine ⟨h [] c cs d rfl .here, fun w' hw' => ?_⟩
        obtain ⟨-, v, hl, hcross⟩ := (hs.lookupComponent_iff hn hd).1 hw'
        have hmem := hs.crosses_mem (hs.kid d hd v (hs.lookup_kid hd hl).1).1 hcross
        refine (ih hmem).2 fun pre c' rest w he hr => ?_
        exact h (c :: pre) c' rest w (congrArg (c :: ·) he) (.into hl hcross hr)

/-- The walk comes back just when these components fit. -/
theorem WellFormed.walkComponents_fits (hs : WellFormed s g) (hn : s.next ≤ n) (hd : d ∈ g.nodes) :
    (∃ r, Vfs.walkComponents n s cs d = some r) ↔ walkFits n s cs d := by
  induction cs generalizing d with
  | nil => simp [Vfs.walkComponents, walkFits]
  | cons c cs ih =>
      simp only [Vfs.walkComponents, walkFits, ← hs.lookupComponent_some hn hd]
      cases hc : lookupComponent n s d c with
      | none => simp
      | some r =>
          cases r with
          | none => simp
          | some w =>
              obtain ⟨-, v, hl, hcross⟩ := (hs.lookupComponent_iff hn hd).1 hc
              have hmem := hs.crosses_mem (hs.kid d hd v (hs.lookup_kid hd hl).1).1 hcross
              simp [ih hmem]

/-- `vfs_lookup` comes back from the paths that fit its buffer. -/
theorem WellFormed.vfsLookup_some (hs : WellFormed s g) (hn : s.next ≤ n) :
    (∃ r, s.vfsLookup n p = some r) ↔ s.FitsBuffer p := by
  rw [vfsLookup_eq, hs.walkComponents_fits hn hs.root_mem, hs.walkFits_iff hn hs.root_mem]
  unfold FitsBuffer ComesTo
  constructor
  · exact fun h c ⟨pre, rest, w, he, hr⟩ => h pre c rest w he hr
  · exact fun h pre c rest w he hr => h c ⟨pre, rest, w, he, hr⟩

/-- The indices that `vfs_lookup` writes are those of its buffer for the paths that fit it. -/
theorem WellFormed.writes_iff (hs : WellFormed s g) (hn : s.next ≤ n) :
    (∀ i ∈ (s.vfsLookupWrites n p).1, i < componentBytes) ↔ s.FitsBuffer p := by
  rw [← hs.vfsLookup_some hn, vfsLookup_eq, hs.walkComponents_fits hn hs.root_mem]
  unfold vfsLookupWrites components
  by_cases hp : p = []
  · simp [hp, walkFits]
  · have hid : ((p.drop 1).splitOn '/').modifyHead (([] : List Char) ++ ·) = (p.drop 1).splitOn '/' :=
      congrFun List.modifyHead_id _
    rw [if_neg hp, if_neg hp, lookupWrites_iff, hid]

/-! ## both buffers -/

/-- `vfs_lookup` writes its buffer only, and does not find a path with a component that is too
long. -/
def LookupFits (n : Nat) (p : List Char) (s : Vfs) : Prop :=
  (∀ i ∈ (s.vfsLookupWrites n p).1, i < componentBytes) ∧
    ((∃ c ∈ components p, maxFileName < c.length) → (s.vfsLookupWrites n p).2 = some none)

/-- The name of a node of tmpfs is in its field, with its `NUL`. -/
def NameFits (s : Vfs) (v : Nat) : Prop := (s.nameOf v).length + 1 ≤ nameBytes

instance (s : Vfs) (v : Nat) : Decidable (s.NameFits v) := inferInstanceAs (Decidable (_ ≤ _))

/-- A lookup does what it should just when the walk comes to no component that is too
long. -/
theorem WellFormed.lookupFits_iff (hs : WellFormed s g) (hn : s.next ≤ n) :
    s.LookupFits n p ↔ s.FitsBuffer p := by
  unfold LookupFits
  rw [hs.writes_iff hn, vfsLookupWrites_snd, and_iff_left_iff_imp]
  intro hfits ⟨c, hc, hlong⟩
  obtain ⟨r, hr⟩ := (hs.vfsLookup_some hn).2 hfits
  cases r with
  | none => exact hr
  | some x =>
      rw [vfsLookup_eq] at hr
      have hres := (walkComponents_iff hr x).1 rfl
      obtain ⟨pre, rest, he⟩ := List.append_of_mem hc
      rw [he] at hres
      obtain ⟨w, hpre, -⟩ := resolves_append.1 hres
      have hle := hfits c ⟨pre, rest, w, he, hpre⟩
      omega

/-- **Component names.**  In every state that calls lead to, `vfs_lookup` keeps to its buffer,
and reports a component that is too long, just on the paths along which the walk comes to no
such component; and the name of a node that `tmpfs_create` or `tmpfs_mkdir` makes is in the
field of its inode just when it is shorter than that. -/
theorem componentNames_fit {s₀ : Vfs} {good : Vfs → Nat × VfsCall → Prop}
    (hr : Reach VfsCall.step good s₀.initRoot s) :
    (∀ n p, s.next ≤ n → (s.LookupFits n p ↔ s.FitsBuffer p)) ∧
      ∀ cs d type target name v s', Resolves s s.root cs d → (s.vnodes d).vOps = .tmpfs →
        s.tmpfsMake type d target name = (0, v, s') →
        s'.nameOf v = name ∧ (s'.NameFits v ↔ name.length < maxFileName) := by
  obtain ⟨g, hs⟩ := vfsReach_wellFormed hr
  refine ⟨fun n p hn => hs.lookupFits_iff hn, fun cs d type target name v s' hres hops hmake => ?_⟩
  have hd := hs.resolves_mem hs.root_mem hres
  have hname : s'.nameOf v = name := by
    have hchildren := hs.children hd hops
    have hcases : s.tmpfsMake type d target name = (-1, target, s) ∨ _ := tmpfsMake_cases hchildren target
    cases hcases with
    | inl hrefused =>
        rw [hmake] at hrefused
        have hcode : (0 : Int) = -1 := congrArg Prod.fst hrefused
        omega
    | inr hadded =>
        rw [hmake] at hadded
        have hpair := congrArg Prod.snd hadded.1
        have hv : v = s.next := congrArg Prod.fst hpair
        have hs' : s' = _ := congrArg Prod.snd hpair
        rw [nameOf, hs', hv, tmpfsAdd_inode_new (hs.lt_next d hd) (hs.internal_lt d hd)]
  refine ⟨hname, ?_⟩
  unfold NameFits
  rw [hname]
  exact Nat.succ_le_iff

/-- In front of all calls, with only a root. -/
theorem componentNames_fit_root :
    (∀ n p, zeroVfs.initRoot.next ≤ n →
      (zeroVfs.initRoot.LookupFits n p ↔ zeroVfs.initRoot.FitsBuffer p)) ∧
      ∀ cs d type target name v s', Resolves zeroVfs.initRoot zeroVfs.initRoot.root cs d →
        (zeroVfs.initRoot.vnodes d).vOps = .tmpfs →
        zeroVfs.initRoot.tmpfsMake type d target name = (0, v, s') →
        s'.nameOf v = name ∧ (s'.NameFits v ↔ name.length < maxFileName) :=
  componentNames_fit (.init : Reach VfsCall.step VfsCall.Good zeroVfs.initRoot zeroVfs.initRoot)

set_option maxRecDepth 20000 in
/-- **One character too many**, for either buffer: a component of 16 characters writes index 16 of
`component_name`, and a name of 15 is accepted, whose `NUL` is behind the field. -/
theorem componentNames_overflow :
    ¬ zeroVfs.initRoot.LookupFits 1 "/aaaaaaaaaaaaaaaa".toList ∧
      ∃ v s', zeroVfs.initRoot.tmpfsCreate zeroVfs.initRoot.root 0 "aaaaaaaaaaaaaaa".toList = (0, v, s') ∧
        ¬ s'.NameFits v := by
  constructor
  · intro h
    have hwrite := h.1 16 (by decide)
    exact absurd hwrite (by decide)
  · exact ⟨_, _, rfl, by decide⟩

end Vfs

end RpiKernel
