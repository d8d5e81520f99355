import RpiKernel.Process.Kernel
import RpiKernel.Vfs.Create

/-!
# RpiKernel.Process.OpenFailure

What `vfs_open`, the `open` system call and `vfs_mkdir` do when there is nothing to open,
or when no node can be made.

`vfs_open` uses the vnode of a lookup that failed if `O_CREAT` is not set, and neither
`vfs_open` nor `vfs_mkdir` looks at what `create` and `mkdir` return.  So they fail as they
should just when the directory is not found (`vfsOpen_clean`, `creation_truthful`).
-/

namespace RpiKernel

open Runs

namespace Vfs

variable {s s' : Vfs} {g : Shape} {d h n flags : Nat} {p name : List Char} {cs : List (List Char)}

/-! ## lookups and handles -/

/-- Handles do not matter for lookups. -/
theorem walkComponents_files (f : Nat → FileHandle) (cs : List (List Char)) (d : Nat) :
    walkComponents n { s with files := f } cs d = walkComponents n s cs d := by
  have hredirect : ∀ n v, redirect { s with files := f } n v = redirect s n v := by
    intro n
    induction n with
    | zero => exact fun v => rfl
    | succ n ih =>
        intro v
        simp only [redirect, ih]
  have hcomponent : ∀ c d, lookupComponent n { s with files := f } d c = lookupComponent n s d c := by
    intro c d
    simp only [lookupComponent, hredirect]
    rfl
  induction cs generalizing d with
  | nil => rfl
  | cons c cs ih => simp only [walkComponents, hcomponent, ih]

/-- Opening does not change what a path leads to. -/
theorem vfsLookup_openNode (node : Nat) :
    (s.openNode node h flags).vfsLookup n p = s.vfsLookup n p := by
  rw [vfsLookup_eq, vfsLookup_eq]
  exact walkComponents_files _ _ _

/-- A handle is for the vnode that was opened. -/
theorem openNode_vnode (node : Nat) : ((s.openNode node h flags).files h).vnode = node := by
  unfold openNode openHandle
  cases (s.vnodes node).fOps <;> simp

/-- The components of a path that was found are short. -/
theorem walkComponents_short {x : Nat} (hw : walkComponents n s cs d = some (some x)) :
    ∀ c ∈ cs, c.length ≤ maxFileName := by
  induction cs generalizing d with
  | nil => simp
  | cons c cs ih =>
      simp only [walkComponents] at hw
      cases hc : lookupComponent n s d c with
      | none => simp [hc] at hw
      | some r =>
          have hshort : c.length ≤ maxFileName := by
            unfold lookupComponent at hc
            split at hc
            · contradiction
            · omega
          cases r with
          | none => simp [hc] at hw
          | some d' =>
              simp only [hc] at hw
              exact List.forall_mem_cons.2 ⟨hshort, ih hw⟩

/-- The walk to the directory is part of the one along the path. -/
theorem FitsBuffer.dirPath (hp : p ≠ []) (hf : s.FitsBuffer p) : s.FitsBuffer (dirPath p) := by
  intro c ⟨pre, rest, w, he, hr⟩
  exact hf c ⟨pre, rest ++ [newName p], w, by rw [components_split hp, he]; simp, hr⟩

/-! ## creation -/

/-- The directory of `pathname` is not found, or it accepts the new name. -/
def CanCreate (s : Vfs) (pathname : List Char) : Prop :=
  ∀ d, Resolves s s.root (components (dirPath pathname)) d → s.Accepts d (newName pathname)

/-- The path of a new node is found. -/
theorem WellFormed.lookup_created (hs : WellFormed s g) (hp : p ≠ []) {type : FsnodeType}
    (hdir : s.vfsLookup n (dirPath p) = some (some d)) (ha : s.Accepts d (newName p)) :
    ∃ k, (s.tmpfsAdd type d (g.kids d).length (newName p)).2.vfsLookup k p = some (some s.next) := by
  rw [vfsLookup_eq] at hdir
  have hres := (walkComponents_iff hdir d).1 rfl
  have hd := hs.resolves_mem hs.root_mem hres
  refine ((hs.created hd ha).vfsLookup_iff fun c hc => ?_).2 (hs.resolves_created hp hres ha)
  rw [components_split hp, List.mem_append, List.mem_singleton] at hc
  cases hc with
  | inl hc => exact walkComponents_short hdir c hc
  | inr hc => exact hc ▸ ha.2.2.2.2

/-- What the lookup of a path says about the walk. -/
theorem not_resolves_of_lookup (hl : s.vfsLookup n p = some none) (x : Nat) :
    ¬ Resolves s s.root (components p) x := by
  rw [vfsLookup_eq] at hl
  exact fun hr => absurd ((walkComponents_iff hl x).2 hr) (by simp)

theorem resolves_of_lookup {x : Nat} (hl : s.vfsLookup n p = some (some x)) :
    Resolves s s.root (components p) x := by
  rw [vfsLookup_eq] at hl
  exact (walkComponents_iff hl x).1 rfl

/-- The root is found. -/
theorem ne_nil_of_lookup (hl : s.vfsLookup n p = some none) : p ≠ [] := by
  intro hp
  subst hp
  simp [vfsLookup] at hl

/-! ## opening -/

/-- The loop of the `open` system call, over the descriptors that are left: the value returned,
the descriptor table and the state. -/
def openLoop (n : Nat) (absPath : List Char) (flags handle : Nat) (table : Nat → Nat) (s : Vfs) :
    List Nat → Option (Int × (Nat → Nat) × Vfs)
  | [] => some (-1, table, s)
  | i :: is =>
      if table i = 0 then
        (s.vfsOpen n absPath flags handle).map fun r =>
          if r.1 ≠ 0 then (-1, table, r.2) else ((i : Int), Function.update table i handle, r.2)
      else openLoop n absPath flags handle table s is

/-- The `open` system call; a path that does not fit `abs_path` is not followed. -/
def openFile (n : Nat) (pathname currWorkingDir : List Char) (flags handle : Nat) (table : Nat → Nat)
    (s : Vfs) : Option (Int × (Nat → Nat) × Vfs) :=
  if pathname.length ≥ maxPathName then none
  else openLoop n (getAbsolutePath pathname currWorkingDir) flags handle table s (List.range maxFd)

/-- `vfs_open` comes back, with an error and nothing changed when there is nothing to open and
`O_CREAT` is not set, and with 0 only if the new handle is for the vnode that the path
leads to then. -/
def OpensCleanly (n : Nat) (pathname : List Char) (flags handle : Nat) (s : Vfs) : Prop :=
  ∃ r s', s.vfsOpen n pathname flags handle = some (r, s') ∧
    (s.vfsLookup n pathname = some none → flags &&& oCreat = 0 → r ≠ 0 ∧ s' = s) ∧
    (r = 0 → ∃ k, s'.vfsLookup k pathname = some (some (s'.files handle).vnode))

/-- What `vfs_open` does with `O_CREAT` when the path leads nowhere. -/
theorem vfsOpen_create (hl : s.vfsLookup n p = some none) (hflags : flags &&& oCreat ≠ 0)
    (hlen : p.length ≤ maxPathName) : s.vfsOpen n p flags h =
      match s.vfsLookup n (dirPath p) with
      | none => none
      | some none => some (-1, s)
      | some (some node) =>
          let r := s.create node node (newName p)
          some (0, r.2.2.openNode r.2.1 h flags) := by
  simp only [vfsOpen, hl, hflags, Nat.not_lt.2 hlen, or_self, if_false]
  rfl

/-- Opening with `O_CREAT` is clean just when the node can be made. -/
theorem WellFormed.opensCleanly_create (hs : WellFormed s g) (hn : s.next ≤ n)
    (hl : s.vfsLookup n p = some none) (hflags : flags &&& oCreat ≠ 0) (hlen : p.length ≤ maxPathName) :
    s.OpensCleanly n p flags h ↔ s.CanCreate p := by
  have hp := ne_nil_of_lookup hl
  have hfits : s.FitsBuffer (dirPath p) := ((hs.vfsLookup_some hn).1 ⟨_, hl⟩).dirPath hp
  obtain ⟨r, hdir⟩ := (hs.vfsLookup_some hn).2 hfits
  have hopen := vfsOpen_create (h := h) hl hflags hlen
  cases r with
  | none =>
      refine iff_of_true ⟨-1, s, by rw [hopen, hdir], ?_, ?_⟩ ?_
      · exact fun _ hzero => absurd hzero hflags
      · exact fun hcode => absurd hcode (by decide)
      · exact fun d hd => absurd hd (not_resolves_of_lookup hdir d)
  | some d =>
      have hres := resolves_of_lookup hdir
      have hd := hs.resolves_mem hs.root_mem hres
      have hmake : s.make .file d d (newName p) = _ := hs.make_eq hd d
      simp only [Vfs.make] at hmake
      rw [hdir] at hopen
      simp only [hmake] at hopen
      have hcan : s.CanCreate p ↔ s.Accepts d (newName p) :=
        ⟨fun hc => hc d hres, fun ha d' hd' => hres.unique hd' ▸ ha⟩
      rw [hcan]
      by_cases ha : s.Accepts d (newName p)
      · rw [if_pos ha] at hopen
        refine iff_of_true ⟨0, _, hopen, fun _ hzero => absurd hzero hflags, fun _ => ?_⟩ ha
        obtain ⟨k, hk⟩ : ∃ k,
            (s.tmpfsAdd .file d (g.kids d).length (newName p)).2.vfsLookup k p = some (some s.next) :=
          hs.lookup_created hp hdir ha
        exact ⟨k, by rw [vfsLookup_openNode, openNode_vnode]; exact hk⟩
      · rw [if_neg ha] at hopen
        refine iff_of_false (fun hclean => ?_) ha
        obtain ⟨r, s', ho, -, hzero⟩ := hclean
        -- the handle is for the directory, and the path leads nowhere as before
        obtain ⟨rfl, rfl⟩ := Prod.mk.inj (Option.some.inj (hopen.symm.trans ho))
        obtain ⟨k, hk⟩ := hzero rfl
        rw [vfsLookup_openNode] at hk
        exact not_resolves_of_lookup hl _ (resolves_of_lookup hk)

/-- When `vfs_open` is clean. -/
theorem WellFormed.opensCleanly_iff (hs : WellFormed s g) (hn : s.next ≤ n) :
    s.OpensCleanly n p flags h ↔ s.FitsBuffer p ∧ ((∃ x, Resolves s s.root (components p) x) ∨
      flags &&& oCreat ≠ 0 ∧ p.length ≤ maxPathName ∧ s.CanCreate p) := by
  rw [← hs.vfsLookup_some hn]
  cases hl : s.vfsLookup n p with
  | none =>
      refine iff_of_false (fun hclean => ?_) (by simp)
      obtain ⟨r, s', ho, -, -⟩ := hclean
      simp [Vfs.vfsOpen, hl] at ho
  | some o =>
      cases o with
      | some w =>
          refine iff_of_true ⟨0, s.openNode w h flags, ?_, ?_, fun _ => ⟨n, ?_⟩⟩
            ⟨⟨_, rfl⟩, Or.inl ⟨w, resolves_of_lookup hl⟩⟩
          · simp [Vfs.vfsOpen, hl]
          · exact fun hnone => absurd (hl.symm.trans hnone) (by simp)
          · rw [vfsLookup_openNode, openNode_vnode, hl]
      | none =>
          have hunresolved : ¬ ∃ x, Resolves s s.root (components p) x :=
            fun ⟨x, hx⟩ => not_resolves_of_lookup hl x hx
          rw [and_iff_right ⟨_, rfl⟩, or_iff_right hunresolved]
          by_cases hcan : flags &&& oCreat = 0 ∨ p.length > maxPathName
          · refine iff_of_false (fun hclean => ?_) (fun hc => ?_)
            · obtain ⟨r, s', ho, -, -⟩ := hclean
              simp [Vfs.vfsOpen, hl, hcan] at ho
            · exact hcan.elim hc.1 (Nat.not_lt.2 hc.2.1)
          · obtain ⟨hflags, hlen⟩ := not_or.1 hcan
            rw [and_iff_right hflags, and_iff_right (Nat.le_of_not_lt hlen)]
            exact hs.opensCleanly_create hn hl hflags (Nat.le_of_not_lt hlen)

/-- Where the path leads nowhere and `O_CREAT` is not set, `vfs_open` is not followed. -/
theorem vfsOpen_unresolved (hl : ∀ x, ¬ Resolves s s.root (components p) x) (hflags : flags &&& oCreat = 0) :
    s.vfsOpen n p flags h = none := by
  cases hr : s.vfsLookup n p with
  | none => simp [vfsOpen, hr]
  | some o =>
      cases o with
      | none => simp [vfsOpen, hr, hflags]
      | some x => exact absurd (resolves_of_lookup hr) (hl x)

/-- There, the `open` system call comes back only if it does not come to `vfs_open`. -/
theorem openLoop_missing {table : Nat → Nat} (hl : ∀ x, ¬ Resolves s s.root (components p) x)
    (hflags : flags &&& oCreat = 0) (is : List Nat) :
    openLoop n p flags h table s is = some (-1, table, s) ↔ ∀ i ∈ is, table i ≠ 0 := by
  have hopen : s.vfsOpen n p flags h = none := vfsOpen_unresolved hl hflags
  induction is with
  | nil => simp [openLoop]
  | cons i is ih =>
      rw [openLoop, List.forall_mem_cons]
      by_cases hfree : table i = 0
      · simp [hfree, hopen]
      · rw [if_neg hfree, and_iff_right hfree]
        exact ih

end Vfs

open Vfs in
/-- **Opening a missing file.**  In every state that calls lead to, `vfs_open` fails and opens as it
should if and only if no component that the walk comes to is too long, and the path leads to
a vnode, or `O_CREAT` is set, the path fits its copy, and its directory is not found or
accepts the new name.  The `open` system call fails as it should, without `O_CREAT`, if and
only if it has no descriptor left to try. -/
theorem vfsOpen_clean {s₀ s : Vfs} {good : Vfs → Nat × VfsCall → Prop} {n : Nat}
    (hr : Reach VfsCall.step good s₀.initRoot s) (hn : s.next ≤ n) :
    (∀ p flags h, s.OpensCleanly n p flags h ↔
      s.FitsBuffer p ∧ ((∃ x, Resolves s s.root (components p) x) ∨
        flags &&& oCreat ≠ 0 ∧ p.length ≤ maxPathName ∧ s.CanCreate p)) ∧
    ∀ pathname cwd flags h table, flags &&& oCreat = 0 →
      (∀ x, ¬ Resolves s s.root (components (getAbsolutePath pathname cwd)) x) →
      (s.openFile n pathname cwd flags h table = some (-1, table, s) ↔
        pathname.length < maxPathName ∧ ∀ i < maxFd, table i ≠ 0) := by
  obtain ⟨g, hs⟩ := vfsReach_wellFormed hr
  refine ⟨fun p flags h => hs.opensCleanly_iff hn, fun pathname cwd flags h table hflags hl => ?_⟩
  unfold Vfs.openFile
  by_cases hlong : pathname.length ≥ maxPathName
  · rw [if_pos hlong]
    exact iff_of_false (by simp) fun hc => absurd hc.1 (Nat.not_lt.2 hlong)
  · rw [if_neg hlong, openLoop_missing hl hflags, and_iff_right (Nat.lt_of_not_le hlong)]
    simp

/-- A path with short components fits. -/
theorem Vfs.fitsBuffer_of_short {s : Vfs} {p : List Char} (h : ∀ c ∈ components p, c.length ≤ maxFileName) :
    s.FitsBuffer p := by
  intro c hc
  obtain ⟨pre, rest, w, he, -⟩ := hc
  exact h c (he ▸ by simp)

open Vfs in
/-- A missing file is made with `O_CREAT`, and is not opened without it by a thread that has no
descriptor left. -/
theorem vfsOpen_clean_missing : zeroVfs.initRoot.vfsLookup 1 "/a".toList = some none ∧
    zeroVfs.initRoot.OpensCleanly zeroVfs.initRoot.next "/a".toList oCreat 8 ∧
    zeroVfs.initRoot.openFile zeroVfs.initRoot.next "a".toList "/".toList 0 8 (fun _ => 1) =
      some (-1, fun _ => 1, zeroVfs.initRoot) := by
  have hinit : Reach VfsCall.step VfsCall.Good zeroVfs.initRoot zeroVfs.initRoot := .init
  have hclean := vfsOpen_clean hinit (Nat.le_refl _)
  have hl : zeroVfs.initRoot.vfsLookup 1 "/a".toList = some none := rfl
  refine ⟨hl, (hclean.1 _ _ 8).2 ⟨fitsBuffer_of_short (by decide), Or.inr ⟨by decide, by decide, fun d hd => ?_⟩⟩,
    (hclean.2 _ _ 0 8 _ (by decide) ?_).2 ⟨by decide, fun i _ => one_ne_zero⟩⟩
  · -- the directory is the root
    have hdir : components (dirPath "/a".toList) = [] := by decide
    rw [hdir] at hd
    cases hd
    decide
  · have habs : getAbsolutePath "a".toList "/".toList = "/a".toList := by decide
    rw [habs]
    exact not_resolves_of_lookup hl

/-- **A missing file.**  The lookup fails, and what `vfs_open` goes on with is not initialised. -/
theorem vfsOpen_missing : zeroVfs.initRoot.vfsLookup 1 "/a".toList = some none ∧
    zeroVfs.initRoot.vfsOpen 1 "/a".toList 0 8 = none ∧
    zeroVfs.initRoot.openFile 1 "a".toList "/".toList 0 8 (fun _ => 0) = none ∧
    ¬ zeroVfs.initRoot.OpensCleanly 1 "/a".toList 0 8 := by
  have hopen : zeroVfs.initRoot.vfsOpen 1 "/a".toList 0 8 = none := rfl
  refine ⟨rfl, hopen, rfl, fun hclean => ?_⟩
  obtain ⟨r, s', ho, -, -⟩ := hclean
  rw [hopen] at ho
  contradiction

/-! ## what creation reports -/

namespace Vfs

variable {s s' : Vfs} {g : Shape} {d h n flags : Nat} {p : List Char} {type : FsnodeType}

/-- The backend made the node `v`, and the path leads to it now. -/
def Created (type : FsnodeType) (n : Nat) (pathname : List Char) (s s' : Vfs) (v : Nat) : Prop :=
  ∃ d, s.vfsLookup n (dirPath pathname) = some (some d) ∧
    (s.make type d d (newName pathname)).1 = 0 ∧ (s.make type d d (newName pathname)).2.1 = v ∧
    (s'.inode v).type = type ∧ ∃ k, s'.vfsLookup k pathname = some (some v)

/-- `vfs_open` comes back with 0 just when the file was created, then with a handle for it, and with
an error and nothing changed when it was not. -/
def OpensTruthfully (n : Nat) (pathname : List Char) (flags handle : Nat) (s : Vfs) : Prop :=
  ∃ r s', s.vfsOpen n pathname flags handle = some (r, s') ∧
    (r = 0 ↔ ∃ v, Created .file n pathname s s' v) ∧
    (∀ v, Created .file n pathname s s' v → (s'.files handle).vnode = v) ∧
    ((∀ v, ¬ Created .file n pathname s s' v) → s' = s)

/-- `vfs_mkdir` comes back with 0 just when the directory was created, and with an error and
nothing changed when it was not. -/
def MakesTruthfully (n : Nat) (pathname : List Char) (s : Vfs) : Prop :=
  ∃ r s', s.vfsMkdir n pathname = some (r, s') ∧
    (r = 0 ↔ ∃ v, Created .dir n pathname s s' v) ∧
    ((∀ v, ¬ Created .dir n pathname s s' v) → s' = s)

/-- Nothing is created where the directory is not found. -/
theorem not_created_of_lookup (hdir : s.vfsLookup n (dirPath p) = some none) (v : Nat) :
    ¬ Created type n p s s' v := by
  intro hcreated
  obtain ⟨d, hd, -⟩ := hcreated
  rw [hdir] at hd
  simp at hd

/-- Nothing is created that is not accepted. -/
theorem WellFormed.not_created (hs : WellFormed s g) (hdir : s.vfsLookup n (dirPath p) = some (some d))
    (ha : ¬ s.Accepts d (newName p)) (v : Nat) : ¬ Created type n p s s' v := by
  intro hcreated
  obtain ⟨d', hd', hmade, -⟩ := hcreated
  rw [hdir] at hd'
  obtain rfl := Option.some.inj (Option.some.inj hd')
  rw [hs.make_eq (hs.resolves_mem hs.root_mem (resolves_of_lookup hdir)), if_neg ha] at hmade
  have hcode : (-1 : Int) = 0 := hmade
  omega

/-- Opening does not change what was created. -/
theorem created_openNode (node v : Nat) :
    Created type n p s (s'.openNode node h flags) v ↔ Created type n p s s' v := by
  have hlookup : ∀ k, (s'.openNode node h flags).vfsLookup k p = s'.vfsLookup k p :=
    fun _ => vfsLookup_openNode node
  have hinode : (s'.openNode node h flags).inode v = s'.inode v := rfl
  unfold Created
  rw [hinode]
  simp only [hlookup]

/-- What is accepted is created. -/
theorem WellFormed.created_iff (hs : WellFormed s g) (hp : p ≠ [])
    (hdir : s.vfsLookup n (dirPath p) = some (some d)) (ha : s.Accepts d (newName p)) (v : Nat) :
    Created type n p s (s.tmpfsAdd type d (g.kids d).length (newName p)).2 v ↔ v = s.next := by
  have hd := hs.resolves_mem hs.root_mem (resolves_of_lookup hdir)
  have hmake : s.make type d d (newName p) = _ := hs.make_eq hd d
  rw [if_pos ha] at hmake
  constructor
  · intro hcreated
    obtain ⟨d', hd', -, hv, -⟩ := hcreated
    rw [hdir] at hd'
    obtain rfl := Option.some.inj (Option.some.inj hd')
    rw [hmake] at hv
    exact hv.symm
  · intro hv
    subst hv
    refine ⟨d, hdir, by rw [hmake], by rw [hmake]; rfl, ?_, hs.lookup_created hp hdir ha⟩
    rw [tmpfsAdd_inode_new (hs.lt_next d hd) (hs.internal_lt d hd)]

/-- One vnode of the directory. -/
theorem canCreate_iff (hdir : s.vfsLookup n (dirPath p) = some (some d)) :
    s.CanCreate p ↔ s.Accepts d (newName p) :=
  ⟨fun hc => hc d (resolves_of_lookup hdir), fun ha _ hd' => (resolves_of_lookup hdir).unique hd' ▸ ha⟩

/-- When `vfs_open` reports a creation as it should, where the lookup comes back. -/
theorem WellFormed.opensTruthfully_lookup (hs : WellFormed s g) (hn : s.next ≤ n)
    (hl : s.vfsLookup n p = some none) (hflags : flags &&& oCreat ≠ 0) :
    s.OpensTruthfully n p flags h ↔ p.length ≤ maxPathName ∧ s.CanCreate p := by
  have hp := ne_nil_of_lookup hl
  by_cases hlen : p.length ≤ maxPathName
  · have hfits : s.FitsBuffer (dirPath p) := ((hs.vfsLookup_some hn).1 ⟨_, hl⟩).dirPath hp
    obtain ⟨r, hdir⟩ := (hs.vfsLookup_some hn).2 hfits
    have hopen := vfsOpen_create (h := h) hl hflags hlen
    rw [and_iff_right hlen]
    cases r with
    | none =>
        rw [hdir] at hopen
        have hnot : ∀ v, ¬ Created .file n p s s v := fun v => not_created_of_lookup hdir v
        refine iff_of_true ⟨-1, s, hopen, ?_, fun v hv => absurd hv (hnot v), fun _ => rfl⟩ ?_
        · exact iff_of_false (by decide) fun hv => hnot _ hv.choose_spec
        · exact fun d hd => absurd hd (not_resolves_of_lookup hdir d)
    | some d =>
        have hd := hs.resolves_mem hs.root_mem (resolves_of_lookup hdir)
        have hmake : s.make .file d d (newName p) = _ := hs.make_eq hd d
        simp only [Vfs.make] at hmake
        rw [hdir] at hopen
        simp only [hmake] at hopen
        rw [canCreate_iff hdir]
        by_cases ha : s.Accepts d (newName p)
        · rw [if_pos ha] at hopen
          have hcreated : ∀ v,
              Created .file n p s (s.tmpfsAdd .file d (g.kids d).length (newName p)).2 v ↔ v = s.next :=
            hs.created_iff hp hdir ha
          refine iff_of_true ⟨0, _, hopen, iff_of_true rfl ⟨s.next, ?_⟩, fun v hv => ?_, fun hnone => ?_⟩ ha
          · exact (created_openNode _ _).2 ((hcreated _).2 rfl)
          · rw [openNode_vnode]
            exact ((hcreated v).1 ((created_openNode _ _).1 hv)).symm
          · exact absurd ((created_openNode _ _).2 ((hcreated _).2 rfl)) (hnone s.next)
        · rw [if_neg ha] at hopen
          refine iff_of_false (fun htrue => ?_) ha
          obtain ⟨r, s', ho, hzero, -, -⟩ := htrue
          obtain ⟨rfl, rfl⟩ := Prod.mk.inj (Option.some.inj (hopen.symm.trans ho))
          obtain ⟨v, hv⟩ := hzero.1 rfl
          exact hs.not_created hdir ha v hv
  · refine iff_of_false (fun htrue => ?_) fun hc => hlen hc.1
    obtain ⟨r, s', ho, -⟩ := htrue
    have hlong : p.length > maxPathName := Nat.lt_of_not_le hlen
    simp [Vfs.vfsOpen, hl, hlong] at ho

/-- When `vfs_open` reports a creation as it should. -/
theorem WellFormed.opensTruthfully_iff (hs : WellFormed s g) (hn : s.next ≤ n)
    (hl : ∀ x, ¬ Resolves s s.root (components p) x) (hflags : flags &&& oCreat ≠ 0) :
    s.OpensTruthfully n p flags h ↔ s.FitsBuffer p ∧ p.length ≤ maxPathName ∧ s.CanCreate p := by
  rw [← hs.vfsLookup_some hn]
  cases hr : s.vfsLookup n p with
  | none =>
      refine iff_of_false (fun htrue => ?_) (by simp)
      obtain ⟨r, s', ho, -⟩ := htrue
      simp [Vfs.vfsOpen, hr] at ho
  | some o =>
      cases o with
      | none =>
          have hcomes : ∃ r, some (none : Option Nat) = some r := ⟨none, rfl⟩
          rw [and_iff_right hcomes]
          exact hs.opensTruthfully_lookup hn hr hflags
      | some x => exact absurd (resolves_of_lookup hr) (hl x)

/-- What `vfs_mkdir` does with a path that fits its buffers. -/
theorem vfsMkdir_eq (hdirname : (dirPath p).length < maxPathName) (hname : (newName p).length < maxPathName) :
    s.vfsMkdir n p = match s.vfsLookup n (dirPath p) with
      | none => none
      | some none => some (-1, s)
      | some (some node) => some (0, (s.mkdir node node (newName p)).2.2) := by
  have hbuffers : ¬ ((dirPath p).length ≥ maxPathName ∨ (newName p).length ≥ maxPathName) := by omega
  exact if_neg hbuffers

/-- The root is not made by its path. -/
theorem WellFormed.not_created_nil (hs : WellFormed s g) (hd : d ∈ g.nodes) (ha : s.Accepts d (newName []))
    (hdir : s.vfsLookup n (dirPath []) = some (some d)) (v : Nat) :
    ¬ Created type n [] s (s.tmpfsAdd type d (g.kids d).length (newName [])).2 v := by
  intro hcreated
  obtain ⟨d', hd', -, hv, -, k, hk⟩ := hcreated
  rw [hdir] at hd'
  obtain rfl := Option.some.inj (Option.some.inj hd')
  rw [hs.make_eq hd, if_pos ha] at hv
  have hnext : s.next = v := hv
  have hroot : s.root = v := Option.some.inj (Option.some.inj hk)
  have hlt := hs.lt_next _ hs.root_mem
  omega

/-- When `vfs_mkdir` reports a creation as it should. -/
theorem WellFormed.makesTruthfully_iff (hs : WellFormed s g) (hn : s.next ≤ n) :
    s.MakesTruthfully n p ↔ p ≠ [] ∧ (dirPath p).length < maxPathName ∧
      (newName p).length < maxPathName ∧ s.FitsBuffer (dirPath p) ∧ s.CanCreate p := by
  by_cases hbuffers : (dirPath p).length < maxPathName ∧ (newName p).length < maxPathName
  · have hmkdir := vfsMkdir_eq (s := s) (n := n) hbuffers.1 hbuffers.2
    rw [and_iff_right hbuffers.1, and_iff_right hbuffers.2, ← hs.vfsLookup_some hn]
    cases hdir : s.vfsLookup n (dirPath p) with
    | none =>
        rw [hdir] at hmkdir
        refine iff_of_false (fun htrue => ?_) (by simp)
        obtain ⟨r, s', hm, -⟩ := htrue
        rw [hmkdir] at hm
        contradiction
    | some o =>
        have hcomes : ∃ r, some o = some r := ⟨o, rfl⟩
        rw [and_iff_right hcomes]
        cases o with
        | none =>
            rw [hdir] at hmkdir
            have hp : p ≠ [] := by
              intro hp
              subst hp
              exact ne_nil_of_lookup hdir rfl
            have hnot : ∀ v, ¬ Created .dir n p s s v := fun v => not_created_of_lookup hdir v
            refine iff_of_true ⟨-1, s, hmkdir, ?_, fun _ => rfl⟩ ⟨hp, ?_⟩
            · exact iff_of_false (by decide) fun hv => hnot _ hv.choose_spec
            · exact fun d hd => absurd hd (not_resolves_of_lookup hdir d)
        | some d =>
            have hd := hs.resolves_mem hs.root_mem (resolves_of_lookup hdir)
            have hmake : s.make .dir d d (newName p) = _ := hs.make_eq hd d
            simp only [Vfs.make] at hmake
            rw [hdir] at hmkdir
            simp only [hmake] at hmkdir
            rw [canCreate_iff hdir]
            by_cases ha : s.Accepts d (newName p)
            · rw [if_pos ha] at hmkdir
              by_cases hp : p = []
              · subst hp
                refine iff_of_false (fun htrue => ?_) fun hc => hc.1 rfl
                obtain ⟨r, s', hm, hzero, -⟩ := htrue
                obtain ⟨rfl, rfl⟩ := Prod.mk.inj (Option.some.inj (hmkdir.symm.trans hm))
                obtain ⟨v, hv⟩ := hzero.1 rfl
                exact hs.not_created_nil hd ha hdir v hv
              · have hcreated : ∀ v,
                    Created .dir n p s (s.tmpfsAdd .dir d (g.kids d).length (newName p)).2 v ↔ v = s.next :=
                  hs.created_iff hp hdir ha
                refine iff_of_true ⟨0, _, hmkdir, iff_of_true rfl ⟨s.next, ?_⟩, fun hnone => ?_⟩ ⟨hp, ha⟩
                · exact (hcreated _).2 rfl
                · exact absurd ((hcreated _).2 rfl) (hnone s.next)
            · rw [if_neg ha] at hmkdir
              refine iff_of_false (fun htrue => ?_) fun hc => ha hc.2
              obtain ⟨r, s', hm, hzero, -⟩ := htrue
              obtain ⟨rfl, rfl⟩ := Prod.mk.inj (Option.some.inj (hmkdir.symm.trans hm))
              obtain ⟨v, hv⟩ := hzero.1 rfl
              exact hs.not_created hdir ha v hv
  · refine iff_of_false (fun htrue => ?_) fun hc => hbuffers ⟨hc.2.1, hc.2.2.1⟩
    obtain ⟨r, s', hm, -⟩ := htrue
    have hlong : (dirPath p).length ≥ maxPathName ∨ (newName p).length ≥ maxPathName := by omega
    have hnone : s.vfsMkdir n p = none := if_pos hlong
    rw [hnone] at hm
    contradiction

end Vfs

open Vfs in
/-- **Truthful creation.**  In every state that calls lead to, `vfs_open` with `O_CREAT` on a path that
leads nowhere, and `vfs_mkdir`, report what they did if and only if the path fits their
buffers, and its directory is not found or accepts the new name. -/
theorem creation_truthful {s₀ s : Vfs} {good : Vfs → Nat × VfsCall → Prop} {n : Nat}
    (hr : Reach VfsCall.step good s₀.initRoot s) (hn : s.next ≤ n) :
    (∀ p flags h, (∀ x, ¬ Resolves s s.root (components p) x) → flags &&& oCreat ≠ 0 →
      (s.OpensTruthfully n p flags h ↔ s.FitsBuffer p ∧ p.length ≤ maxPathName ∧ s.CanCreate p)) ∧
    ∀ p, s.MakesTruthfully n p ↔ p ≠ [] ∧ (dirPath p).length < maxPathName ∧
      (newName p).length < maxPathName ∧ s.FitsBuffer (dirPath p) ∧ s.CanCreate p := by
  obtain ⟨g, hs⟩ := vfsReach_wellFormed hr
  exact ⟨fun p flags h hl hflags => hs.opensTruthfully_iff hn hl hflags, fun p => hs.makesTruthfully_iff hn⟩

open Vfs in
/-- A directory below a root that is not there. -/
theorem creation_truthful_missing : zeroVfs.initRoot.MakesTruthfully zeroVfs.initRoot.next "/a/b".toList := by
  have hinit : Reach VfsCall.step VfsCall.Good zeroVfs.initRoot zeroVfs.initRoot := .init
  have htruthful := (creation_truthful hinit (Nat.le_refl _)).2 "/a/b".toList
  have hl : zeroVfs.initRoot.vfsLookup 1 (dirPath "/a/b".toList) = some none := rfl
  refine htruthful.2 ⟨by decide, by decide, by decide, fitsBuffer_of_short (by decide), fun d hd => ?_⟩
  exact absurd hd (not_resolves_of_lookup hl d)

/-- A file below the root. -/
def oneFile : Vfs := ((zeroVfs.initRoot.vfsOpen 1 "/a".toList oCreat 8).getD (0, zeroVfs)).2

open Vfs in
/-- **A refusal that is not seen.**  A node below a file is not made, but `vfs_open` returns 0
with a handle for the file, and `vfs_mkdir` returns 0. -/
theorem creation_refused :
    VfsCall.step zeroVfs.initRoot (1, .open "/a".toList oCreat 8) = some oneFile ∧
    (∃ s' v, oneFile.vfsOpen 1 "/a/b".toList oCreat 16 = some (0, s') ∧
      oneFile.vfsLookup 1 "/a".toList = some (some v) ∧ (s'.files 16).vnode = v) ∧
    oneFile.vfsMkdir 1 "/a/b".toList = some (0, oneFile) ∧
    oneFile.vfsLookup 1 "/a/b".toList = some none ∧
    ¬ oneFile.OpensTruthfully 1 "/a/b".toList oCreat 16 ∧
    ¬ oneFile.MakesTruthfully 1 "/a/b".toList := by
  have hopen : oneFile.vfsOpen 1 "/a/b".toList oCreat 16 = some (0, oneFile.openNode 4328 16 oCreat) := rfl
  have hmkdir : oneFile.vfsMkdir 1 "/a/b".toList = some (0, oneFile) := rfl
  have hdir : oneFile.vfsLookup 1 (dirPath "/a/b".toList) = some (some 4328) := rfl
  have hrefused : ∀ type v s', ¬ Created type 1 "/a/b".toList oneFile s' v := by
    intro type v s' hcreated
    obtain ⟨d, hd, hmade, -⟩ := hcreated
    rw [hdir] at hd
    obtain rfl := Option.some.inj (Option.some.inj hd)
    cases type <;> exact absurd hmade (by decide)
  refine ⟨rfl, ⟨_, _, hopen, hdir, rfl⟩, hmkdir, rfl, fun htrue => ?_, fun htrue => ?_⟩
  · obtain ⟨r, s', ho, hzero, -, -⟩ := htrue
    obtain ⟨rfl, rfl⟩ := Prod.mk.inj (Option.some.inj (hopen.symm.trans ho))
    obtain ⟨v, hv⟩ := hzero.1 rfl
    exact hrefused _ v _ hv
  · obtain ⟨r, s', hm, hzero, -⟩ := htrue
    obtain ⟨rfl, rfl⟩ := Prod.mk.inj (Option.some.inj (hmkdir.symm.trans hm))
    obtain ⟨v, hv⟩ := hzero.1 rfl
    exact hrefused _ v _ hv

end RpiKernel
