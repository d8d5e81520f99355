import RpiKernel.Lib.Forest
import RpiKernel.Vfs.Path
import Mathlib.Data.List.ReduceOption

/-!
# RpiKernel.Vfs.Tree

The mounted file systems as one tree.

* `Resolves s d cs v` — the walk along the components `cs` from `d`, crossing
  into the mounted root after each component whose vnode has a mount;
* `WellFormed s g` — the invariant: entries and mounts lead from older to newer
  vnodes, and to every vnode in one way only, which `g` records;
* `vfsLookup_iff` — `vfs_lookup` comes back with the result of the walk along
  the components it splits its path into.
-/

namespace RpiKernel

open Bytes Forest

namespace Vfs

variable {s s' : Vfs} {u v w d x : Nat} {c : List Char} {cs : List (List Char)} {n : Nat}

/-! ## walks -/

/-- Through the mounts at `v` to a vnode without one. -/
inductive Crosses (s : Vfs) : Nat → Nat → Prop
  | stay {v : Nat} : (s.vnodes v).mount = 0 → Crosses s v v
  | enter {v w : Nat} : (s.vnodes v).mount ≠ 0 →
      Crosses s (s.mounts (s.vnodes v).mount).root w → Crosses s v w

/-- The walk along components. -/
inductive Resolves (s : Vfs) : Nat → List (List Char) → Nat → Prop
  | here {d : Nat} : Resolves s d [] d
  | into {d v w x : Nat} {c : List Char} {cs : List (List Char)} : s.lookup d c = some v →
      Crosses s v w → Resolves s w cs x → Resolves s d (c :: cs) x

/-- Mounts lead to one vnode. -/
theorem Crosses.unique (h : Crosses s v w) (h' : Crosses s v x) : w = x := by
  induction h with
  | stay h0 =>
      cases h' with
      | stay => rfl
      | enter hne => exact absurd h0 hne
  | enter hne _ ih =>
      cases h' with
      | stay h0 => exact absurd h0 hne
      | enter _ h' => exact ih h'

/-- The vnode behind the mounts has none. -/
theorem Crosses.mount_eq_zero (h : Crosses s v w) : (s.vnodes w).mount = 0 := by
  induction h with
  | stay h0 => exact h0
  | enter _ _ ih => exact ih

/-- One component, then the rest. -/
theorem resolves_cons : Resolves s d (c :: cs) x ↔
    ∃ v w, s.lookup d c = some v ∧ Crosses s v w ∧ Resolves s w cs x := by
  constructor
  case mp =>
    intro h
    cases h with
    | into hl hc hr => exact ⟨_, _, hl, hc, hr⟩
  case mpr => exact fun ⟨_, _, hl, hc, hr⟩ => .into hl hc hr

theorem resolves_nil : Resolves s d [] x ↔ d = x := by
  constructor
  case mp =>
    intro h
    cases h
    rfl
  case mpr => exact fun h => h ▸ .here

/-- A walk in two parts. -/
theorem resolves_append {cs' : List (List Char)} :
    Resolves s d (cs ++ cs') x ↔ ∃ w, Resolves s d cs w ∧ Resolves s w cs' x := by
  induction cs generalizing d with
  | nil => simp [resolves_nil]
  | cons c cs ih =>
      simp only [List.cons_append, resolves_cons, ih]
      constructor
      case mp => exact fun ⟨v, w, hl, hc, y, hr, hr'⟩ => ⟨y, ⟨v, w, hl, hc, hr⟩, hr'⟩
      case mpr => exact fun ⟨y, ⟨v, w, hl, hc, hr⟩, hr'⟩ => ⟨v, w, hl, hc, y, hr, hr'⟩

/-- A walk leads to one vnode. -/
theorem Resolves.unique (h : Resolves s d cs w) (h' : Resolves s d cs x) : w = x := by
  induction h with
  | here => exact resolves_nil.1 h'
  | into hl hc _ ih =>
      obtain ⟨v', w', hl', hc', hr'⟩ := resolves_cons.1 h'
      obtain rfl := Option.some.inj (hl.symm.trans hl')
      obtain rfl := hc.unique hc'
      exact ih hr'

/-! ## what `vfs_lookup` computes -/

/-- The components that `vfs_lookup` looks up: what stands between the slashes
behind the first character, empty or not. -/
def components (pathname : List Char) : List (List Char) :=
  if pathname = [] then [] else (pathname.drop 1).splitOn '/'

/-- The lookups of `vfs_lookup`, one component after the other. -/
def walkComponents (n : Nat) (s : Vfs) : List (List Char) → Nat → Option (Option Nat)
  | [], dirnode => some (some dirnode)
  | c :: cs, dirnode =>
      match lookupComponent n s dirnode c with
      | some (some dirnode) => walkComponents n s cs dirnode
      | r => r

/-- The loop splits at the slashes. -/
theorem lookupLoop_eq (p acc : List Char) (d : Nat) : lookupLoop n s p acc d =
    walkComponents n s ((p.splitOn '/').modifyHead (acc ++ ·)) d := by
  induction p generalizing acc d with
  | nil =>
      simp only [lookupLoop, List.splitOn_nil, List.modifyHead_cons, List.append_nil, walkComponents]
      cases lookupComponent n s d acc with
      | none => rfl
      | some r => cases r <;> rfl
  | cons c p ih =>
      rw [lookupLoop, List.splitOn, List.splitOnP_cons_eq_if_modifyHead]
      by_cases hc : c = '/'
      · simp only [hc, if_true, beq_self_eq_true, List.modifyHead_cons, List.append_nil,
          walkComponents]
        cases lookupComponent n s d acc with
        | none => rfl
        | some r =>
            cases r with
            | none => rfl
            | some d' =>
                simp only [ih]
                congr 1
                have hid : (([] : List Char) ++ ·) = id := funext fun _ => rfl
                rw [hid, List.modifyHead_id]
                rfl
      · simp only [hc, if_false, beq_iff_eq, ih, List.modifyHead_modifyHead]
        congr 2
        funext l
        simp

/-- `vfs_lookup` walks along the components. -/
theorem vfsLookup_eq (pathname : List Char) :
    s.vfsLookup n pathname = walkComponents n s (components pathname) s.root := by
  unfold vfsLookup components
  by_cases hp : pathname = []
  · simp [hp, walkComponents]
  · rw [if_neg hp, if_neg hp, lookupLoop_eq]
    have hid : (([] : List Char) ++ ·) = id := funext fun _ => rfl
    rw [hid, List.modifyHead_id]
    rfl

/-- What the redirection loop returns is behind the mounts. -/
theorem redirect_crosses (h : s.redirect n v = some w) : Crosses s v w := by
  induction n generalizing v with
  | zero => contradiction
  | succ n ih =>
      unfold redirect at h
      split at h
      next h0 => exact Option.some.inj h ▸ .stay h0
      next hne => exact .enter hne (ih h)

/-- A result of the walk is that of `Resolves`. -/
theorem walkComponents_iff {r : Option Nat} (h : walkComponents n s cs d = some r) (x : Nat) :
    r = some x ↔ Resolves s d cs x := by
  induction cs generalizing d with
  | nil =>
      obtain rfl := Option.some.inj h
      rw [resolves_nil, Option.some.injEq]
  | cons c cs ih =>
      rw [resolves_cons]
      simp only [walkComponents, lookupComponent] at h
      by_cases hlen : c.length > maxFileName
      · simp [hlen] at h
      · rw [if_neg hlen] at h
        cases hl : s.lookup d c with
        | none =>
            rw [hl] at h
            obtain rfl := Option.some.inj h
            simp
        | some v =>
            simp only [hl] at h
            cases hc : s.redirect n v with
            | none => simp [hc] at h
            | some w =>
                simp only [hc, Option.map_some] at h
                rw [ih h]
                have hcross := redirect_crosses hc
                constructor
                case mp => exact fun hr => ⟨v, w, rfl, hcross, hr⟩
                case mpr =>
                  intro ⟨v', w', hv', hc', hr⟩
                  obtain rfl := Option.some.inj hv'
                  rwa [hcross.unique hc']

/-! ## the tree -/

/-- The entries of a directory of either file system. -/
def entries (s : Vfs) (d : Nat) : Nat → Nat :=
  match (s.vnodes d).vOps with
  | .tmpfs => (s.inode d).entry
  | .initramfs => (s.ramInode d).entry

/-- How many entries a directory has. -/
def entryCount : VnodeOps → Nat
  | .tmpfs => maxDirEntry
  | .initramfs => initramfsMaxDirEntry

/-- The comparison with the name of a vnode. -/
def hasName (s : Vfs) (ops : VnodeOps) (c : List Char) (v : Nat) : Bool :=
  match ops with
  | .tmpfs => c = (s.inode v).name
  | .initramfs => sameString s.mem c (s.ramInode v).name

/-- How the tree is built: its vnodes, the occupied entries of each, and the
vnode above each, with `true` for the root of a mount. -/
structure Shape where
  nodes : List Nat
  kids : Nat → List Nat
  up : Nat → Nat × Bool

/-- Entries and mounts lead from older to newer vnodes, in one way to each. -/
structure WellFormed (s : Vfs) (g : Shape) : Prop where
  root_mem : s.root ∈ g.nodes
  root_le : ∀ v ∈ g.nodes, s.root ≤ v
  rootfs_lt : s.rootfs < s.next
  lt_next : ∀ v ∈ g.nodes, v < s.next
  internal_lt : ∀ v ∈ g.nodes, (s.vnodes v).internal < s.next
  internal_inj : ∀ u ∈ g.nodes, ∀ v ∈ g.nodes,
    (s.vnodes u).internal = (s.vnodes v).internal → u = v
  mount_lt : ∀ v ∈ g.nodes, (s.vnodes v).mount < s.next
  occupied : ∀ d ∈ g.nodes, Occupied (s.entries d) (entryCount (s.vnodes d).vOps) (g.kids d)
  kid : ∀ d ∈ g.nodes, ∀ v ∈ g.kids d, v ∈ g.nodes ∧ d < v ∧
    (s.vnodes v).vOps = (s.vnodes d).vOps ∧ g.up v = (d, false)
  mounted : ∀ d ∈ g.nodes, (s.vnodes d).mount ≠ 0 →
    (s.mounts (s.vnodes d).mount).root ∈ g.nodes ∧ d < (s.mounts (s.vnodes d).mount).root ∧
      g.up (s.mounts (s.vnodes d).mount).root = (d, true)

variable {g : Shape}

/-- Both lookups search the entries for the name. -/
theorem lookup_eq_find (s : Vfs) (d : Nat) (c : List Char) : s.lookup d c =
    findEntry (s.entries d) (s.hasName (s.vnodes d).vOps c)
      (List.range (entryCount (s.vnodes d).vOps)) := by
  cases h : (s.vnodes d).vOps <;> simp [lookup, entries, entryCount, h] <;> rfl

/-- A lookup finds the first kid with the name. -/
theorem WellFormed.lookup_eq (hs : WellFormed s g) (hd : d ∈ g.nodes) (c : List Char) :
    s.lookup d c = (g.kids d).find? (s.hasName (s.vnodes d).vOps c) := by
  rw [lookup_eq_find, (hs.occupied d hd).find_eq]

/-- What a lookup finds is a kid of that name. -/
theorem WellFormed.lookup_kid (hs : WellFormed s g) (hd : d ∈ g.nodes) (h : s.lookup d c = some v) :
    v ∈ g.kids d ∧ s.hasName (s.vnodes d).vOps c v := by
  rw [hs.lookup_eq hd] at h
  exact ⟨List.mem_of_find?_eq_some h, List.find?_some h⟩

/-- The entries of a directory of tmpfs. -/
theorem WellFormed.children (hs : WellFormed s g) (hd : d ∈ g.nodes) (hops : (s.vnodes d).vOps = .tmpfs) :
    s.Children d (g.kids d) := by
  have hocc := hs.occupied d hd
  simp only [entries, hops] at hocc
  exact hocc

/-- A vnode has one name. -/
theorem hasName_unique {ops : VnodeOps} {c c' : List Char} (hc : '\x00' ∉ c) (hc' : '\x00' ∉ c')
    (h : s.hasName ops c v) (h' : s.hasName ops c' v) : c = c' := by
  cases ops with
  | tmpfs =>
      simp only [hasName, decide_eq_true_eq] at h h'
      rw [h, h']
  | initramfs =>
      simp only [hasName] at h h'
      generalize (s.ramInode v).name = p at h h'
      induction c generalizing c' p with
      | nil =>
          cases c' with
          | nil => rfl
          | cons b c' =>
              simp only [sameString, beq_iff_eq, Bool.and_eq_true] at h h'
              rw [h] at h'
              exact absurd (List.mem_cons.2 (.inl h'.1.symm)) hc'
      | cons a c ih =>
          cases c' with
          | nil =>
              simp only [sameString, beq_iff_eq, Bool.and_eq_true] at h h'
              rw [h'] at h
              exact absurd (List.mem_cons.2 (.inl h.1.symm)) hc
          | cons b c' =>
              simp only [sameString, beq_iff_eq, Bool.and_eq_true] at h h'
              simp only [List.mem_cons, not_or] at hc hc'
              rw [h.1, h'.1, ih hc.2 hc'.2 _ h.2 h'.2]

/-- The edges of the tree: an entry with its name, or a mount. -/
inductive Edge (s : Vfs) : Nat → Option (List Char) → Nat → Prop
  | entry {d v : Nat} {c : List Char} : '\x00' ∉ c → s.lookup d c = some v → Edge s d (some c) v
  | mount {d : Nat} : (s.vnodes d).mount ≠ 0 → Edge s d none (s.mounts (s.vnodes d).mount).root

/-- The vnode above the end of an edge. -/
theorem WellFormed.edge_up (hs : WellFormed s g) (hd : d ∈ g.nodes) {l : Option (List Char)}
    (h : Edge s d l v) : v ∈ g.nodes ∧ d < v ∧ g.up v = (d, l.isNone) := by
  cases h with
  | entry _ hl =>
      obtain ⟨hm, hlt, -, hup⟩ := hs.kid d hd v (hs.lookup_kid hd hl).1
      exact ⟨hm, hlt, hup⟩
  | mount hm => exact hs.mounted d hd hm

/-- The vnodes are a forest. -/
theorem WellFormed.isForest (hs : WellFormed s g) : IsForest (Edge s) (· ∈ g.nodes) s.root where
  root := hs.root_mem
  closed ha he := (hs.edge_up ha he).1
  unique {a a' l l' b} ha ha' he he' := by
    have hup := (hs.edge_up ha he).2.2
    have hup' := (hs.edge_up ha' he').2.2
    obtain ⟨rfl, hl⟩ := Prod.mk.inj (hup.symm.trans hup')
    refine ⟨rfl, ?_⟩
    cases he with
    | entry hc h =>
        cases he' with
        | entry hc' h' =>
            rw [hasName_unique hc hc' (hs.lookup_kid ha h).2 (hs.lookup_kid ha h').2]
        | mount => contradiction
    | mount =>
        cases he' with
        | entry => contradiction
        | mount => rfl
  first ha he := Nat.not_lt.2 (hs.root_le _ ha) (hs.edge_up ha he).2.1

/-- Every vnode is in front of one without a mount. -/
theorem WellFormed.redirect (hs : WellFormed s g) (hv : v ∈ g.nodes) (hn : s.next ≤ v + n) :
    ∃ w, s.redirect n v = some w := by
  induction n generalizing v with
  | zero =>
      have hlt := hs.lt_next v hv
      omega
  | succ n ih =>
      unfold Vfs.redirect
      by_cases h0 : (s.vnodes v).mount = 0
      · exact ⟨v, by rw [if_pos h0]⟩
      · obtain ⟨hm, hlt, -⟩ := hs.mounted v hv h0
        rw [if_neg h0]
        exact ih hm (by omega)

/-- Mounts stay in the tree. -/
theorem WellFormed.crosses_mem (hs : WellFormed s g) (hv : v ∈ g.nodes) (h : Crosses s v w) :
    w ∈ g.nodes := by
  induction h with
  | stay => exact hv
  | enter hne _ ih => exact ih (hs.mounted _ hv hne).1

/-- Walks stay in the tree. -/
theorem WellFormed.resolves_mem (hs : WellFormed s g) (hd : d ∈ g.nodes) (h : Resolves s d cs x) :
    x ∈ g.nodes := by
  induction h with
  | here => exact hd
  | into hl hc _ ih =>
      exact ih (hs.crosses_mem (hs.kid _ hd _ (hs.lookup_kid hd hl).1).1 hc)

/-- Crossing mounts is a path without names. -/
theorem Crosses.path (h : Crosses s v w) :
    ∃ ls, Path (Edge s) v ls w ∧ ls.reduceOption = [] := by
  induction h with
  | stay => exact ⟨[], .nil, rfl⟩
  | enter hne _ ih =>
      obtain ⟨ls, hp, hls⟩ := ih
      exact ⟨none :: ls, (Path.single (.mount hne)).append hp, hls⟩

/-- A walk is a path with the components as its names. -/
theorem Resolves.path (hc : ∀ c ∈ cs, '\x00' ∉ c) (h : Resolves s d cs x) :
    ∃ ls, Path (Edge s) d ls x ∧ ls.reduceOption = cs := by
  induction h with
  | here => exact ⟨[], .nil, rfl⟩
  | @into d v w x c cs hl hcross _ ih =>
      obtain ⟨hnul, hrest⟩ := List.forall_mem_cons.1 hc
      obtain ⟨ls, hp, hls⟩ := hcross.path
      obtain ⟨ls', hp', hls'⟩ := ih hrest
      refine ⟨[some c] ++ ls ++ ls', ((Path.single (.entry hnul hl)).append hp).append hp', ?_⟩
      rw [List.reduceOption_append, List.reduceOption_append, hls, hls']
      rfl

/-- Different components lead to different vnodes. -/
theorem WellFormed.components_unique (hs : WellFormed s g) {cs' : List (List Char)}
    (hc : ∀ c ∈ cs, '\x00' ∉ c) (hc' : ∀ c ∈ cs', '\x00' ∉ c) (h : Resolves s s.root cs x)
    (h' : Resolves s s.root cs' x) : cs = cs' := by
  obtain ⟨ls, hp, rfl⟩ := h.path hc
  obtain ⟨ls', hp', rfl⟩ := h'.path hc'
  rw [hp.unique hs.isForest hp']

/-- `vfs_lookup` comes back from every path of short components. -/
theorem WellFormed.walkComponents (hs : WellFormed s g) (hn : s.next ≤ n) (hd : d ∈ g.nodes)
    (hc : ∀ c ∈ cs, c.length ≤ maxFileName) : ∃ r, walkComponents n s cs d = some r := by
  induction cs generalizing d with
  | nil => exact ⟨_, rfl⟩
  | cons c cs ih =>
      obtain ⟨hlen, hrest⟩ := List.forall_mem_cons.1 hc
      simp only [Vfs.walkComponents, lookupComponent, if_neg (Nat.not_lt.2 hlen)]
      cases hl : s.lookup d c with
      | none => exact ⟨_, rfl⟩
      | some v =>
          have hv := (hs.kid d hd v (hs.lookup_kid hd hl).1).1
          obtain ⟨w, hw⟩ := hs.redirect hv (Nat.le_trans hn (Nat.le_add_left n v))
          simp only [hw, Option.map_some]
          exact ih (hs.crosses_mem hv (redirect_crosses hw)) hrest

/-- `vfs_lookup` finds what the walk along its components finds. -/
theorem WellFormed.vfsLookup_iff (hs : WellFormed s g) {pathname : List Char}
    (hc : ∀ c ∈ components pathname, c.length ≤ maxFileName) :
    (∃ n, s.vfsLookup n pathname = some (some x)) ↔
      Resolves s s.root (components pathname) x := by
  constructor
  case mp =>
    intro ⟨n, h⟩
    rw [vfsLookup_eq] at h
    exact (walkComponents_iff h x).1 rfl
  case mpr =>
    intro h
    obtain ⟨r, hr⟩ := hs.walkComponents (Nat.le_refl _) hs.root_mem hc
    rw [← walkComponents_iff hr] at h
    exact ⟨s.next, by rw [vfsLookup_eq, hr, h]⟩

end Vfs

end RpiKernel
