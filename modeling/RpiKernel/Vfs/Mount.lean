import RpiKernel.Vfs.VfsRun

/-!
# RpiKernel.Vfs.Mount

What a mount changes: the paths through its target, and no others.

A walk of the old tree that does not come past the target is a walk of the new
tree (`Grafted.resolves_old`), one that ends at the target ends at the root of
the mounted file system (`Grafted.resolves_target`), and from there a walk stays
in that file system (`Grafted.resolves_new`).
-/

namespace RpiKernel

open Runs

namespace Vfs

variable {s s' : Vfs} {g : Shape} {d m r u v w x y : Nat} {c : List Char} {cs : List (List Char)}
  {fs : VnodeOps} {vs : List Nat}

/-- Every vnode is in front of one without a mount. -/
theorem WellFormed.crosses (hs : WellFormed s g) (hv : v ∈ g.nodes) : ∃ w, Crosses s v w := by
  obtain ⟨w, hw⟩ := hs.redirect (n := s.next) hv (Nat.le_add_left _ _)
  exact ⟨w, redirect_crosses hw⟩

/-! ## the old part of the tree -/

namespace Grafted

variable (h : Grafted s s' w m r fs vs) (hs : WellFormed s g) (hw : w ∈ g.nodes)
  (h0 : (s.vnodes w).mount = 0)
include h hs hw h0

/-- Mounts lead where they led, but past the target to the new root. -/
theorem crosses_old (hu : u ∈ g.nodes) (hc : Crosses s u y) :
    Crosses s' u (if y = w then r else y) := by
  induction hc with
  | @stay v hv =>
      by_cases hvw : v = w
      · subst hvw
        rw [if_pos rfl]
        have hm := h.mount_w hs hu
        have hnew := h.mount_new
        have hlt := hs.rootfs_lt
        refine .enter (by omega) ?_
        rw [hm, h.mount]
        exact .stay (h.root_mount r List.mem_cons_self).1
      · rw [if_neg hvw]
        exact .stay (((h.vnode_old hs hu).2.2 hvw).trans hv)
  | @enter v x hv _ ih =>
      have hvw : v ≠ w := fun he => hv (he ▸ h0)
      refine .enter ?_ ?_
      · rwa [(h.vnode_old hs hu).2.2 hvw]
      · rw [h.mounts_old hs hu hvw]
        exact ih (hs.mounted v hu hv).1

/-- A walk that does not come to the target is one of the new tree. -/
theorem resolves_old (hd : d ∈ g.nodes) (hp : ∀ pre, pre <+: cs → ¬ Resolves s d pre w) :
    Resolves s' d cs x ↔ Resolves s d cs x := by
  induction cs generalizing d with
  | nil => rw [resolves_nil, resolves_nil]
  | cons c cs ih =>
      rw [resolves_cons, resolves_cons, h.lookup_old hs hd]
      refine exists_congr fun v => ?_
      cases hl : s.lookup d c with
      | none => simp
      | some v' =>
          by_cases hv : v' = v
          case neg => simp [hv]
          subst hv
          have hmem := (hs.kid d hd _ (hs.lookup_kid hd hl).1).1
          obtain ⟨y, hy⟩ := hs.crosses hmem
          have hyw : y ≠ w := fun he =>
            hp [c] ⟨cs, rfl⟩ (.into hl (he ▸ hy) .here)
          have hy' := h.crosses_old hs hw h0 hmem hy
          rw [if_neg hyw] at hy'
          have hrest := ih (hs.crosses_mem hmem hy) fun pre hpre hr =>
            hp (c :: pre) (List.cons_prefix_cons.2 ⟨rfl, hpre⟩) (.into hl hy hr)
          constructor
          case mp =>
            intro ⟨z, _, hz, hr⟩
            obtain rfl := hz.unique hy'
            exact ⟨z, rfl, hy, hrest.1 hr⟩
          case mpr =>
            intro ⟨z, _, hz, hr⟩
            obtain rfl := hz.unique hy
            exact ⟨z, rfl, hy', hrest.2 hr⟩

/-- A walk to the target goes on to the new root. -/
theorem resolves_target (hd : d ∈ g.nodes) (hcs : cs ≠ [])
    (hp : ∀ pre, pre <+: cs → pre ≠ cs → ¬ Resolves s d pre w) (ht : Resolves s d cs w) :
    Resolves s' d cs r := by
  obtain ⟨pre, c, rfl⟩ := List.eq_nil_or_concat' cs |>.resolve_left hcs
  obtain ⟨y, hpre, hlast⟩ := resolves_append.1 ht
  obtain ⟨v, z, hl, hcross, hnil⟩ := resolves_cons.1 hlast
  obtain rfl := resolves_nil.1 hnil
  have hy := hs.resolves_mem hd hpre
  have hmem := (hs.kid y hy v (hs.lookup_kid hy hl).1).1
  have hold : Resolves s' d pre y := by
    refine (h.resolves_old hs hw h0 hd fun q hq => hp q ?_ fun he => ?_).2 hpre
    · exact hq.trans (List.prefix_append pre [c])
    · have hle := hq.length_le
      rw [he, List.length_append, List.length_singleton] at hle
      omega
  have hnew := h.crosses_old hs hw h0 hmem hcross
  rw [if_pos rfl] at hnew
  refine resolves_append.2 ⟨y, hold, .into ?_ hnew .here⟩
  rw [h.lookup_old hs hy, hl]

end Grafted

/-! ## the new part -/

/-- Walks from the new root stay in the new file system. -/
theorem Grafted.resolves_new (h : Grafted s s' w m r fs vs) (hs : WellFormed s g)
    (hs' : WellFormed s' (g.graft w r vs)) (hd : d ∈ r :: vs) (hr : Resolves s' d cs x) :
    x ∈ r :: vs := by
  induction hr with
  | here => exact hd
  | @into d v z x c cs hl hc _ ih =>
      have hnode : d ∈ (g.graft w r vs).nodes := List.mem_append_right _ hd
      have hkid := (hs'.lookup_kid hnode hl).1
      have hv : v ∈ r :: vs := by
        simp only [Shape.graft, if_neg (h.not_mem hs hd)] at hkid
        split at hkid
        next => exact List.mem_cons_of_mem r hkid
        next => contradiction
      have hz : z = v := hc.unique (.stay (h.root_mount v hv).1)
      exact ih (hz ▸ hv)

/-! ## mounting -/

/-- A result of `vfs_lookup` in a well formed tree. -/
theorem WellFormed.vfsLookup_result (hs : WellFormed s g) {p : List Char} (hp : PathOk p)
    (o : Option Nat) : (∃ n, s.vfsLookup n p = some o) ↔
      ∀ x, o = some x ↔ Resolves s s.root (components p) x := by
  constructor
  case mp =>
    intro ⟨n, hn⟩ x
    rw [vfsLookup_eq] at hn
    exact walkComponents_iff hn x
  case mpr =>
    intro ho
    obtain ⟨o', ho'⟩ := hs.walkComponents (Nat.le_refl _) hs.root_mem hp.components_short
    have he : o' = o := Option.ext fun x => (walkComponents_iff ho' x).trans (ho x).symm
    exact ⟨s.next, by rw [vfsLookup_eq, ho', he]⟩

/-- In every state that is reached by calls with good paths, a mount that
succeeds changes what is found at the paths through its target only: the target
leads to the root of the new file system and longer paths stay in it; lookups
come back before and after. -/
theorem vfsMount_local {s₀ : Vfs} {n : Nat} {target filesystem : List Char}
    (hr : Reach VfsCall.step VfsCall.Good s₀.initRoot s) (htarget : PathOk target)
    (hslash : target.head? = some '/') (hm : s.vfsMount n target filesystem = some (0, s')) :
    ∃ w fs, s.vfsLookup n target = some (some w) ∧ findFilesystem filesystem = some fs ∧
      (s'.mounts (s'.vnodes w).mount).fs = fs ∧
      (∀ p, PathOk p → ¬ components target <+: components p → ∀ o,
        (∃ k, s'.vfsLookup k p = some o) ↔ ∃ k, s.vfsLookup k p = some o) ∧
      (∃ k, s'.vfsLookup k target = some (some (s'.mounts (s'.vnodes w).mount).root)) ∧
      (∀ p rest, PathOk p → components p = components target ++ rest → ∀ v,
        ((∃ k, s'.vfsLookup k p = some (some v)) ↔
          Resolves s' (s'.mounts (s'.vnodes w).mount).root rest v) ∧
        (Resolves s' (s'.mounts (s'.vnodes w).mount).root rest v →
          s.next ≤ v ∧ (s'.vnodes v).vOps = fs)) ∧
      ∀ p, PathOk p → (∃ k o, s.vfsLookup k p = some o) ∧ ∃ k o, s'.vfsLookup k p = some o := by
  obtain ⟨g, hs⟩ := vfsReach_wellFormed hr
  rcases vfsMount_cases hm with ⟨hr', -, -⟩ | ⟨w, fs, vs, -, hl, hfs, h⟩
  · contradiction
  have hw := hs.lookup_mem hl
  have hs' := hs.graft h hw
  have htc : Resolves s s.root (components target) w := by
    rw [vfsLookup_eq] at hl
    exact (walkComponents_iff hl w).1 rfl
  have hne : components target ≠ [] := by
    obtain ⟨a, q, rfl⟩ : ∃ a q, target = a :: q := by
      cases target with
      | nil => contradiction
      | cons a q => exact ⟨a, q, rfl⟩
    exact List.splitOnP_ne_nil (· == '/') q
  have h0 : (s.vnodes w).mount = 0 := by
    obtain ⟨pre, c, hpre⟩ := List.eq_nil_or_concat' (components target) |>.resolve_left hne
    rw [hpre] at htc
    obtain ⟨y, -, hlast⟩ := resolves_append.1 htc
    obtain ⟨v, z, -, hcross, hnil⟩ := resolves_cons.1 hlast
    exact resolves_nil.1 hnil ▸ hcross.mount_eq_zero
  -- only the components of the target lead to `w`
  have honly : ∀ cs, (∀ c ∈ cs, '\x00' ∉ c) → Resolves s s.root cs w → cs = components target :=
    fun cs hcs hres => hs.components_unique hcs htarget.components_nul hres htc
  have hnot : ∀ p, PathOk p → ¬ components target <+: components p →
      ∀ pre, pre <+: components p → ¬ Resolves s s.root pre w := fun p hp hn pre hpre hres =>
    hn (honly pre (fun c hc => hp.components_nul c (hpre.subset hc)) hres ▸ hpre)
  have hmount : s'.mounts (s'.vnodes w).mount = ⟨s.next + mountBytes, fs⟩ := by
    rw [h.mount_w hs hw, h.mount]
  have hnew : Resolves s' s'.root (components target) (s.next + mountBytes) := by
    rw [h.root_eq hs]
    refine h.resolves_target hs hw h0 hs.root_mem hne (fun pre hpre hlt hres => hlt ?_) htc
    exact honly pre (fun c hc => htarget.components_nul c (hpre.subset hc)) hres
  refine ⟨w, fs, hl, hfs, by rw [hmount], ?_⟩
  rw [hmount]
  refine ⟨?other, ?target, ?longer, ?back⟩
  case other =>
    intro p hp hn o
    rw [hs'.vfsLookup_result hp, hs.vfsLookup_result hp, h.root_eq hs]
    refine forall_congr' fun x => ?_
    rw [h.resolves_old hs hw h0 hs.root_mem (hnot p hp hn)]
  case target => exact (hs'.vfsLookup_iff htarget.components_short).2 hnew
  case longer =>
    intro p rest hp hrest v
    constructor
    case left =>
      rw [hs'.vfsLookup_iff hp.components_short, hrest, resolves_append]
      constructor
      case mp =>
        intro ⟨y, hy, hv⟩
        exact hnew.unique hy ▸ hv
      case mpr => exact fun hv => ⟨_, hnew, hv⟩
    case right =>
      intro hv
      have hmem := h.resolves_new hs hs' List.mem_cons_self hv
      exact ⟨h.new_le hmem, (h.root_mount v hmem).2.1⟩
  case back =>
    intro p hp
    obtain ⟨o, ho⟩ := hs.walkComponents (Nat.le_refl _) hs.root_mem hp.components_short
    obtain ⟨o', ho'⟩ := hs'.walkComponents (Nat.le_refl _) hs'.root_mem hp.components_short
    exact ⟨⟨s.next, o, by rw [vfsLookup_eq, ho]⟩, s'.next, o', by rw [vfsLookup_eq, ho']⟩

/-- A directory below the root, to mount at. -/
def oneDirectory : Vfs := ((zeroVfs.initRoot.vfsMkdir 1 "/a".toList).getD (0, zeroVfs)).2

/-- A tmpfs mounted at it. -/
def oneMount : Vfs := ((oneDirectory.vfsMount 1 "/a".toList "tmpfs".toList).getD (0, zeroVfs)).2

/-- The target finds the new file system. -/
theorem vfsMount_local_tmpfs : ∃ k w, oneMount.vfsLookup k "/a".toList = some (some w) ∧
    oneDirectory.next ≤ w := by
  have hok : PathOk "/a".toList := ⟨by decide, by decide⟩
  have h : VfsCall.step zeroVfs.initRoot (1, .mkdir "/a".toList) = some oneDirectory := rfl
  have hr : Reach VfsCall.step VfsCall.Good zeroVfs.initRoot oneDirectory :=
    .step (1, .mkdir "/a".toList) .init ⟨hok, rfl⟩ h
  have hm : oneDirectory.vfsMount 1 "/a".toList "tmpfs".toList = some (0, oneMount) := rfl
  obtain ⟨w, _, -, -, -, -, ⟨k, hk⟩, hlonger, -⟩ := vfsMount_local hr hok rfl hm
  refine ⟨k, _, hk, ?_⟩
  exact ((hlonger _ [] hok (List.append_nil _).symm _).2 .here).1

end Vfs

end RpiKernel
