import RpiKernel.Vfs.Extending
import RpiKernel.Vfs.Initramfs
import RpiKernel.Vfs.Seek

/-!
# RpiKernel.Vfs.Store

The virtual file system as a store of bytes by path.

A path that leads to a file of some tmpfs goes on to lead to it, whatever is made, opened, mounted
elsewhere, read, written and closed; and a new handle at that path reads what the writes to that file
left (`vfs_contents`).
-/

namespace RpiKernel

open Bytes Runs

/-! ## calls -/

/-- A call with a path, or one on a file handle. -/
inductive StoreCall where
  | mkdir (n : Nat) (pathname : List Char)
  | mount (n : Nat) (target filesystem : List Char)
  | file (c : HandleCall)

namespace StoreCall

/-- The state after the call. -/
def step (k : OpenFiles) : StoreCall → Option OpenFiles
  | .mkdir n pathname => (k.fs.vfsMkdir n pathname).map fun r => ⟨r.2, k.live⟩
  | .mount n target filesystem => (k.fs.vfsMount n target filesystem).map fun r => ⟨r.2, k.live⟩
  | .file c => k.step c

/-- A mount is at an absolute path with short components; a write to a tmpfs starts in its file and stays
in the page. -/
def Good (k : OpenFiles) : StoreCall → Prop
  | .mount _ target _ => PathOk target ∧ target.head? = some '/'
  | .file (.write handle buf) => (k.fs.files handle).fOps = .tmpfs →
      (k.fs.files handle).fPos ≤ k.fs.fileSize handle ∧ (k.fs.files handle).fPos + buf.length ≤ maxFileSize
  | _ => True

/-- The call mounts nothing on the way to `p`. -/
def Spares (p : List Char) : StoreCall → Prop
  | .mount _ target _ => ¬ Vfs.components target <+: Vfs.components p
  | _ => True

/-- What the call makes of the bytes of the file `v`. -/
def effect (k : OpenFiles) (v : Nat) (bytes : List UInt8) : StoreCall → List UInt8
  | .file (.write handle buf) =>
      let f := k.fs.files handle
      if f.fOps = .tmpfs ∧ f.vnode = v then SharedFiles.splice bytes f.fPos buf else bytes
  | _ => bytes

/-- What a run makes of them. -/
def effects (v : Nat) : OpenFiles → List StoreCall → List UInt8 → List UInt8
  | _, [], bytes => bytes
  | k, c :: cs, bytes =>
      match step k c with
      | some k' => effects v k' cs (effect k v bytes c)
      | none => bytes

end StoreCall

/-! ## calls on handles -/

namespace Vfs

variable {s s' : Vfs} {g g' : Shape} {d u v w n h : Nat} {cs : List (List Char)}

/-- The tree and the pages are the same. -/
structure SameShape (s s' : Vfs) : Prop where
  next : s'.next = s.next
  rootfs : s'.rootfs = s.rootfs
  mounts : s'.mounts = s.mounts
  vnodes : s'.vnodes = s.vnodes
  ramInodes : s'.ramInodes = s.ramInodes
  entry : ∀ v, (s'.inode v).entry = (s.inode v).entry
  name : ∀ v, (s'.inode v).name = (s.inode v).name
  data : ∀ v, (s'.inode v).data = (s.inode v).data

theorem SameShape.root (h : SameShape s s') : s'.root = s.root := by
  rw [Vfs.root, Vfs.root, h.rootfs, h.mounts]

theorem SameShape.tree (h : SameShape s s') (hs : WellFormed s g) : WellFormed s' g := by
  have hentries : ∀ d, s'.entries d = s.entries d := fun d => by
    have hram : s'.ramInode d = s.ramInode d := by rw [ramInode, ramInode, h.vnodes, h.ramInodes]
    simp only [entries, h.vnodes, h.entry, hram]
  constructor <;> simp only [h.root, h.rootfs, h.next, h.mounts, h.vnodes, hentries]
  case root_mem => exact hs.root_mem
  case root_le => exact hs.root_le
  case rootfs_lt => exact hs.rootfs_lt
  case lt_next => exact hs.lt_next
  case internal_lt => exact hs.internal_lt
  case internal_inj => exact hs.internal_inj
  case mount_lt => exact hs.mount_lt
  case occupied => exact hs.occupied
  case kid => exact hs.kid
  case mounted => exact hs.mounted

theorem SameShape.walk (h : SameShape s s') (ht : TmpfsWalk s d cs w) : TmpfsWalk s' d cs w :=
  ht.congr h.mounts (fun _ => by rw [h.vnodes]) (fun _ => by rw [h.vnodes]) h.entry h.name

/-- Changing handles. -/
theorem sameShape_files (s : Vfs) (files : Nat → FileHandle) : SameShape s { s with files := files } :=
  ⟨rfl, rfl, rfl, rfl, rfl, fun _ => rfl, fun _ => rfl, fun _ => rfl⟩

/-- The inodes after a write. -/
theorem tmpfsWrite_inode (s : Vfs) (h : Nat) (buf : List UInt8) (v : Nat) :
    (s.tmpfsWrite h buf).2.inode v =
      if (s.vnodes v).internal = (s.vnodes (s.files h).vnode).internal then
        { s.inode v with
          datasize := max (s.inode v).datasize (((s.files h).fPos + buf.length) % 2 ^ 64) }
      else s.inode v := by
  by_cases hv : (s.vnodes v).internal = (s.vnodes (s.files h).vnode).internal
  · simp only [tmpfsWrite, inode, hv, if_true, Function.update_self]
    split
    next hlt => rw [Nat.max_eq_right (Nat.le_of_lt hlt)]
    next hge => rw [Nat.max_eq_left (Nat.le_of_not_lt hge)]
  · simp only [tmpfsWrite, inode, hv, if_false, Function.update_of_ne, ne_eq, not_false_eq_true]

theorem sameShape_tmpfsWrite (s : Vfs) (h : Nat) (buf : List UInt8) : SameShape s (s.tmpfsWrite h buf).2 := by
  refine ⟨rfl, rfl, rfl, rfl, rfl, fun v => ?_, fun v => ?_, fun v => ?_⟩
  all_goals
    rw [tmpfsWrite_inode]
    split <;> rfl

/-- Seeking moves the handle only. -/
theorem lseek64_files {offset whence : Int} {r : Int × Vfs} (hr : s.lseek64 h offset whence = some r) :
    ∃ files, r.2 = { s with files := files } ∧
      ∀ h', (files h').fOps = (s.files h').fOps ∧ (files h').vnode = (s.files h').vnode := by
  have hseek : ∃ files, (s.seekFile h offset whence).2 = { s with files := files } ∧
      ∀ h', (files h').fOps = (s.files h').fOps ∧ (files h').vnode = (s.files h').vnode := by
    unfold seekFile
    split
    · refine ⟨_, rfl, fun h' => ?_⟩
      by_cases he : h' = h
      · rw [he, Function.update_self]
        exact ⟨rfl, rfl⟩
      · rw [Function.update_of_ne he]
        exact ⟨rfl, rfl⟩
    · exact ⟨s.files, rfl, fun _ => ⟨rfl, rfl⟩⟩
  unfold lseek64 at hr
  split at hr
  · obtain rfl := Option.some.inj hr
    exact hseek
  · obtain rfl := Option.some.inj hr
    exact hseek
  all_goals contradiction

theorem length_contents (s : Vfs) (v : Nat) : (s.contents v).length = (s.inode v).datasize :=
  length_loadBytes _ _

theorem holdsAt_contents (s : Vfs) (v : Nat) : HoldsAt s.mem (s.inode v).data (s.contents v) := by
  rw [HoldsAt, length_contents]
  rfl

/-- The contents are what is held, up to the size. -/
theorem contents_eq {bytes : List UInt8} (hb : HoldsAt s.mem (s.inode v).data bytes)
    (hlen : (s.inode v).datasize = bytes.length) : s.contents v = bytes := by
  rw [contents, hlen]
  exact hb

/-- A write changes the contents of its file, and the size. -/
theorem Stored.write (hst : Stored s g) (hs : WellFormed s g) {buf : List UInt8}
    (hnode : (s.files h).vnode ∈ g.nodes) (ho : (s.vnodes (s.files h).vnode).vOps = .tmpfs)
    (hpos : (s.files h).fPos ≤ (s.inode (s.files h).vnode).datasize)
    (hfit : (s.files h).fPos + buf.length ≤ maxFileSize) :
    Stored (s.tmpfsWrite h buf).2 g ∧ ∀ v ∈ g.nodes, (s.vnodes v).vOps = .tmpfs →
      (s.tmpfsWrite h buf).2.contents v =
        if (s.files h).vnode = v then SharedFiles.splice (s.contents v) (s.files h).fPos buf
        else s.contents v := by
  have hmax : maxFileSize = 4096 := rfl
  have hmod : ((s.files h).fPos + buf.length) % 2 ^ 64 = (s.files h).fPos + buf.length :=
    Nat.mod_eq_of_lt (by omega)
  have hinode : ∀ v ∈ g.nodes, (s.tmpfsWrite h buf).2.inode v =
      if (s.files h).vnode = v then
        { s.inode v with datasize := max (s.inode v).datasize ((s.files h).fPos + buf.length) }
      else s.inode v := fun v hv => by
    rw [tmpfsWrite_inode, hmod]
    by_cases hvn : (s.files h).vnode = v
    · rw [if_pos hvn, if_pos (by rw [hvn])]
    · rw [if_neg hvn, if_neg fun he => hvn (hs.internal_inj v hv _ hnode he).symm]
  have hsame := sameShape_tmpfsWrite s h buf
  have hmem : (s.tmpfsWrite h buf).2.mem =
      storeBytes ((s.inode (s.files h).vnode).data + (s.files h).fPos) buf s.mem := rfl
  refine ⟨⟨hst.ops, fun v hv hov => ?_, fun v hv hov => ?_, fun u hu v hv hou hov hne => ?_⟩, fun v hv hov => ?_⟩
  · rw [hsame.data]
    exact hst.page v hv hov
  · have hsize := hst.size v hv hov
    rw [hinode v hv]
    split
    · exact Nat.max_le.2 ⟨hsize, hfit⟩
    · exact hsize
  · rw [hsame.data, hsame.data]
    exact hst.apart u hu v hv hou hov hne
  · by_cases hvn : (s.files h).vnode = v
    · subst hvn
      rw [if_pos rfl]
      apply contents_eq
      · rw [hsame.data, hmem]
        exact (holdsAt_contents s _).store (by rwa [length_contents]) buf
      · rw [hinode _ hnode, if_pos rfl, SharedFiles.splice]
        simp only [List.length_append, List.length_drop, length_contents,
          List.length_take_of_le ((length_contents s _).symm ▸ hpos)]
        omega
    · rw [if_neg hvn]
      apply contents_eq
      · rw [hsame.data, hmem]
        refine (holdsAt_contents s v).congr fun x hx hx' => storeBytes_of_not_mem ?_
        have hsize := hst.size v hv hov
        rw [length_contents] at hx'
        rcases hst.apart _ hnode v hv ho hov hvn with happ | happ
        · right
          omega
        · left
          omega
      · rw [hinode v hv, if_neg hvn, length_contents]

end Vfs

/-! ## one call -/

open Vfs

/-- The tree and its pages are in order, and open handles on a tmpfs are on its vnodes. -/
structure Sound (k : OpenFiles) (g : Shape) : Prop where
  tree : WellFormed k.fs g
  stored : Stored k.fs g
  handle : ∀ h ∈ k.live, (k.fs.files h).fOps = .tmpfs →
    (k.fs.files h).vnode ∈ g.nodes ∧ (k.fs.vnodes (k.fs.files h).vnode).vOps = .tmpfs

/-- The components that the call covers by a mount. -/
def StoreCall.Covers : StoreCall → List (List Char) → Prop
  | .mount _ target _, cs => components target <+: cs
  | _, _ => False

/-- What a call keeps. -/
structure Keeps (k k' : OpenFiles) (c : StoreCall) (g g' : Shape) : Prop where
  sound : Sound k' g'
  nodes : g.nodes ⊆ g'.nodes
  vOps : ∀ v ∈ g.nodes, (k'.fs.vnodes v).vOps = (k.fs.vnodes v).vOps
  fOps : ∀ v ∈ g.nodes, (k'.fs.vnodes v).fOps = (k.fs.vnodes v).fOps
  contents : ∀ v ∈ g.nodes, (k.fs.vnodes v).vOps = .tmpfs → k'.fs.contents v = c.effect k v (k.fs.contents v)
  walks : KeepsWalks k.fs k'.fs c.Covers

section

variable {k k' : OpenFiles} {g g' : Shape} {c : StoreCall}

/-- Calls with a path, on the handles that were open. -/
theorem Sound.extend (hk : Sound k g) {s' : Vfs} (he : Extends k.fs s' c.Covers g g')
    (heffect : ∀ v bytes, c.effect k v bytes = bytes)
    {live : List Nat} (hlive : ∀ h ∈ live, (s'.files h).fOps = .tmpfs →
      (h ∈ k.live ∧ s'.files h = k.fs.files h) ∨
        (s'.files h).vnode ∈ g'.nodes ∧ (s'.vnodes (s'.files h).vnode).vOps = .tmpfs) :
    Keeps k ⟨s', live⟩ c g g' where
  sound := by
    refine ⟨he.tree, hk.stored.grow he.grows, fun h hh hops => ?_⟩
    rcases hlive h hh hops with ⟨hold, hsame⟩ | hnew
    · dsimp only at hops ⊢
      rw [hsame] at hops ⊢
      obtain ⟨hnode, hv⟩ := hk.handle h hold hops
      exact ⟨he.grows.nodes hnode, by rw [he.grows.vOps _ hnode, hv]⟩
    · exact hnew
  nodes := he.grows.nodes
  vOps := he.grows.vOps
  fOps := he.grows.fOps
  contents v hv _ := by
    rw [heffect]
    exact he.grows.contents hv
  walks := he.walks

/-- Calls that only move a handle. -/
theorem Sound.move (hk : Sound k g) {files : Nat → FileHandle} {live : List Nat}
    (hlive : ∀ h ∈ live, h ∈ k.live ∧ (files h).fOps = (k.fs.files h).fOps ∧
      (files h).vnode = (k.fs.files h).vnode)
    (heffect : ∀ v bytes, c.effect k v bytes = bytes) :
    Keeps k ⟨{ k.fs with files := files }, live⟩ c g g where
  sound := by
    have hst := hk.stored
    refine ⟨(sameShape_files _ _).tree hk.tree, ⟨hst.ops, hst.page, hst.size, hst.apart⟩, fun h hh hops => ?_⟩
    obtain ⟨hold, hf, hv⟩ := hlive h hh
    dsimp only at hops ⊢
    rw [hf] at hops
    rw [hv]
    exact hk.handle h hold hops
  nodes := fun _ h => h
  vOps := fun _ _ => rfl
  fOps := fun _ _ => rfl
  contents v _ _ := (heffect v _).symm
  walks := fun cs x _ _ ht => (sameShape_files _ _).walk ht

/-- A write to a file of tmpfs. -/
theorem Sound.write (hk : Sound k g) {h : Nat} {buf : List UInt8} (hlive : h ∈ k.live)
    (hops : (k.fs.files h).fOps = .tmpfs) (hgood : StoreCall.Good k (.file (.write h buf))) :
    Keeps k ⟨(k.fs.tmpfsWrite h buf).2, k.live⟩ (.file (.write h buf)) g g := by
  obtain ⟨hnode, ho⟩ := hk.handle h hlive hops
  obtain ⟨hpos, hfit⟩ := hgood hops
  have hsize : k.fs.fileSize h = (k.fs.inode (k.fs.files h).vnode).datasize := by
    simp only [fileSize, hops]
  rw [hsize] at hpos
  have hsame := sameShape_tmpfsWrite k.fs h buf
  obtain ⟨hstored, hcontents⟩ := hk.stored.write hk.tree hnode ho hpos hfit
  have hfile : ∀ h', ((k.fs.tmpfsWrite h buf).2.files h').fOps = (k.fs.files h').fOps ∧
      ((k.fs.tmpfsWrite h buf).2.files h').vnode = (k.fs.files h').vnode := fun h' => by
    simp only [tmpfsWrite]
    by_cases he : h' = h
    · rw [he, Function.update_self]
      exact ⟨rfl, rfl⟩
    · rw [Function.update_of_ne he]
      exact ⟨rfl, rfl⟩
  refine ⟨⟨hsame.tree hk.tree, hstored, fun h' hh hops' => ?_⟩, fun _ h => h, fun _ _ => rfl, fun _ _ => rfl,
    fun v hv hov => ?_, fun cs x _ _ ht => hsame.root ▸ hsame.walk ht⟩
  · dsimp only at hops' ⊢
    rw [(hfile h').1] at hops'
    rw [(hfile h').2]
    exact hk.handle h' hh hops'
  · dsimp only
    rw [hcontents v hv hov]
    simp only [StoreCall.effect, hops, true_and]

/-- Every good call. -/
theorem Sound.step (hk : Sound k g) (hgood : c.Good k) (hs : c.step k = some k') :
    ∃ g', Keeps k k' c g g' := by
  have hold : ∀ {s' : Vfs}, s'.files = k.fs.files → ∀ h ∈ k.live, (s'.files h).fOps = .tmpfs →
      (h ∈ k.live ∧ s'.files h = k.fs.files h) ∨ False := fun hf h hh _ => .inl ⟨hh, by rw [hf]⟩
  cases c with
  | mkdir n p =>
      obtain ⟨⟨r, s'⟩, hr, rfl⟩ := Option.map_eq_some_iff.1 hs
      obtain ⟨g', he, hf⟩ := hk.tree.extends_mkdir hr
      exact ⟨g', hk.extend he (fun _ _ => rfl) fun h hh ho => (hold hf h hh ho).imp_right False.elim⟩
  | mount n target filesystem =>
      obtain ⟨⟨r, s'⟩, hr, rfl⟩ := Option.map_eq_some_iff.1 hs
      obtain ⟨g', he, hf⟩ := hk.tree.extends_mount hgood.1 hgood.2 hr
      exact ⟨g', hk.extend he (fun _ _ => rfl) fun h hh ho => (hold hf h hh ho).imp_right False.elim⟩
  | file c =>
      cases c with
      | «open» n p flags handle =>
          simp only [StoreCall.step, OpenFiles.step] at hs
          split at hs
          next => contradiction
          next hfree =>
            obtain ⟨⟨r, s'⟩, hr, rfl⟩ := Option.map_eq_some_iff.1 hs
            obtain ⟨g', he, hcase⟩ := hk.tree.extends_open hr
            refine ⟨g', hk.extend he (fun _ _ => rfl) ?_⟩
            rcases hcase with ⟨hne, rfl⟩ | ⟨rfl, node, s₁, hnode, hf, rfl⟩
            · rw [if_neg hne]
              exact fun h hh _ => .inl ⟨hh, rfl⟩
            · rw [if_pos rfl]
              intro h hh hops
              by_cases heq : h = handle
              · subst heq
                have hvnode : ((s₁.openNode node h flags).files h).vnode = node ∧
                    ((s₁.openNode node h flags).files h).fOps = (s₁.vnodes node).fOps := by
                  simp only [openNode, openHandle, Function.update_self]
                  split <;> simp_all
                rw [hvnode.2] at hops
                rw [hvnode.1]
                refine .inr ⟨hnode, ?_⟩
                exact (hk.stored.grow he.grows).ops node hnode hops
              · have hkeep : (s₁.openNode node handle flags).files h = k.fs.files h := by
                  rw [← hf]
                  exact Function.update_of_ne heq _ _
                exact .inl ⟨(List.mem_cons.1 hh).resolve_left heq, hkeep⟩
      | close handle =>
          simp only [StoreCall.step, OpenFiles.step] at hs
          split at hs
          next =>
            obtain rfl := Option.some.inj hs
            exact ⟨g, hk.move (fun h hh => ⟨List.mem_of_mem_erase hh, rfl, rfl⟩) fun _ _ => rfl⟩
          next => contradiction
      | read handle len =>
          simp only [StoreCall.step, OpenFiles.step] at hs
          split at hs
          next =>
            obtain ⟨r, hr, rfl⟩ := Option.map_eq_some_iff.1 hs
            rw [vfsRead_onFile (onFile_of_vfsRead hr)] at hr
            obtain rfl := Option.some.inj hr
            refine ⟨g, hk.move (fun h hh => ⟨hh, ?_⟩) fun _ _ => rfl⟩
            by_cases he : h = handle
            · rw [he, Function.update_self]
              exact ⟨rfl, rfl⟩
            · rw [Function.update_of_ne he]
              exact ⟨rfl, rfl⟩
          next => contradiction
      | write handle buf =>
          simp only [StoreCall.step, OpenFiles.step] at hs
          split at hs
          next hlive =>
            obtain ⟨r, hr, rfl⟩ := Option.map_eq_some_iff.1 hs
            unfold vfsWrite at hr
            split at hr
            next hops =>
              obtain rfl := Option.some.inj hr
              exact ⟨g, hk.write hlive hops hgood⟩
            next hops =>
              obtain rfl := Option.some.inj hr
              refine ⟨g, hk.move (fun h hh => ⟨hh, rfl, rfl⟩) fun v bytes => ?_⟩
              simp only [StoreCall.effect, hops, reduceCtorEq, false_and, if_false]
            all_goals contradiction
          next => contradiction
      | lseek64 handle offset whence =>
          simp only [StoreCall.step, OpenFiles.step] at hs
          split at hs
          next =>
            obtain ⟨⟨r, s'⟩, hr, rfl⟩ := Option.map_eq_some_iff.1 hs
            obtain ⟨files, rfl, hfiles⟩ := lseek64_files hr
            exact ⟨g, hk.move (fun h hh => ⟨hh, hfiles h⟩) fun _ _ => rfl⟩
          next => contradiction

end

/-! ## boot -/

namespace Vfs

variable {s s' : Vfs} {g : Shape} {n handle : Nat}

/-- The tree with a fresh root has no other vnode, whatever is said of it. -/
theorem initRoot_sound (s : Vfs) : ∃ g, Sound ⟨s.initRoot, []⟩ g := by
  obtain ⟨g, hs⟩ := initRoot_wellFormed s
  have hroot : s.initRoot.root = s.next + mountBytes := by
    have hm : s.initRoot.mounts s.next = ⟨s.next + mountBytes, .tmpfs⟩ := Function.update_self _ _ _
    exact congrArg Mount.root hm
  have hv : s.initRoot.vnodes (s.next + mountBytes) =
      ⟨0, .tmpfs, .tmpfs, s.next + mountBytes + vnodeBytes⟩ := Function.update_self _ _ _
  have hi : s.initRoot.inode (s.next + mountBytes) =
      ⟨.dir, [], fun _ => 0, s.next + mountBytes + vnodeBytes + tmpfsInodeBytes, 0⟩ := by
    rw [inode, hv]
    exact Function.update_self _ _ _
  have hmem := hs.root_mem
  rw [hroot] at hmem
  have hocc := hs.occupied _ hmem
  have hempty : s.initRoot.entries (s.next + mountBytes) 0 = 0 := by
    simp only [entries, hv, hi]
  have hkids : g.kids (s.next + mountBytes) = [] := by
    simp only [hv] at hocc
    have hpos : 0 < entryCount .tmpfs := by decide
    exact List.length_eq_zero_iff.1 (Nat.le_zero.1 ((hocc.entry_eq_zero_iff hpos).1 hempty))
  let g' : Shape := { g with nodes := [s.next + mountBytes] }
  have hone : ∀ v ∈ g'.nodes, v = s.next + mountBytes := fun v hm => List.mem_singleton.1 hm
  have htree : WellFormed s.initRoot g' := by
    constructor
    case root_mem => exact List.mem_singleton.2 hroot
    case rootfs_lt => exact hs.rootfs_lt
    case internal_inj => exact fun u hu v hv _ => (hone u hu).trans (hone v hv).symm
    case kid =>
      intro d hd v hm
      rw [hone d hd] at hm
      exact absurd (hkids ▸ hm) List.not_mem_nil
    case mounted =>
      intro d hd h0
      rw [hone d hd, hv] at h0
      exact absurd rfl h0
    case root_le => exact fun v hm => hs.root_le v (hone v hm ▸ hmem)
    case lt_next => exact fun v hm => hs.lt_next v (hone v hm ▸ hmem)
    case internal_lt => exact fun v hm => hs.internal_lt v (hone v hm ▸ hmem)
    case mount_lt => exact fun v hm => hs.mount_lt v (hone v hm ▸ hmem)
    case occupied => exact fun v hm => hs.occupied v (hone v hm ▸ hmem)
  refine ⟨g', htree, ⟨fun v hm _ => ?_, fun v hm _ => ?_, fun v hm _ => ?_, fun u hu v hm _ _ hne => ?_⟩,
    fun h hh => absurd hh List.not_mem_nil⟩
  · dsimp only
    rw [hone v hm, hv]
  · dsimp only
    rw [hone v hm, hi]
    exact Nat.le_refl _
  · dsimp only
    rw [hone v hm, hi]
    exact Nat.zero_le _
  · exact absurd ((hone u hu).trans (hone v hm).symm) hne

/-- `vfs_mknod` of a device. -/
theorem Sound.mknod (hk : Sound ⟨s, []⟩ g) {p : List Char} {dev : FileOps} (hdev : dev ≠ .tmpfs)
    (h : s.vfsMknod n p dev handle = some s') : ∃ g', Sound ⟨s', []⟩ g' := by
  unfold Vfs.vfsMknod at h
  split at h
  next s₁ ho =>
    have hs' := Option.some.inj h
    obtain ⟨g', he, -⟩ := hk.tree.extends_open ho
    have hst := hk.stored.grow he.grows
    have hvnode : ∀ u, s'.vnodes u =
        if u = (s₁.files handle).vnode then { s₁.vnodes u with fOps := dev } else s₁.vnodes u := fun u => by
      rw [← hs']
      dsimp only
      by_cases hu : u = (s₁.files handle).vnode
      · rw [if_pos hu, hu, Function.update_self]
      · rw [if_neg hu, Function.update_of_ne hu]
    have hsame : ∀ u, (s'.vnodes u).mount = (s₁.vnodes u).mount ∧ (s'.vnodes u).vOps = (s₁.vnodes u).vOps ∧
        (s'.vnodes u).internal = (s₁.vnodes u).internal := fun u => by
      rw [hvnode]
      split <;> exact ⟨rfl, rfl, rfl⟩
    have hinode : ∀ u, s'.inode u = s₁.inode u := fun u => by
      rw [inode, (hsame u).2.2, ← hs']
      rfl
    have hnext : s'.next = s₁.next := by
      rw [← hs']
    refine ⟨g', he.tree.congr hnext ?_ ?_ ?_ ?_ (fun u => (hsame u).1) (fun u => (hsame u).2.1)
      (fun u => (hsame u).2.2), ⟨fun v hv hf => ?_, fun v hv hov => ?_, fun v hv hov => ?_,
      fun u hu v hv hou hov hne => ?_⟩, fun h hh => absurd hh List.not_mem_nil⟩
    · rw [← hs']
    · rw [← hs']
    · rw [← hs']
    · rw [← hs']
    · dsimp only at hf ⊢
      rw [(hsame v).2.1]
      rw [hvnode] at hf
      split at hf
      next => exact absurd hf hdev
      next => exact hst.ops v hv hf
    · dsimp only at hov ⊢
      rw [(hsame v).2.1] at hov
      rw [hinode, hnext]
      exact hst.page v hv hov
    · dsimp only at hov ⊢
      rw [(hsame v).2.1] at hov
      rw [hinode]
      exact hst.size v hv hov
    · dsimp only at hou hov ⊢
      rw [(hsame u).2.1] at hou
      rw [(hsame v).2.1] at hov
      rw [hinode, hinode]
      exact hst.apart u hu v hv hou hov hne
  next => contradiction

/-- `init_rootfs`. -/
theorem initRootfs_sound {s₀ : Vfs} (h : s₀.initRootfs n handle = some s) : ∃ g, Sound ⟨s, []⟩ g := by
  simp only [initRootfs, Option.bind_eq_bind, Option.bind_eq_some_iff] at h
  obtain ⟨⟨r₁, s₁⟩, h₁, ⟨r₂, s₂⟩, h₂, ⟨r₃, s₃⟩, h₃, s₄, h₄, h₅⟩ := h
  obtain ⟨g₀, hk₀⟩ := initRoot_sound s₀
  have hmkdir : ∀ {s s' : Vfs} {g p} {r : Int}, Sound ⟨s, []⟩ g → s.vfsMkdir n p = some (r, s') →
      ∃ g', Sound ⟨s', []⟩ g' := fun hk h => by
    obtain ⟨g', hkeep⟩ := hk.step (c := .mkdir n _) trivial (Option.map_eq_some_iff.2 ⟨_, h, rfl⟩)
    exact ⟨g', hkeep.sound⟩
  obtain ⟨g₁, hk₁⟩ := hmkdir hk₀ h₁
  obtain ⟨g₂, hk₂⟩ := hk₁.step (c := .mount n _ _) ⟨⟨by decide, by decide⟩, by decide⟩
    (Option.map_eq_some_iff.2 ⟨_, h₂, rfl⟩)
  obtain ⟨g₃, hk₃⟩ := hmkdir hk₂.sound h₃
  obtain ⟨g₄, hk₄⟩ := Sound.mknod hk₃ (by decide) h₄
  exact Sound.mknod hk₄ (by decide) h₅

end Vfs

/-! ## the store -/

/-- Every good run. -/
theorem Sound.reach {k k' : OpenFiles} {g : Shape} (hk : Sound k g)
    (hr : Reach StoreCall.step (fun k c => c.Good k) k k') : ∃ g', Sound k' g' :=
  hr.inv (I := fun k => ∃ g, Sound k g) ⟨g, hk⟩ fun _ _ _ ⟨_, hk⟩ hg hs => by
    obtain ⟨g', hkeep⟩ := hk.step hg hs
    exact ⟨g', hkeep.sound⟩

/-- What a run keeps of a file and the path to it. -/
theorem Sound.run {k k' : OpenFiles} {g : Shape} {cs : List StoreCall} {p : List Char} {v : Nat}
    {bytes : List UInt8} (hk : Sound k g) (hp : PathOk p)
    (hrun : run StoreCall.step k cs = some k')
    (hgood : Always StoreCall.step (fun k c => c.Good k ∧ c.Spares p) k cs) (hv : v ∈ g.nodes)
    (ho : (k.fs.vnodes v).vOps = .tmpfs) (hpath : TmpfsWalk k.fs k.fs.root (components p) v)
    (hbytes : k.fs.contents v = bytes) :
    ∃ g', Sound k' g' ∧ v ∈ g'.nodes ∧ (k'.fs.vnodes v).vOps = .tmpfs ∧
      (k'.fs.vnodes v).fOps = (k.fs.vnodes v).fOps ∧ TmpfsWalk k'.fs k'.fs.root (components p) v ∧
      k'.fs.contents v = StoreCall.effects v k cs bytes := by
  induction cs generalizing k g bytes with
  | nil =>
      obtain rfl := Option.some.inj hrun
      exact ⟨g, hk, hv, ho, rfl, hpath, hbytes⟩
  | cons c cs ih =>
      obtain ⟨⟨hgood₁, hspares⟩, hrest⟩ := hgood
      cases hs : c.step k with
      | none => simp [Runs.run, hs] at hrun
      | some k₁ =>
          rw [run_cons _ hs] at hrun
          obtain ⟨g₁, hkeep⟩ := hk.step hgood₁ hs
          have hcovers : ¬ c.Covers (components p) := by
            cases c with
            | mount => exact hspares
            | _ => exact id
          have hbytes₁ : k₁.fs.contents v = c.effect k v bytes := hbytes ▸ hkeep.contents v hv ho
          obtain ⟨g', hk', hv', ho', hf', hpath', hbytes'⟩ := ih hkeep.sound hrun (hrest k₁ hs)
            (hkeep.nodes hv) ((hkeep.vOps v hv).trans ho)
            (hkeep.walks _ _ hp.components_nul hcovers hpath) hbytes₁
          refine ⟨g', hk', hv', ho', hf'.trans (hkeep.fOps v hv), hpath', ?_⟩
          rw [hbytes', StoreCall.effects, hs]

/-- Opening a path that leads to a file. -/
theorem vfsOpen_walk {s s' : Vfs} {n flags handle v : Nat} {p : List Char} {r : Int}
    (hpath : TmpfsWalk s s.root (components p) v) (h : s.vfsOpen n p flags handle = some (r, s')) :
    r = 0 ∧ s' = s.openNode v handle flags := by
  unfold Vfs.vfsOpen at h
  have hlookup := vfsLookup_eq (s := s) (n := n) p
  cases hl : s.vfsLookup n p with
  | none => simp [hl] at h
  | some o =>
      rw [hl] at hlookup
      obtain rfl := (walkComponents_iff hlookup.symm v).2 hpath.resolves
      simp only [hl] at h
      obtain ⟨rfl, rfl⟩ := Prod.mk.inj (Option.some.inj h)
      exact ⟨rfl, rfl⟩

/-- Reading a file from a new handle. -/
theorem vfsRead_opened {s : Vfs} {handle flags len v : Nat} (hfile : (s.vnodes v).fOps = .tmpfs)
    (hsize : (s.inode v).datasize ≤ maxFileSize) (hlen : len < 2 ^ 64) :
    ((s.openNode v handle flags).files handle).vnode = v ∧
      ∃ s₂, (s.openNode v handle flags).vfsRead handle len =
        some ((((s.contents v).take len).length : Int), (s.contents v).take len, s₂) := by
  have hmax : maxFileSize = 4096 := rfl
  have hf : (s.openNode v handle flags).files handle = ⟨v, 0, .tmpfs, flags⟩ := by
    simp [openNode, openHandle, hfile]
  have hi : (s.openNode v handle flags).inode v = s.inode v := rfl
  have hmem : (s.openNode v handle flags).mem = s.mem := rfl
  have hcut : readLength len 0 (s.inode v).datasize = min len ((s.inode v).datasize - 0) :=
    TmpfsHandles.readLength_eq (Nat.zero_le _) hsize (by omega)
  have htake : loadBytes (s.inode v).data (min len (s.inode v).datasize) s.mem = (s.contents v).take len := by
    rw [(holdsAt_contents s v).take (by rw [length_contents]; omega), ← length_contents, ← List.take_eq_take_min]
  have hint : toInt (min len (s.inode v).datasize) = ((s.contents v).take len).length := by
    rw [TmpfsHandles.toInt_of_le (by omega), List.length_take, length_contents]
  rw [hf]
  refine ⟨rfl, ((s.openNode v handle flags).tmpfsRead handle len).2.2, ?_⟩
  simp only [vfsRead, hf, tmpfsRead, hi, hmem, hcut, Nat.sub_zero, Nat.add_zero, htake, hint]

/-- **The store.**  After `init_rootfs` and any calls, let the path `p` lead to a file of a tmpfs through
directories of tmpfs's.  After any further calls that mount nothing on the way, with every write inside
of its file and its page, `p` leads to the same file; and a handle opened there reads the bytes
that the writes to that file, through whatever handles, have made of what was in it. -/
theorem vfs_contents {s₀ s s₁ : Vfs} {k k' : OpenFiles} {m n h handle flags len v : Nat} {r : Int}
    {cs : List StoreCall} {p : List Char} (hboot : s₀.initRootfs m h = some s)
    (hr : Reach StoreCall.step (fun k c => c.Good k) ⟨s, []⟩ k) (hp : PathOk p)
    (hpath : TmpfsWalk k.fs k.fs.root (components p) v) (hfile : (k.fs.vnodes v).fOps = .tmpfs)
    (hrun : run StoreCall.step k cs = some k')
    (hgood : Always StoreCall.step (fun k c => c.Good k ∧ c.Spares p) k cs)
    (hopen : k'.fs.vfsOpen n p flags handle = some (r, s₁)) (hlen : len < 2 ^ 64) :
    r = 0 ∧ (s₁.files handle).vnode = v ∧ ∃ s₂, s₁.vfsRead handle len =
      some ((((StoreCall.effects v k cs (k.fs.contents v)).take len).length : Int),
        (StoreCall.effects v k cs (k.fs.contents v)).take len, s₂) := by
  obtain ⟨g₀, hk₀⟩ := initRootfs_sound hboot
  obtain ⟨g, hk⟩ := hk₀.reach hr
  have hv := hk.tree.resolves_mem hk.tree.root_mem hpath.resolves
  have ho := hk.stored.ops v hv hfile
  obtain ⟨g', hk', hv', ho', hf', hpath', hbytes⟩ := hk.run hp hrun hgood hv ho hpath rfl
  obtain ⟨rfl, rfl⟩ := vfsOpen_walk hpath' hopen
  obtain ⟨hvnode, hread⟩ := vfsRead_opened (hf'.trans hfile) (hk'.stored.size v hv' ho') hlen
  rw [hbytes] at hread
  exact ⟨rfl, hvnode, hread⟩

/-- The archive of one file, before `init_rootfs`. -/
def archiveVfs : Vfs := { smallArchiveVfs with next := 0x10000, next_pos := by decide }

/-- After `init_rootfs`. -/
def bootedVfs : Vfs := (archiveVfs.initRootfs 3 8).getD archiveVfs

/-- A new file `/a`, open at 8. -/
def newFile : OpenFiles :=
  (StoreCall.step ⟨bootedVfs, []⟩ (.file (.open 3 "/a".toList oCreat 8))).getD ⟨bootedVfs, []⟩

/-- The file with two bytes, open at 16 as well. -/
def twoBytes : OpenFiles :=
  (run StoreCall.step newFile [.file (.write 8 [7, 9]), .file (.open 3 "/a".toList 0 16)]).getD newFile

/-- The first byte is overwritten through the second handle. -/
def overwritten : OpenFiles := (StoreCall.step twoBytes (.file (.write 16 [5]))).getD twoBytes

set_option maxRecDepth 20000 in
/-- A third handle reads what was written through the other two. -/
theorem vfs_contents_two : ∃ s₁ s₂, overwritten.fs.vfsOpen 3 "/a".toList 0 24 = some (0, s₁) ∧
    s₁.vfsRead 24 100 = some (2, [5, 9], s₂) := by
  have hboot : archiveVfs.initRootfs 3 8 = some bootedVfs :=
    (Option.getD_of_ne_none (by decide +kernel) _).symm
  have hnew : StoreCall.step ⟨bootedVfs, []⟩ (.file (.open 3 "/a".toList oCreat 8)) = some newFile :=
    (Option.getD_of_ne_none (by decide +kernel) _).symm
  have htwo : run StoreCall.step newFile [.file (.write 8 [7, 9]), .file (.open 3 "/a".toList 0 16)] =
      some twoBytes := (Option.getD_of_ne_none (by decide +kernel) _).symm
  have hover : StoreCall.step twoBytes (.file (.write 16 [5])) = some overwritten :=
    (Option.getD_of_ne_none (by decide +kernel) _).symm
  have hp : PathOk "/a".toList := ⟨by decide, by decide⟩
  have hpath : TmpfsWalk newFile.fs newFile.fs.root (components "/a".toList) 96968 :=
    .into (by decide +kernel) (show newFile.fs.lookup newFile.fs.root "a".toList = _ by decide +kernel)
      (.stay (by decide +kernel)) .here
  have hgood : Always StoreCall.step (fun k c => c.Good k ∧ c.Spares "/a".toList) newFile
      [.file (.write 8 [7, 9]), .file (.open 3 "/a".toList 0 16), .file (.write 16 [5])] := by
    refine ⟨⟨fun _ => by decide +kernel, trivial⟩, fun k₁ h₁ => ⟨⟨trivial, trivial⟩, fun k₂ h₂ =>
      ⟨⟨fun _ => ?_, trivial⟩, fun _ _ => trivial⟩⟩⟩
    obtain rfl : k₂ = twoBytes := by
      rw [run_cons _ h₁, run_cons _ h₂] at htwo
      exact Option.some.inj htwo
    decide +kernel
  have hopen : overwritten.fs.vfsOpen 3 "/a".toList 0 24 = some (0, overwritten.fs.openNode 96968 24 0) := by
    have hlookup : overwritten.fs.vfsLookup 3 "/a".toList = some (some 96968) := by decide +kernel
    rw [Vfs.vfsOpen, hlookup]
  have hrun : run StoreCall.step newFile
      [.file (.write 8 [7, 9]), .file (.open 3 "/a".toList 0 16), .file (.write 16 [5])] = some overwritten :=
    (run_append _ [_] htwo).trans (run_cons [] hover)
  obtain ⟨-, -, s₂, hread⟩ := vfs_contents hboot
    (.step (.file (.open 3 "/a".toList oCreat 8)) .init trivial hnew) hp hpath (by decide +kernel) hrun hgood
    hopen (show 100 < 2 ^ 64 by decide)
  have heffects : StoreCall.effects 96968 newFile
      [.file (.write 8 [7, 9]), .file (.open 3 "/a".toList 0 16), .file (.write 16 [5])]
      (newFile.fs.contents 96968) = [5, 9] := by decide +kernel
  rw [heffects] at hread
  exact ⟨_, s₂, hopen, hread⟩

end RpiKernel
