import RpiKernel.Lib.Clamp
import RpiKernel.Vfs.Initramfs
import RpiKernel.Vfs.TmpfsTree

/-!
# RpiKernel.Vfs.File

File handles: `vfs_close`, `vfs_write`, `vfs_read`, and what the handles of a
tmpfs see.

`SharedFiles` says what files are for: each is one array of bytes, and every
open handle has a position of its own in the array of its file.  The handles of
a tmpfs behave so (`tmpfsHandles_refine`) as long as no write goes past the
page of its file and no position wraps.
-/

namespace RpiKernel

open Bytes Runs

namespace Vfs

/-- `vfs_write`; the devices are left out. -/
def vfsWrite (file : Nat) (buf : List UInt8) (s : Vfs) : Option (Int × Vfs) :=
  match (s.files file).fOps with
  | .tmpfs => some (s.tmpfsWrite file buf)
  | .initramfs => some (-1, s)
  | .uart | .framebuffer => none

/-- `vfs_read`: the value returned, what is stored at `buf`, and the state; the
devices are left out. -/
def vfsRead (file len : Nat) (s : Vfs) : Option (Int × List UInt8 × Vfs) :=
  match (s.files file).fOps with
  | .tmpfs => some (s.tmpfsRead file len)
  | .initramfs => some (s.initramfsRead file len)
  | .uart | .framebuffer => none

/-- A read is cut modulo 2^64. -/
theorem readLength_eq_cut (len fPos datasize : Nat) :
    readLength len fPos datasize = Clamp.cut (2 ^ 64) len fPos datasize := rfl

end Vfs

/-! ## calls -/

/-- A call on files and their handles: making a node, opening a vnode with the
handle that `kmalloc` gives, closing, writing and reading. -/
inductive FileCall where
  | make (c : TmpfsCall)
  | open (node handle flags : Nat)
  | close (handle : Nat)
  | write (handle : Nat) (buf : List UInt8)
  | read (handle len : Nat)

/-- The answer to a call: the value returned and the bytes read. -/
abbrev Answer := Int × List UInt8

/-- A tmpfs with the handles that are open. -/
structure TmpfsHandles where
  tree : TmpfsTree
  live : List Nat

namespace TmpfsHandles

/-- `*target`, a tmpfs with no handle yet. -/
def fresh (s : Vfs) (mount : Nat) : TmpfsHandles := ⟨.fresh s mount, []⟩

/-- A change of the file system that is not one of the tree. -/
def setFs (k : TmpfsHandles) (s : Vfs) : TmpfsHandles := { k with tree := { k.tree with fs := s } }

/-- One call.  Vnodes of the tree are opened, with a handle that is not in use
(`kmalloc` gives no block twice); the other calls are on open handles. -/
def step (k : TmpfsHandles) : FileCall → Option (Answer × TmpfsHandles)
  | .make c => (k.tree.step c).map fun t => (((c.run k.tree.fs).1, []), { k with tree := t })
  | .open node handle flags =>
      if node ∈ k.tree.nodes ∧ handle ∉ k.live then
        some ((0, []), ⟨{ k.tree with fs := k.tree.fs.openNode node handle flags }, handle :: k.live⟩)
      else none
  | .close handle =>
      if handle ∈ k.live then some ((0, []), { k with live := k.live.erase handle }) else none
  | .write handle buf =>
      if handle ∈ k.live then
        (k.tree.fs.vfsWrite handle buf).map fun r => ((r.1, []), k.setFs r.2)
      else none
  | .read handle len =>
      if handle ∈ k.live then
        (k.tree.fs.vfsRead handle len).map fun r => ((r.1, r.2.1), k.setFs r.2.2)
      else none

/-- Writes stay in the page of their file, and positions do not wrap. -/
def Good (k : TmpfsHandles) : FileCall → Prop
  | .write handle buf => (k.tree.fs.files handle).fPos + buf.length ≤ maxFileSize
  | .read handle len => (k.tree.fs.files handle).fPos + len < 2 ^ 64
  | _ => True

instance (k : TmpfsHandles) (c : FileCall) : Decidable (Good k c) :=
  match c with
  | .write _ _ => inferInstanceAs (Decidable (_ ≤ _))
  | .read _ _ => inferInstanceAs (Decidable (_ < _))
  | .make _ | .open _ _ _ | .close _ => inferInstanceAs (Decidable True)

end TmpfsHandles

/-! ## what files are for -/

/-- Files as arrays of bytes; an open handle has a file and a position. -/
structure SharedFiles where
  content : Nat → List UInt8
  handle : Nat → Option (Nat × Nat)

namespace SharedFiles

/-- Empty files and no handles. -/
def empty : SharedFiles := ⟨fun _ => [], fun _ => none⟩

/-- Writing `buf` at `pos`. -/
def splice (bytes : List UInt8) (pos : Nat) (buf : List UInt8) : List UInt8 :=
  bytes.take pos ++ buf ++ bytes.drop (pos + buf.length)

/-- One call, its answer and what it leaves.  A call that makes a node may
answer anything. -/
def step (f : SharedFiles) : FileCall → Answer → SharedFiles → Prop
  | .make _, a, f' => a.2 = [] ∧ f' = f
  | .open node handle _, a, f' =>
      f.handle handle = none ∧ a = (0, []) ∧
        f' = ⟨f.content, Function.update f.handle handle (some (node, 0))⟩
  | .close handle, a, f' =>
      f.handle handle ≠ none ∧ a = (0, []) ∧
        f' = ⟨f.content, Function.update f.handle handle none⟩
  | .write handle buf, a, f' =>
      ∃ node pos, f.handle handle = some (node, pos) ∧ a = ((buf.length : Int), []) ∧
        f' = ⟨Function.update f.content node (splice (f.content node) pos buf),
          Function.update f.handle handle (some (node, pos + buf.length))⟩
  | .read handle len, a, f' =>
      ∃ node pos, f.handle handle = some (node, pos) ∧
        a = ((a.2.length : Int), ((f.content node).drop pos).take len) ∧
        f' = ⟨f.content, Function.update f.handle handle (some (node, pos + a.2.length))⟩

end SharedFiles

/-! ## the tree under reads and writes -/

/-- The fields of the tree that the handles do not change. -/
structure SameTree (s s' : Vfs) : Prop where
  next : s'.next = s.next
  vnodes : s'.vnodes = s.vnodes
  type : ∀ v, (s'.inode v).type = (s.inode v).type
  name : ∀ v, (s'.inode v).name = (s.inode v).name
  entry : ∀ v, (s'.inode v).entry = (s.inode v).entry
  data : ∀ v, (s'.inode v).data = (s.inode v).data

namespace TmpfsTree

variable {t : TmpfsTree} {s' : Vfs}

/-- The directory invariant does not look at contents and handles. -/
theorem Ok.congr (ht : t.Ok) (h : SameTree t.fs s') : Ok { t with fs := s' } where
  nodup := ht.nodup
  lt_next v hv := by
    rw [h.next]
    exact ht.lt_next v hv
  internal_lt v hv := by
    rw [h.next, h.vnodes]
    exact ht.internal_lt v hv
  internal_inj := by
    rw [h.vnodes]
    exact ht.internal_inj
  made m hm := by
    rw [Vfs.nameOf, h.name]
    exact ht.made m hm
  children dir hd := (ht.children dir hd).of_inode (h.entry dir)
  names dir hd := by
    have hn : s'.nameOf = t.fs.nameOf := funext h.name
    show ((t.childrenOf dir).map s'.nameOf).Nodup
    rw [hn]
    exact ht.names dir hd
  file v hv hf := ht.file v hv ((h.type v).symm.trans hf)

/-- Every node has a page of its own, and the operations of tmpfs. -/
structure Pages (t : TmpfsTree) : Prop where
  ops : ∀ v ∈ t.nodes, (t.fs.vnodes v).fOps = .tmpfs
  page : ∀ v ∈ t.nodes, (t.fs.inode v).data + maxFileSize ≤ t.fs.next
  apart : ∀ u ∈ t.nodes, ∀ v ∈ t.nodes, u ≠ v →
    (t.fs.inode u).data + maxFileSize ≤ (t.fs.inode v).data ∨
      (t.fs.inode v).data + maxFileSize ≤ (t.fs.inode u).data

theorem Pages.congr (hp : t.Pages) (h : SameTree t.fs s') : Pages { t with fs := s' } where
  ops := by
    rw [h.vnodes]
    exact hp.ops
  page v hv := by
    rw [h.data, h.next]
    exact hp.page v hv
  apart u hu v hv hne := by
    rw [h.data, h.data]
    exact hp.apart u hu v hv hne

theorem fresh_pages (s : Vfs) (mount : Nat) : (fresh s mount).Pages := by
  constructor <;> simp only [fresh_nodes, List.mem_singleton, forall_eq]
  case ops => simp [fresh, Vfs.tmpfsSetupMount, Vfs.tmpfsCreateVnode, Vfs.kmalloc]
  case page =>
    rw [fresh_inode]
    exact Nat.le_refl _
  case apart => exact fun h => absurd rfl h

/-- A new node gets the page behind all others. -/
theorem Pages.add {c : TmpfsCall} (ht : t.Ok) (hp : t.Pages) (hd : c.dirNode ∈ t.nodes) :
    (t.add c).Pages := by
  have hnext : (t.add c).fs.next = t.fs.next + vnodeBytes + tmpfsInodeBytes + 0x1000 := rfl
  have hdata : ∀ v ∈ t.nodes, ((t.add c).fs.inode v).data = (t.fs.inode v).data := by
    intro v hv
    rw [ht.inode_add hd hv]
    split <;> rfl
  have hnew : ((t.add c).fs.inode t.fs.next).data = t.fs.next + vnodeBytes + tmpfsInodeBytes := by
    rw [ht.inode_add_new hd]
  have hmax : maxFileSize = 0x1000 := rfl
  have hpage := hp.page
  constructor <;> simp only [nodes_add, List.mem_append, List.mem_singleton]
  case ops =>
    intro v hv
    rcases hv with hv | rfl
    · have hne : v ≠ t.fs.next := Nat.ne_of_lt (ht.lt_next v hv)
      have hold : (t.add c).fs.vnodes v = t.fs.vnodes v := Function.update_of_ne hne _ _
      rw [hold]
      exact hp.ops v hv
    · have hadd : (t.add c).fs.vnodes t.fs.next = _ := Function.update_self _ _ _
      rw [hadd]
  case page => grind
  case apart =>
    have hapart := hp.apart
    grind

end TmpfsTree

/-! ## the refinement -/

namespace TmpfsHandles

variable {k k' : TmpfsHandles} {f : SharedFiles} {a : Answer}

/-- The handles of `k` and its files are those of `f`: a position is at most
the size of its file, and the bytes below the size are in its page. -/
structure Refines (k : TmpfsHandles) (f : SharedFiles) : Prop where
  tree : k.tree.Ok
  pages : k.tree.Pages
  size : ∀ v ∈ k.tree.nodes, (k.tree.fs.inode v).datasize = (f.content v).length
  bytes : ∀ v ∈ k.tree.nodes, HoldsAt k.tree.fs.mem (k.tree.fs.inode v).data (f.content v)
  small : ∀ v ∈ k.tree.nodes, (f.content v).length ≤ maxFileSize
  unmade : ∀ v, v ∉ k.tree.nodes → f.content v = []
  nodup : k.live.Nodup
  live : ∀ h, h ∈ k.live ↔ f.handle h ≠ none
  handle : ∀ h node pos, f.handle h = some (node, pos) → node ∈ k.tree.nodes ∧
    pos ≤ (f.content node).length ∧ (k.tree.fs.files h).vnode = node ∧
    (k.tree.fs.files h).fPos = pos ∧ (k.tree.fs.files h).fOps = .tmpfs

theorem fresh_refines (s : Vfs) (mount : Nat) : Refines (fresh s mount) SharedFiles.empty where
  tree := TmpfsTree.fresh_ok s mount
  pages := TmpfsTree.fresh_pages s mount
  size := by
    show ∀ v ∈ (TmpfsTree.fresh s mount).nodes, _
    rw [TmpfsTree.fresh_nodes]
    intro v hv
    rw [List.mem_singleton.1 hv]
    exact congrArg TmpfsInode.datasize (TmpfsTree.fresh_inode s mount)
  bytes _ _ := holdsAt_nil
  small _ _ := Nat.zero_le _
  unmade _ _ := rfl
  nodup := List.nodup_nil
  live h := by simp [fresh, SharedFiles.empty]
  handle h node pos he := by simp [SharedFiles.empty] at he

/-- Moving one handle, and perhaps changing its file, keeps the refinement. -/
theorem Refines.move (hr : Refines k f) {h node pos pos' : Nat}
    (hh : f.handle h = some (node, pos)) {s' : Vfs} {b : List UInt8}
    (hsame : SameTree k.tree.fs s')
    (hsize : ∀ v ∈ k.tree.nodes,
      (s'.inode v).datasize = (Function.update f.content node b v).length)
    (hbytes : ∀ v ∈ k.tree.nodes,
      HoldsAt s'.mem (k.tree.fs.inode v).data (Function.update f.content node b v))
    (hsmall : b.length ≤ maxFileSize) (hgrow : (f.content node).length ≤ b.length)
    (hpos : pos' ≤ b.length)
    (hfiles : s'.files =
      Function.update k.tree.fs.files h ⟨node, pos', .tmpfs, (k.tree.fs.files h).flags⟩) :
    Refines (k.setFs s')
      ⟨Function.update f.content node b, Function.update f.handle h (some (node, pos'))⟩ := by
  have hnode := (hr.handle h node pos hh).1
  constructor
  case tree => exact hr.tree.congr hsame
  case pages => exact hr.pages.congr hsame
  case size => exact hsize
  case bytes =>
    intro v hv
    show HoldsAt s'.mem (s'.inode v).data _
    rw [hsame.data]
    exact hbytes v hv
  case small =>
    have hold := hr.small
    intro v hv
    by_cases hvn : v = node
    · subst hvn
      simpa using hsmall
    · simpa [Function.update_of_ne hvn] using hold v hv
  case unmade =>
    intro v hv
    have hvn : v ≠ node := fun he => hv (he ▸ hnode)
    simpa [Function.update_of_ne hvn] using hr.unmade v hv
  case nodup => exact hr.nodup
  case live =>
    intro h'
    show h' ∈ k.live ↔ Function.update f.handle h (some (node, pos')) h' ≠ none
    by_cases he : h' = h
    · subst he
      simpa [hh] using (hr.live h').2 (by simp [hh])
    · simpa [Function.update_of_ne he] using hr.live h'
  case handle =>
    intro h' node' q hq
    show _ ∧ _ ∧ (s'.files h').vnode = node' ∧ (s'.files h').fPos = q ∧ (s'.files h').fOps = .tmpfs
    rw [hfiles]
    dsimp only at hq
    by_cases he : h' = h
    · subst he
      rw [Function.update_self] at hq
      obtain ⟨rfl, rfl⟩ := Prod.mk.inj (Option.some.inj hq)
      rw [Function.update_self]
      exact ⟨hnode, by simpa using hpos, rfl, rfl, rfl⟩
    · rw [Function.update_of_ne he] at hq
      obtain ⟨hn, hp, hrest⟩ := hr.handle h' node' q hq
      rw [Function.update_of_ne he]
      refine ⟨hn, ?_, hrest⟩
      by_cases hvn : node' = node
      · subst hvn
        simp only [Function.update_self]
        omega
      · simpa [Function.update_of_ne hvn] using hp

/-- A length that fits a page is its own `int`. -/
theorem toInt_of_le {n : Nat} (h : n ≤ maxFileSize) : toInt n = n := by
  have hm : maxFileSize = 4096 := rfl
  unfold toInt
  rw [Int.bmod_eq_of_le] <;> omega

/-- What a read is cut to. -/
theorem readLength_eq {len pos size : Nat} (hp : pos ≤ size) (hs : size ≤ maxFileSize)
    (hw : pos + len < 2 ^ 64) : Vfs.readLength len pos size = min len (size - pos) := by
  have hm : maxFileSize = 4096 := rfl
  rw [Vfs.readLength_eq_cut]
  exact Clamp.cut_of_le hp (by omega) (by omega)

/-- A read of an open handle: it returns the bytes between the position and the
size, at most `len`, and moves the handle. -/
theorem Refines.vfsRead (hr : Refines k f) {h len node pos : Nat}
    (hh : f.handle h = some (node, pos)) (hw : pos + len < 2 ^ 64) :
    ∃ bytes s', bytes = ((f.content node).drop pos).take len ∧
      k.tree.fs.vfsRead h len = some ((bytes.length : Int), bytes, s') ∧
      Refines (k.setFs s')
        ⟨f.content, Function.update f.handle h (some (node, pos + bytes.length))⟩ := by
  obtain ⟨hnode, hpos, hvnode, hfpos, hops⟩ := hr.handle h node pos hh
  have hend : pos + min len ((f.content node).length - pos) ≤ (f.content node).length := by omega
  have hsmall : (f.content node).length ≤ 4096 := hr.small node hnode
  have hwrap : pos + min len ((f.content node).length - pos) < 2 ^ 64 := by omega
  have hsize := hr.size node hnode
  have hcut := readLength_eq hpos hsmall hw
  have hlen : (((f.content node).drop pos).take len).length =
      min len ((f.content node).length - pos) := by rw [List.length_take, List.length_drop]
  have hload : loadBytes ((k.tree.fs.inode node).data + pos)
      (min len ((f.content node).length - pos)) k.tree.fs.mem =
        ((f.content node).drop pos).take len := by
    rw [(hr.bytes node hnode).slice (by omega), ← List.length_drop, ← List.take_eq_take_min]
  have hint : toInt (min len ((f.content node).length - pos)) =
      (min len ((f.content node).length - pos) : Nat) :=
    toInt_of_le (Nat.le_trans (Nat.le_trans (Nat.le_add_left _ _) hend) hsmall)
  have hmod : (pos + min len ((f.content node).length - pos)) % 2 ^ 64 =
      pos + min len ((f.content node).length - pos) := Nat.mod_eq_of_lt hwrap
  let s' : Vfs := { k.tree.fs with
    files := Function.update k.tree.fs.files h
      ⟨node, pos + min len ((f.content node).length - pos), .tmpfs, (k.tree.fs.files h).flags⟩ }
  refine ⟨_, s', rfl, ?_, ?_⟩
  · simp only [Vfs.vfsRead, hops, Vfs.tmpfsRead, hvnode, hfpos, hsize, hcut, hload, hint, hmod, hlen]
    rfl
  · have hsame : SameTree k.tree.fs s' :=
      ⟨rfl, rfl, fun _ => rfl, fun _ => rfl, fun _ => rfl, fun _ => rfl⟩
    have hself := Function.update_eq_self node f.content
    have hmove := hr.move hh hsame (by rw [hself]; exact hr.size) (by rw [hself]; exact hr.bytes)
      hsmall (Nat.le_refl _) hend rfl
    rw [Function.update_eq_self] at hmove
    rw [hlen]
    exact hmove

/-- A write through an open handle that stays in the page: it returns the
number of bytes, stores them at the position and moves the handle. -/
theorem Refines.vfsWrite (hr : Refines k f) {h node pos : Nat} {buf : List UInt8}
    (hh : f.handle h = some (node, pos)) (hw : pos + buf.length ≤ maxFileSize) :
    ∃ s', k.tree.fs.vfsWrite h buf = some ((buf.length : Int), s') ∧
      Refines (k.setFs s')
        ⟨Function.update f.content node (SharedFiles.splice (f.content node) pos buf),
          Function.update f.handle h (some (node, pos + buf.length))⟩ := by
  obtain ⟨hnode, hpos, hvnode, hfpos, hops⟩ := hr.handle h node pos hh
  have hsmall := hr.small node hnode
  have hmax : maxFileSize = 4096 := rfl
  have hint : toInt buf.length = buf.length := toInt_of_le (by omega)
  have hmod : (pos + buf.length) % 2 ^ 64 = pos + buf.length := Nat.mod_eq_of_lt (by omega)
  have hlen : (SharedFiles.splice (f.content node) pos buf).length =
      max (f.content node).length (pos + buf.length) := by
    simp only [SharedFiles.splice, List.length_append, List.length_drop, List.length_take_of_le hpos]
    omega
  let i := (k.tree.fs.vnodes node).internal
  let inode := k.tree.fs.inodes i
  let s' : Vfs := { k.tree.fs with
    mem := storeBytes (inode.data + pos) buf k.tree.fs.mem
    files := Function.update k.tree.fs.files h
      ⟨node, pos + buf.length, .tmpfs, (k.tree.fs.files h).flags⟩
    inodes := Function.update k.tree.fs.inodes i
      (if inode.datasize < pos + buf.length then { inode with datasize := pos + buf.length }
        else inode) }
  have hinode : ∀ v, s'.inode v =
      if (k.tree.fs.vnodes v).internal = i then
        { k.tree.fs.inode v with datasize := max inode.datasize (pos + buf.length) }
      else k.tree.fs.inode v := by
    intro v
    by_cases hv : (k.tree.fs.vnodes v).internal = i
    · have hval : s'.inode v = if inode.datasize < pos + buf.length then
          { inode with datasize := pos + buf.length } else inode := by
        show Function.update k.tree.fs.inodes i _ (k.tree.fs.vnodes v).internal = _
        rw [hv, Function.update_self]
      have hold : k.tree.fs.inode v = inode := congrArg k.tree.fs.inodes hv
      rw [if_pos hv, hval, hold]
      split
      next hlt => rw [Nat.max_eq_right (Nat.le_of_lt hlt)]
      next hge => rw [Nat.max_eq_left (Nat.le_of_not_lt hge)]
    · rw [if_neg hv]
      exact Function.update_of_ne hv _ _
  have hi : ∀ v ∈ k.tree.nodes, (k.tree.fs.vnodes v).internal = i ↔ v = node := fun v hv =>
    ⟨fun he => hr.tree.internal_inj v hv node hnode he, fun he => he ▸ rfl⟩
  have hfield : ∀ {β : Type} (g : TmpfsInode → β), (∀ j n, g { j with datasize := n } = g j) →
      ∀ v, g (s'.inode v) = g (k.tree.fs.inode v) := by
    intro β g hg v
    rw [hinode]
    split
    · exact hg _ _
    · rfl
  refine ⟨s', ?_, ?_⟩
  · simp only [Vfs.vfsWrite, hops, Vfs.tmpfsWrite, hvnode, hfpos, hint, hmod]
    rfl
  · refine hr.move hh ⟨rfl, rfl, hfield TmpfsInode.type fun _ _ => rfl,
      hfield TmpfsInode.name fun _ _ => rfl, hfield TmpfsInode.entry fun _ _ => rfl,
      hfield TmpfsInode.data fun _ _ => rfl⟩ (fun v hv => ?_) (fun v hv => ?_) ?_ ?_ ?_ rfl
    · rw [hinode]
      by_cases hvn : v = node
      · subst hvn
        rw [if_pos rfl, Function.update_self, hlen, ← hr.size v hv]
        rfl
      · rw [if_neg fun he => hvn ((hi v hv).1 he), Function.update_of_ne hvn]
        exact hr.size v hv
    · show HoldsAt (storeBytes (inode.data + pos) buf k.tree.fs.mem) _ _
      by_cases hvn : v = node
      · subst hvn
        rw [Function.update_self]
        exact (hr.bytes v hv).store hpos buf
      · rw [Function.update_of_ne hvn]
        refine (hr.bytes v hv).congr fun x hx hx' => storeBytes_of_not_mem ?_
        have hv' := hr.small v hv
        have hdata : (k.tree.fs.inode node).data = inode.data := rfl
        rcases hr.pages.apart v hv node hnode hvn with h | h
        · left
          omega
        · right
          omega
    · omega
    · omega
    · omega

/-- A new node is an empty file. -/
theorem Refines.add (hr : Refines k f) {c : TmpfsCall} (hd : c.dirNode ∈ k.tree.nodes)
    (hok : (k.tree.add c).Ok) : Refines { k with tree := k.tree.add c } f := by
  have hmem : ∀ v, v ∈ (k.tree.add c).nodes ↔ v ∈ k.tree.nodes ∨ v = k.tree.fs.next := fun v => by
    rw [TmpfsTree.nodes_add, List.mem_append, List.mem_singleton]
  have hnew := hr.tree.inode_add_new hd
  have hold : ∀ v ∈ k.tree.nodes, ((k.tree.add c).fs.inode v).data = (k.tree.fs.inode v).data ∧
      ((k.tree.add c).fs.inode v).datasize = (k.tree.fs.inode v).datasize := fun v hv => by
    rw [hr.tree.inode_add hd hv]
    split <;> exact ⟨rfl, rfl⟩
  have hempty : f.content k.tree.fs.next = [] :=
    hr.unmade _ fun h => Nat.lt_irrefl _ (hr.tree.lt_next _ h)
  constructor
  case tree => exact hok
  case pages => exact hr.pages.add hr.tree hd
  case size =>
    intro v hv
    rcases (hmem v).1 hv with hv | rfl
    · exact (hold v hv).2.trans (hr.size v hv)
    · exact (congrArg TmpfsInode.datasize hnew).trans (by rw [hempty]; rfl)
  case bytes =>
    intro v hv
    show HoldsAt k.tree.fs.mem ((k.tree.add c).fs.inode v).data _
    rcases (hmem v).1 hv with hv | rfl
    · rw [(hold v hv).1]
      exact hr.bytes v hv
    · rw [hempty]
      exact holdsAt_nil
  case small =>
    intro v hv
    rcases (hmem v).1 hv with hv | rfl
    · exact hr.small v hv
    · rw [hempty]
      exact Nat.zero_le _
  case unmade => exact fun v hv => hr.unmade v fun h => hv ((hmem v).2 (.inl h))
  case nodup => exact hr.nodup
  case live => exact hr.live
  case handle =>
    intro h node pos hh
    obtain ⟨hn, hrest⟩ := hr.handle h node pos hh
    exact ⟨(hmem node).2 (.inl hn), hrest⟩

/-- A new handle is at the start of its file. -/
theorem Refines.open (hr : Refines k f) {node h : Nat} (flags : Nat) (hnode : node ∈ k.tree.nodes)
    (hh : h ∉ k.live) :
    Refines ⟨{ k.tree with fs := k.tree.fs.openNode node h flags }, h :: k.live⟩
      ⟨f.content, Function.update f.handle h (some (node, 0))⟩ := by
  have hsame : SameTree k.tree.fs (k.tree.fs.openNode node h flags) :=
    ⟨rfl, rfl, fun _ => rfl, fun _ => rfl, fun _ => rfl, fun _ => rfl⟩
  have hfile : (k.tree.fs.openNode node h flags).files =
      Function.update k.tree.fs.files h ⟨node, 0, .tmpfs, flags⟩ := by
    simp [Vfs.openNode, openHandle, hr.pages.ops node hnode]
  constructor
  case tree => exact hr.tree.congr hsame
  case pages => exact hr.pages.congr hsame
  case size => exact hr.size
  case bytes => exact hr.bytes
  case small => exact hr.small
  case unmade => exact hr.unmade
  case nodup => exact List.nodup_cons.2 ⟨hh, hr.nodup⟩
  case live =>
    intro h'
    by_cases he : h' = h
    · simp [he]
    · simpa [he] using hr.live h'
  case handle =>
    intro h' node' pos hp
    show _ ∧ _ ∧ ((k.tree.fs.openNode node h flags).files h').vnode = node' ∧
      ((k.tree.fs.openNode node h flags).files h').fPos = pos ∧
      ((k.tree.fs.openNode node h flags).files h').fOps = .tmpfs
    rw [hfile]
    dsimp only at hp
    by_cases he : h' = h
    · rw [he, Function.update_self] at hp
      obtain ⟨rfl, rfl⟩ := Prod.mk.inj (Option.some.inj hp)
      rw [he, Function.update_self]
      exact ⟨hnode, Nat.zero_le _, rfl, rfl, rfl⟩
    · rw [Function.update_of_ne he] at hp ⊢
      exact hr.handle h' node' pos hp

/-- A closed handle is gone. -/
theorem Refines.close (hr : Refines k f) (h : Nat) :
    Refines { k with live := k.live.erase h } ⟨f.content, Function.update f.handle h none⟩ := by
  constructor
  case tree => exact hr.tree
  case pages => exact hr.pages
  case size => exact hr.size
  case bytes => exact hr.bytes
  case small => exact hr.small
  case unmade => exact hr.unmade
  case nodup => exact hr.nodup.erase h
  case live =>
    intro h'
    rw [hr.nodup.mem_erase_iff, hr.live h']
    by_cases he : h' = h <;> simp [he]
  case handle =>
    intro h' node pos hp
    dsimp only at hp
    by_cases he : h' = h
    · rw [he, Function.update_self] at hp
      contradiction
    · rw [Function.update_of_ne he] at hp
      exact hr.handle h' node pos hp

/-- Every good call is one of the shared files. -/
theorem Refines.step (hr : Refines k f) {c : FileCall} (hg : Good k c)
    (hs : step k c = some (a, k')) : ∃ f', f.step c a f' ∧ Refines k' f' := by
  cases c with
  | make c =>
      simp only [TmpfsHandles.step, TmpfsTree.step] at hs
      split at hs
      next hd =>
        obtain ⟨rfl, rfl⟩ := Prod.mk.inj (Option.some.inj hs)
        refine ⟨f, ⟨rfl, rfl⟩, ?_⟩
        rcases hr.tree.run_cases hd with h | ⟨h, hok⟩ <;> simp only [h]
        · exact hr
        · exact hr.add hd hok
      next => contradiction
  | «open» node h flags =>
      simp only [TmpfsHandles.step] at hs
      split at hs
      next hc =>
        obtain ⟨rfl, rfl⟩ := Prod.mk.inj (Option.some.inj hs)
        have hnone : f.handle h = none := by
          have hlive := hr.live h
          grind
        exact ⟨_, ⟨hnone, rfl, rfl⟩, hr.open flags hc.1 hc.2⟩
      next => contradiction
  | close h =>
      simp only [TmpfsHandles.step] at hs
      split at hs
      next hc =>
        obtain ⟨rfl, rfl⟩ := Prod.mk.inj (Option.some.inj hs)
        exact ⟨_, ⟨(hr.live h).1 hc, rfl, rfl⟩, hr.close h⟩
      next => contradiction
  | write h buf =>
      simp only [TmpfsHandles.step] at hs
      split at hs
      next hc =>
        obtain ⟨⟨node, pos⟩, hh⟩ := Option.ne_none_iff_exists'.1 ((hr.live h).1 hc)
        have hpos := (hr.handle h node pos hh).2.2.2.1
        obtain ⟨s', hw, href⟩ := hr.vfsWrite hh (show pos + buf.length ≤ _ from hpos ▸ hg)
        rw [hw] at hs
        obtain ⟨rfl, rfl⟩ := Prod.mk.inj (Option.some.inj hs)
        exact ⟨_, ⟨node, pos, hh, rfl, rfl⟩, href⟩
      next => contradiction
  | read h len =>
      simp only [TmpfsHandles.step] at hs
      split at hs
      next hc =>
        obtain ⟨⟨node, pos⟩, hh⟩ := Option.ne_none_iff_exists'.1 ((hr.live h).1 hc)
        have hpos := (hr.handle h node pos hh).2.2.2.1
        obtain ⟨bytes, s', hb, hread, href⟩ := hr.vfsRead hh (show pos + len < _ from hpos ▸ hg)
        rw [hread] at hs
        obtain ⟨rfl, rfl⟩ := Prod.mk.inj (Option.some.inj hs)
        exact ⟨_, ⟨node, pos, hh, by rw [hb], rfl⟩, href⟩
      next => contradiction

end TmpfsHandles

open TmpfsHandles in
/-- Whatever calls are made on a tmpfs and its handles, as long as every write
stays in the page of its file and no position wraps, the answers are those of
files that are arrays of bytes with a position for every open handle; and in
the end every file has the size and the bytes of its array, and every open
handle can be read and written. -/
theorem tmpfsHandles_refine (s : Vfs) (mount : Nat) {l : List (FileCall × Answer)}
    {k : TmpfsHandles}
    (h : Trace (fun k c a k' => step k c = some (a, k')) Good (fresh s mount) l k) :
    ∃ f, Trace SharedFiles.step (fun _ _ => True) SharedFiles.empty l f ∧
      (∀ v ∈ k.tree.nodes, k.tree.fs.tmpfsGetsize v = (f.content v).length ∧
        loadBytes (k.tree.fs.inode v).data (k.tree.fs.tmpfsGetsize v) k.tree.fs.mem =
          f.content v) ∧
      (∀ h node pos, f.handle h = some (node, pos) →
        h ∈ k.live ∧ (k.tree.fs.files h).vnode = node ∧ (k.tree.fs.files h).fPos = pos) ∧
      ∀ h ∈ k.live, (∀ buf, (k.tree.fs.vfsWrite h buf).isSome) ∧
        ∀ len, (k.tree.fs.vfsRead h len).isSome := by
  obtain ⟨f, hf, hr⟩ := h.simulate (fun _ _ _ _ _ hr hg hs => hr.step hg hs) (fresh_refines s mount)
  refine ⟨f, hf, fun v hv => ⟨hr.size v hv, ?_⟩, fun h node pos hh => ?_, fun h hlive => ?_⟩
  · rw [Vfs.tmpfsGetsize, hr.size v hv]
    exact hr.bytes v hv
  · obtain ⟨-, -, hnode, hpos, -⟩ := hr.handle h node pos hh
    exact ⟨(hr.live h).2 (by simp [hh]), hnode, hpos⟩
  · obtain ⟨⟨node, pos⟩, hh⟩ := Option.ne_none_iff_exists'.1 ((hr.live h).1 hlive)
    have hops := (hr.handle h node pos hh).2.2.2.2
    simp [Vfs.vfsWrite, Vfs.vfsRead, hops]

set_option maxRecDepth 20000 in
/-- Two handles on one file; the second write overwrites the first byte. -/
theorem tmpfsHandles_refine_two : ∃ k f, Trace SharedFiles.step (fun _ _ => True) SharedFiles.empty
    [(.make ⟨.file, zeroVfs.next, 0, ['a']⟩, (0, [])),
      (.open (zeroVfs.next + 4296) 8 0, (0, [])), (.open (zeroVfs.next + 4296) 16 0, (0, [])),
      (.write 8 [1, 2, 3], (3, [])), (.write 16 [9], (1, []))] f ∧
      ∀ v ∈ TmpfsTree.nodes k, k.fs.tmpfsGetsize v = (f.content v).length := by
  obtain ⟨f, hf, hsize, -⟩ := tmpfsHandles_refine zeroVfs 0
    (.cons (FileCall.make ⟨.file, zeroVfs.next, 0, ['a']⟩) (0, []) trivial rfl <|
      .cons (FileCall.open (zeroVfs.next + 4296) 8 0) (0, []) trivial rfl <|
      .cons (FileCall.open (zeroVfs.next + 4296) 16 0) (0, []) trivial rfl <|
      .cons (FileCall.write 8 [1, 2, 3]) (3, []) (by decide) rfl <|
      .cons (FileCall.write 16 [9]) (1, []) (by decide) rfl <| .nil _)
  exact ⟨_, f, hf, fun v hv => (hsize v hv).1⟩

end RpiKernel
