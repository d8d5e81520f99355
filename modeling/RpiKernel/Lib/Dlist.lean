import Mathlib.Data.List.Basic
import Mathlib.Data.List.Nodup
import Mathlib.Data.List.TakeWhile
import Mathlib.Logic.Function.Basic

/-!
# Lib.Dlist

Intrusive doubly linked lists, seen from outside: two link functions
`next prev : α → Option α` and the list of nodes a traversal visits.

`IsSeg next prev p h xs q t` says that the nodes `xs` are linked into one
another: `h` points to the first, whose `prev` is `p`; `q` points to the
last, whose `next` is `t`.  A whole list is a segment between `none` and
`none`.  `Visits next h xs` is the half of it a traversal along `next` sees.
The editing lemmas (`IsSeg.pushFront`, `IsSeg.pushBack`,
`IsSeg.remove`) take the new links pointwise, so they apply to any record
that carries the two fields.
-/

namespace Dlist

variable {α : Type*} {next prev next' prev' : α → Option α}
variable {p h q t p' q' : Option α} {x y : α} {xs ys zs : List α}

/-- The nodes `xs`, linked both ways between `p`/`h` and `q`/`t`. -/
def IsSeg (next prev : α → Option α) :
    Option α → Option α → List α → Option α → Option α → Prop
  | p, h, [], q, t => p = q ∧ h = t
  | p, h, x :: xs, q, t => h = some x ∧ prev x = p ∧ IsSeg next prev (some x) (next x) xs q t

@[simp] theorem isSeg_nil : IsSeg next prev p h [] q t ↔ p = q ∧ h = t := Iff.rfl

@[simp] theorem isSeg_cons :
    IsSeg next prev p h (x :: xs) q t ↔
      h = some x ∧ prev x = p ∧ IsSeg next prev (some x) (next x) xs q t := Iff.rfl

/-- Two segments that meet form one. -/
theorem isSeg_append :
    IsSeg next prev p h (xs ++ ys) q t ↔
      ∃ m n, IsSeg next prev p h xs m n ∧ IsSeg next prev m n ys q t := by
  induction xs generalizing p h with
  | nil => simp
  | cons x xs ih => simp [ih, and_assoc]

/-! ## reading a segment -/

/-- A segment depends on the links of its own nodes only. -/
theorem IsSeg.congr (hs : IsSeg next prev p h xs q t)
    (hn : ∀ y ∈ xs, next' y = next y) (hp : ∀ y ∈ xs, prev' y = prev y) :
    IsSeg next' prev' p h xs q t := by
  induction xs generalizing p h with
  | nil => exact hs
  | cons x xs ih =>
      obtain ⟨hh, hpx, hrest⟩ := hs
      refine ⟨hh, by rw [hp x List.mem_cons_self, hpx], ?_⟩
      rw [hn x List.mem_cons_self]
      exact ih hrest (fun y hy => hn y (List.mem_cons_of_mem x hy))
        (fun y hy => hp y (List.mem_cons_of_mem x hy))

/-- The head pointer points to the first node. -/
theorem IsSeg.head_eq (hs : IsSeg next prev p h xs q t) : h = xs.head?.or t := by
  cases xs with
  | nil => simpa using hs.2
  | cons x xs => simpa using hs.1

/-- The last pointer points to the last node. -/
theorem IsSeg.last_eq (hs : IsSeg next prev p h xs q t) : q = xs.getLast?.or p := by
  induction xs generalizing p h with
  | nil => simpa using hs.1.symm
  | cons x xs ih =>
      rw [ih hs.2.2]
      cases xs with
      | nil => simp
      | cons y ys => simp [List.getLast?_eq_some_getLast]

/-- A traversal that reaches the end is determined by its start. -/
theorem IsSeg.unique (hs : IsSeg next prev p h xs q none)
    (hs' : IsSeg next prev' p' h ys q' none) : xs = ys := by
  induction xs generalizing p p' h ys with
  | nil =>
      cases ys with
      | nil => rfl
      | cons y ys => rw [hs.2] at hs'; exact absurd hs'.1 (by simp)
  | cons x xs ih =>
      cases ys with
      | nil => rw [hs'.2] at hs; exact absurd hs.1 (by simp)
      | cons y ys =>
          obtain rfl : x = y := Option.some.inj (hs.1.symm.trans hs'.1)
          rw [ih hs.2.2 hs'.2.2]

/-- A traversal that reaches the end visits no node twice. -/
theorem IsSeg.nodup (hs : IsSeg next prev p h xs q none) : xs.Nodup := by
  induction xs generalizing p h with
  | nil => exact List.nodup_nil
  | cons x xs ih =>
      refine List.nodup_cons.mpr ⟨fun hx => ?_, ih hs.2.2⟩
      obtain ⟨as, bs, rfl⟩ := List.append_of_mem hx
      obtain ⟨m, n, -, hsuf⟩ := isSeg_append.mp hs.2.2
      have hloop : x :: (as ++ x :: bs) = x :: bs := by
        rw [hs.1] at hs
        rw [hsuf.1] at hsuf
        exact IsSeg.unique hs hsuf
      have hlen := congrArg List.length hloop
      simp at hlen
      omega

/-- The first node's `prev` is the pointer the segment starts from. -/
theorem IsSeg.prev_head (hs : IsSeg next prev p (some x) xs q none) : prev x = p := by
  cases xs with
  | nil => exact absurd hs.2 (by simp)
  | cons y ys =>
      obtain rfl : x = y := Option.some.inj hs.1
      exact hs.2.1

/-- A segment up to the end is empty exactly when its head pointer is. -/
theorem IsSeg.eq_nil_iff (hs : IsSeg next prev p h xs q none) : xs = [] ↔ h = none := by
  cases xs with
  | nil => simpa using hs.2
  | cons x xs => simp [hs.1]

theorem IsSeg.mem_head (hs : IsSeg next prev p (some x) xs q none) : x ∈ xs := by
  cases xs with
  | nil => exact absurd hs.2 (by simp)
  | cons y ys => simp [Option.some.inj hs.1]

/-- The successor of a listed node is listed. -/
theorem IsSeg.mem_next (hs : IsSeg next prev p h xs q none) (hx : x ∈ xs)
    (hy : next x = some y) : y ∈ xs := by
  obtain ⟨as, bs, rfl⟩ := List.append_of_mem hx
  obtain ⟨m, n, -, -, -, hb⟩ := isSeg_append.mp hs
  rw [hy] at hb
  simp [hb.mem_head]

/-- The predecessor of a listed node is listed, unless it is the first. -/
theorem IsSeg.mem_prev (hs : IsSeg next prev none h xs q t) (hx : x ∈ xs)
    (hy : prev x = some y) : y ∈ xs := by
  obtain ⟨as, bs, rfl⟩ := List.append_of_mem hx
  obtain ⟨m, n, ha, -, hm, -⟩ := isSeg_append.mp hs
  have hlast := ha.last_eq
  rw [← hm, hy, Option.or_none] at hlast
  exact List.mem_append_left _ (List.mem_of_getLast? hlast.symm)

/-- A listed node that is not the first has a predecessor. -/
theorem IsSeg.prev_isSome (hs : IsSeg next prev p h xs q none) (hx : x ∈ xs)
    (hh : h ≠ some x) : (prev x).isSome := by
  obtain ⟨as, bs, rfl⟩ := List.append_of_mem hx
  obtain ⟨m, n, ha, hn, hm, -⟩ := isSeg_append.mp hs
  rcases List.eq_nil_or_concat as with rfl | ⟨ws, w, rfl⟩
  · exact absurd (ha.2.trans hn) hh
  · rw [hm, ha.last_eq]
    simp

/-! ## following one link only -/

/-- Following `next` from `h` visits the nodes `xs` and ends. -/
def Visits (next : α → Option α) (h : Option α) (xs : List α) : Prop :=
  ∃ prev p q, IsSeg next prev p h xs q none

theorem IsSeg.visits (hs : IsSeg next prev p h xs q none) : Visits next h xs :=
  ⟨prev, p, q, hs⟩

theorem Visits.nodup (hv : Visits next h xs) : xs.Nodup := by
  obtain ⟨_, _, _, hs⟩ := hv
  exact hs.nodup

theorem Visits.unique (hv : Visits next h xs) (hv' : Visits next h ys) : xs = ys := by
  obtain ⟨_, _, _, hs⟩ := hv
  obtain ⟨_, _, _, hs'⟩ := hv'
  exact hs.unique hs'

theorem Visits.congr (hv : Visits next h xs) (hn : ∀ y ∈ xs, next' y = next y) :
    Visits next' h xs := by
  obtain ⟨_, _, _, hs⟩ := hv
  exact (hs.congr hn fun _ _ => rfl).visits

@[simp] theorem visits_nil : Visits next h [] ↔ h = none := by
  constructor
  · rintro ⟨_, _, _, hs⟩
    exact hs.2
  · intro hh
    exact ⟨fun _ => none, none, none, rfl, hh⟩

/-- The first node, and the rest from its `next` on. -/
theorem Visits.cons (hv : Visits next h (x :: xs)) : h = some x ∧ Visits next (next x) xs := by
  obtain ⟨_, _, _, hs⟩ := hv
  exact ⟨hs.1, hs.2.2.visits⟩

theorem Visits.head_eq (hv : Visits next h xs) : h = xs.head? := by
  obtain ⟨_, _, _, hs⟩ := hv
  simpa using hs.head_eq

/-! ## editing a segment -/

variable [DecidableEq α]

/-- Linking a new node in front. -/
theorem IsSeg.pushFront (next' prev' : α → Option α)
    (hs : IsSeg next prev none h xs q none) (hx : x ∉ xs)
    (hnx : next' x = h) (hpx : prev' x = none) (hn : ∀ y ∈ xs, next' y = next y)
    (hp : ∀ y ∈ xs, prev' y = if h = some y then some x else prev y) :
    IsSeg next' prev' none (some x) (x :: xs) (q.or (some x)) none := by
  refine ⟨rfl, hpx, ?_⟩
  rw [hnx]
  cases xs with
  | nil =>
      obtain ⟨rfl, rfl⟩ := hs
      exact ⟨rfl, rfl⟩
  | cons y ys =>
      obtain ⟨rfl, hpy, hrest⟩ := hs
      have hnd := List.nodup_cons.mp (IsSeg.nodup (p := none) (h := some y) ⟨rfl, hpy, hrest⟩)
      refine ⟨rfl, by simp [hp y], ?_⟩
      rw [hn y List.mem_cons_self]
      have hq : q.or (some x) = q := by
        have hl := hrest.last_eq
        cases hg : ys.getLast? <;> simp [hl, hg]
      rw [hq]
      refine hrest.congr (fun z hz => hn z (List.mem_cons_of_mem y hz)) fun z hz => ?_
      have hzy : y ≠ z := fun he => hnd.1 (he ▸ hz)
      simp [hp z (List.mem_cons_of_mem y hz), hzy]

/-- Linking a new node at the end. -/
theorem IsSeg.pushBack (next' prev' : α → Option α)
    (hs : IsSeg next prev p h xs q none) (hx : x ∉ xs)
    (hnx : next' x = none) (hpx : prev' x = q) (hp : ∀ y ∈ xs, prev' y = prev y)
    (hn : ∀ y ∈ xs, next' y = if q = some y then some x else next y) :
    IsSeg next' prev' p (h.or (some x)) (xs ++ [x]) (some x) none := by
  rcases List.eq_nil_or_concat xs with rfl | ⟨ys, y, rfl⟩
  · obtain ⟨rfl, rfl⟩ := hs
    exact ⟨rfl, hpx, rfl, hnx⟩
  · rw [List.concat_eq_append] at hs hx hp hn ⊢
    have hnd := hs.nodup
    obtain ⟨m, n, hys, hy⟩ := isSeg_append.mp hs
    obtain ⟨rfl, hpy, rfl, hny⟩ := hy
    have hh : h.or (some x) = h := by
      have := hys.head_eq
      cases hg : ys.head? <;> simp [this, hg]
    rw [hh, List.append_assoc]
    refine isSeg_append.mpr ⟨m, some y, ?_, rfl, ?_, ?_⟩
    · refine hys.congr (fun z hz => ?_) fun z hz => hp z (List.mem_append_left _ hz)
      have hzy : y ≠ z := fun he =>
        (List.nodup_append.mp hnd).2.2 z hz y List.mem_cons_self he.symm
      simp [hn z (List.mem_append_left _ hz), hzy]
    · rw [hp y (by simp), hpy]
    · rw [hn y (by simp)]
      simp [hnx, hpx]

/-- Linking a node at the end that may be linked already: the traversal is
cut at the place where the node stood. -/
theorem Visits.pushBack (next' : α → Option α) (hv : Visits next h xs)
    (hnx : next' x = none)
    (hn : ∀ y ∈ xs, y ≠ x → next' y = if xs.getLast? = some y then some x else next y) :
    Visits next' (h.or (some x)) (xs.takeWhile (· ≠ x) ++ [x]) := by
  obtain ⟨prev, p, q, hs⟩ := hv
  have hnd := hs.nodup
  by_cases hx : x ∈ xs
  · -- the last node, whose link changes, is not in front of `x`
    obtain ⟨ys, zs, rfl⟩ := List.append_of_mem hx
    obtain ⟨m, n, hys, hz⟩ := isSeg_append.mp hs
    have hxy : ∀ y ∈ ys, y ≠ x := fun y hy he =>
      (List.nodup_append.mp hnd).2.2 y hy x List.mem_cons_self he
    have hcut : (ys ++ x :: zs).takeWhile (· ≠ x) = ys := by
      rw [List.takeWhile_append_of_pos (by simpa using hxy)]
      simp
    have hh : h.or (some x) = h := by
      rw [hs.head_eq]
      cases ys <;> simp
    have hlast : ∀ y ∈ ys, (ys ++ x :: zs).getLast? ≠ some y := fun y hy he => by
      have hmem : y ∈ x :: zs := by
        rw [List.getLast?_append_of_ne_nil _ (by simp)] at he
        exact List.mem_of_getLast? he
      exact (List.nodup_append.mp hnd).2.2 y hy y hmem rfl
    rw [hcut, hh]
    refine ⟨prev, p, some x, isSeg_append.mpr ⟨m, n, ?_, hz.1, hz.2.1, ?_⟩⟩
    · refine hys.congr (fun y hy => ?_) fun _ _ => rfl
      rw [hn y (List.mem_append_left _ hy) (hxy y hy), if_neg (hlast y hy)]
    · exact ⟨rfl, hnx⟩
  · have hcut : xs.takeWhile (· ≠ x) = xs := by
      rw [List.takeWhile_eq_self_iff]
      intro y hy
      simpa using fun he : y = x => hx (he ▸ hy)
    rw [hcut]
    have hs' : IsSeg next (Function.update prev x q) p h xs q none :=
      hs.congr (fun _ _ => rfl) fun y hy =>
        Function.update_of_ne (fun he : y = x => hx (he ▸ hy)) _ _
    refine (hs'.pushBack next' (Function.update prev x q) hx hnx (by simp) (fun _ _ => rfl) ?_).visits
    intro y hy
    have hyx : y ≠ x := fun he => hx (he ▸ hy)
    have hq : q = some y ↔ xs.getLast? = some y := by
      rw [hs.last_eq]
      cases xs with
      | nil => cases hy
      | cons z zs => simp [List.getLast?_cons]
    rw [hn y hy hyx]
    simp [hq]

/-- Unlinking a node, wherever it stands; the first one must have been
linked with a null `prev`. -/
theorem IsSeg.remove (next' prev' : α → Option α)
    (hs : IsSeg next prev p h (ys ++ x :: zs) q none) (h0 : p = none ∨ ys ≠ [])
    (hn : ∀ y ∈ ys ++ zs, next' y = if prev x = some y then next x else next y)
    (hp : ∀ y ∈ ys ++ zs, prev' y = if next x = some y then prev x else prev y) :
    IsSeg next' prev' p (if ys = [] then next x else h) (ys ++ zs)
      (if zs = [] then prev x else q) none := by
  obtain ⟨hny, -, hdisj⟩ := List.nodup_append.mp hs.nodup
  have hnd := (List.nodup_append.mp hs.nodup).2.1
  obtain ⟨m, n, hys, rfl, hpx, hzs⟩ := isSeg_append.mp hs
  have hnext_mem : ∀ z, next x = some z → z ∈ zs := fun z hz => by
    rw [hz] at hzs
    exact hzs.mem_head
  have hprev_mem : ∀ z, prev x = some z → z ∈ ys := fun z hz => by
    have hl := hys.last_eq
    rw [← hpx, hz] at hl
    rcases List.eq_nil_or_concat ys with rfl | ⟨ws, w, rfl⟩
    · rcases h0 with rfl | h0
      · simp at hl
      · exact absurd rfl h0
    · simp [show z = w by simpa using hl]
  refine isSeg_append.mpr ⟨prev x, next x, ?_, ?_⟩
  · -- the part before the node: only its last link changes
    rcases List.eq_nil_or_concat ys with rfl | ⟨ws, w, rfl⟩
    · exact ⟨by rw [hpx, hys.1], by simp⟩
    · rw [List.concat_eq_append] at hys hn hp hny hdisj hprev_mem ⊢
      obtain ⟨m', n', hws, rfl, hpw, rfl, hnw⟩ := isSeg_append.mp hys
      have hpz : ∀ z ∈ ws ++ [w], prev' z = prev z := fun z hz => by
        rw [hp z (List.mem_append_left _ hz), if_neg fun he =>
          hdisj z hz z (List.mem_cons_of_mem x (hnext_mem z he)) rfl]
      rw [if_neg (by simp)]
      refine isSeg_append.mpr ⟨m', some w, ?_, rfl, ?_, hpx.symm, ?_⟩
      · refine hws.congr (fun z hz => ?_) fun z hz => hpz z (List.mem_append_left _ hz)
        have hwz : w ≠ z := fun he =>
          (List.nodup_append.mp hny).2.2 z hz w List.mem_cons_self he.symm
        rw [hn z (by simp [hz]), hpx, if_neg (by simpa using hwz)]
      · rw [hpz w (by simp), hpw]
      · rw [hn w (by simp), hpx, if_pos rfl]
  · -- the part after it: only its first link changes
    have hnz : ∀ z ∈ zs, next' z = next z := fun z hz => by
      rw [hn z (List.mem_append_right _ hz), if_neg fun he =>
        hdisj z (hprev_mem z he) z (List.mem_cons_of_mem x hz) rfl]
    cases zs with
    | nil => exact ⟨by simp, hzs.2⟩
    | cons z zs =>
        obtain ⟨hxz, hpz, hrest⟩ := hzs
        have hz := (List.nodup_cons.mp (List.nodup_cons.mp hnd).2).1
        rw [if_neg (by simp)]
        refine ⟨hxz, by rw [hp z (by simp), if_pos hxz], ?_⟩
        rw [hnz z List.mem_cons_self]
        refine hrest.congr (fun w hw => hnz w (List.mem_cons_of_mem z hw)) fun w hw => ?_
        rw [hp w (by simp [hw]), if_neg]
        rw [hxz]
        exact fun he => hz (Option.some.inj he ▸ hw)

/-- Unlinking a node of a whole list. -/
theorem IsSeg.erase (next' prev' : α → Option α) (hs : IsSeg next prev none h xs q none)
    (hx : x ∈ xs)
    (hn : ∀ y ∈ xs, y ≠ x → next' y = if prev x = some y then next x else next y)
    (hp : ∀ y ∈ xs, y ≠ x → prev' y = if next x = some y then prev x else prev y) :
    IsSeg next' prev' none (if h = some x then next x else h) (xs.erase x)
      (if q = some x then prev x else q) none := by
  have hnd := hs.nodup
  obtain ⟨ys, zs, rfl⟩ := List.append_of_mem hx
  have hxn : x ∉ ys ++ zs := (List.nodup_middle.mp hnd).notMem
  have hne : ∀ y ∈ ys ++ zs, y ≠ x := fun y hy he => hxn (he ▸ hy)
  have hmem : ∀ y ∈ ys ++ zs, y ∈ ys ++ x :: zs := fun y hy => by
    simp only [List.mem_append, List.mem_cons] at hy ⊢
    cases hy with
    | inl h => exact Or.inl h
    | inr h => exact Or.inr (Or.inr h)
  have hrem := hs.remove next' prev' (Or.inl rfl)
    (fun y hy => hn y (hmem y hy) (hne y hy)) (fun y hy => hp y (hmem y hy) (hne y hy))
  have hhead : h = some x ↔ ys = [] := by
    rw [hs.head_eq]
    cases ys with
    | nil => simp
    | cons y ys => simpa using fun hxy : y = x => hne y (by simp) hxy
  have htail : q = some x ↔ zs = [] := by
    rw [hs.last_eq]
    rcases List.eq_nil_or_concat zs with rfl | ⟨ws, w, rfl⟩
    · simp
    · have hw : w ≠ x := hne w (by simp)
      simp [List.getLast?_cons, hw]
  have hxy : x ∉ ys := fun hy => hxn (List.mem_append_left zs hy)
  have herase : (ys ++ x :: zs).erase x = ys ++ zs := by
    rw [List.erase_append_right _ hxy, List.erase_cons_head]
  rw [herase]
  simpa [hhead, htail] using hrem

end Dlist
