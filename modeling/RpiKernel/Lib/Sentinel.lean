import Mathlib.Algebra.Group.Nat.Defs
import Mathlib.Data.List.Basic
import Mathlib.Data.List.Chain
import Mathlib.Data.List.TakeWhile
import Mathlib.Logic.Function.Basic

/-!
# Lib.Sentinel

Doubly linked lists between two sentinels, kept in order of a key.

`Between next prev head tail xs` says that the nodes `xs` are linked both ways
between `head` and `tail`.  `seek` walks along `next` until the next node meets
a test; `Between.insert` links a node in where the walk stopped, and
`Between.unlink` takes one out.  `Ordered` lists stay in order when a node is
placed behind all nodes of its key.
-/

namespace Sentinel

variable {α : Type*} {next prev next' prev' : α → Option α} {head tail x y : α} {l xs ys zs : List α}

/-- `b` follows `a`. -/
def Linked (next prev : α → Option α) (a b : α) : Prop := next a = some b ∧ prev b = some a

/-- The nodes `xs` stand between the two sentinels. -/
structure Between (next prev : α → Option α) (head tail : α) (xs : List α) : Prop where
  chain : List.IsChain (Linked next prev) (head :: (xs ++ [tail]))
  nodup : (head :: (xs ++ [tail])).Nodup

/-- The last of `ys`, or the sentinel in front. -/
def lastOf (head : α) (ys : List α) : α := ys.getLast?.getD head

/-- The first of `zs`, or the sentinel behind. -/
def firstOf (zs : List α) (tail : α) : α := zs.head?.getD tail

@[simp] theorem lastOf_nil : lastOf head [] = head := rfl

@[simp] theorem lastOf_concat : lastOf head (ys ++ [x]) = x := by simp [lastOf]

@[simp] theorem firstOf_nil : firstOf [] tail = tail := rfl

@[simp] theorem firstOf_cons : firstOf (x :: zs) tail = x := rfl

theorem getLast_lastOf : (head :: ys).getLast? = some (lastOf head ys) := by
  rw [List.getLast?_cons]
  rfl

theorem head_firstOf : (zs ++ [tail]).head? = some (firstOf zs tail) := by
  cases zs <;> rfl

theorem lastOf_mem : lastOf head ys ∈ head :: ys := List.mem_of_getLast? getLast_lastOf

theorem firstOf_mem : firstOf zs tail ∈ zs ++ [tail] := List.mem_of_head? head_firstOf

/-! ## reading -/

/-- The two parts of a list, and the link between them. -/
theorem Between.split (h : Between next prev head tail (ys ++ zs)) :
    List.IsChain (Linked next prev) (head :: ys) ∧ List.IsChain (Linked next prev) (zs ++ [tail]) ∧
      Linked next prev (lastOf head ys) (firstOf zs tail) := by
  have hc := h.chain
  rw [List.append_assoc, ← List.cons_append, List.isChain_append] at hc
  refine ⟨hc.1, hc.2.1, hc.2.2 _ ?_ _ ?_⟩
  · exact getLast_lastOf
  · exact head_firstOf

theorem Between.next_last (h : Between next prev head tail (ys ++ zs)) :
    next (lastOf head ys) = some (firstOf zs tail) := h.split.2.2.1

theorem Between.prev_first (h : Between next prev head tail (ys ++ zs)) :
    prev (firstOf zs tail) = some (lastOf head ys) := h.split.2.2.2

theorem Between.next_head (h : Between next prev head tail xs) : next head = some (firstOf xs tail) :=
  Between.next_last (show Between next prev head tail ([] ++ xs) from h)

theorem Between.notMem_tail (h : Between next prev head tail xs) : tail ∉ xs := by
  have hnd := (List.nodup_cons.1 h.nodup).2
  exact fun hm => (List.nodup_append.1 hnd).2.2 tail hm tail (by simp) rfl

/-- Nothing stands between the sentinels exactly when they are linked. -/
theorem Between.nil_iff (h : Between next prev head tail xs) : next head = some tail ↔ xs = [] := by
  rw [h.next_head, Option.some.injEq]
  cases xs with
  | nil => simp
  | cons x xs => simpa using fun he : x = tail => h.notMem_tail (he ▸ List.mem_cons_self)

/-- A chain depends on the links it has. -/
theorem chain_congr (h : List.IsChain (Linked next prev) l) (hn : ∀ a ∈ l.dropLast, next' a = next a)
    (hp : ∀ b ∈ l.tail, prev' b = prev b) : List.IsChain (Linked next' prev') l := by
  induction l with
  | nil => exact .nil
  | cons a l ih =>
      cases l with
      | nil => exact .singleton a
      | cons b l =>
          rw [List.isChain_cons_cons] at h ⊢
          obtain ⟨⟨hab, hba⟩, hrest⟩ := h
          refine ⟨⟨?_, ?_⟩, ih hrest (fun c hc => hn c ?_) fun c hc => hp c ?_⟩
          · rw [hn a (by simp), hab]
          · rw [hp b (by simp), hba]
          · simp [hc]
          · exact List.mem_cons_of_mem b hc

theorem Between.congr (h : Between next prev head tail xs) (hn : ∀ a ∈ head :: xs, next' a = next a)
    (hp : ∀ b ∈ xs ++ [tail], prev' b = prev b) : Between next' prev' head tail xs := by
  refine ⟨chain_congr h.chain (fun a ha => hn a ?_) hp, h.nodup⟩
  rwa [← List.cons_append, List.dropLast_concat] at ha

/-- The nodes in front of a place: only the last link may change. -/
theorem front_congr (h : List.IsChain (Linked next prev) (head :: ys)) (hnd : (head :: ys).Nodup)
    (hn : ∀ a ∈ head :: ys, a ≠ lastOf head ys → next' a = next a)
    (hp : ∀ b ∈ ys, prev' b = prev b) : List.IsChain (Linked next' prev') (head :: ys) := by
  have hne : head :: ys ≠ [] := List.cons_ne_nil _ _
  have hlast : (head :: ys).getLast hne = lastOf head ys := by
    have hl : (head :: ys).getLast? = some (lastOf head ys) := getLast_lastOf
    rwa [List.getLast?_eq_some_getLast hne, Option.some.injEq] at hl
  refine chain_congr h (fun a ha => hn a (List.dropLast_subset _ ha) fun he => ?_) hp
  rw [← List.dropLast_append_getLast hne] at hnd
  exact (List.nodup_append.1 hnd).2.2 a ha _ (by simp) (he.trans hlast.symm)

/-- The nodes behind a place: only the first link back may change. -/
theorem back_congr (h : List.IsChain (Linked next prev) (zs ++ [tail])) (hnd : (zs ++ [tail]).Nodup)
    (hn : ∀ a ∈ zs, next' a = next a)
    (hp : ∀ b ∈ zs ++ [tail], b ≠ firstOf zs tail → prev' b = prev b) :
    List.IsChain (Linked next' prev') (zs ++ [tail]) := by
  refine chain_congr h (fun a ha => ?_) fun b hb => hp b (List.mem_of_mem_tail hb) fun he => ?_
  · rw [List.dropLast_concat] at ha
    exact hn a ha
  · cases zs with
    | nil => cases hb
    | cons z zs =>
        rw [firstOf_cons] at he
        rw [he] at hb
        exact (List.nodup_cons.1 hnd).1 hb

/-! ## editing -/

/-- Linking a node in. -/
theorem Between.insert (h : Between next prev head tail (ys ++ zs))
    (hx : x ∉ head :: (ys ++ zs ++ [tail]))
    (hn : ∀ a, a ≠ x → a ≠ lastOf head ys → next' a = next a)
    (hp : ∀ b, b ≠ x → b ≠ firstOf zs tail → prev' b = prev b)
    (hfront : Linked next' prev' (lastOf head ys) x) (hback : Linked next' prev' x (firstOf zs tail)) :
    Between next' prev' head tail (ys ++ x :: zs) := by
  have hnd := h.nodup
  rw [List.append_assoc, ← List.cons_append] at hnd hx
  obtain ⟨hnf, hnb, hdisj⟩ := List.nodup_append.1 hnd
  have hxf : ∀ a ∈ head :: ys, a ≠ x := fun a ha he => hx (he ▸ List.mem_append_left _ ha)
  have hxb : ∀ b ∈ zs ++ [tail], b ≠ x := fun b hb he => hx (he ▸ List.mem_append_right _ hb)
  obtain ⟨hf, hb, -⟩ := h.split
  have hf' : List.IsChain (Linked next' prev') (head :: ys) :=
    front_congr hf hnf (fun a ha hl => hn a (hxf a ha) hl)
    fun b hb => hp b (hxf b (List.mem_cons_of_mem _ hb)) (hdisj b (List.mem_cons_of_mem _ hb) _ firstOf_mem)
  have hb' : List.IsChain (Linked next' prev') (zs ++ [tail]) := back_congr hb hnb
    (fun a ha => hn a (hxb a (List.mem_append_left _ ha))
      (hdisj _ lastOf_mem a (List.mem_append_left _ ha)).symm)
    fun b hb => hp b (hxb b hb)
  constructor
  case chain =>
    rw [List.append_assoc, ← List.cons_append, List.isChain_append]
    refine ⟨hf', ?_, fun a ha b hb => ?_⟩
    · rw [List.cons_append, List.isChain_cons]
      refine ⟨fun b hb => ?_, hb'⟩
      rw [head_firstOf] at hb
      cases hb
      exact hback
    · rw [getLast_lastOf] at ha
      cases ha
      cases hb
      exact hfront
  case nodup =>
    have hnew : (head :: ys ++ x :: (zs ++ [tail])).Nodup :=
      List.perm_middle.nodup_iff.2 (List.nodup_cons.2 ⟨hx, hnd⟩)
    simpa using hnew

/-- Taking a node out. -/
theorem Between.unlink (h : Between next prev head tail (ys ++ x :: zs))
    (hn : ∀ a, a ≠ x → a ≠ lastOf head ys → next' a = next a)
    (hp : ∀ b, b ≠ x → b ≠ firstOf zs tail → prev' b = prev b)
    (hlink : Linked next' prev' (lastOf head ys) (firstOf zs tail)) :
    Between next' prev' head tail (ys ++ zs) := by
  have hnd := h.nodup
  rw [List.append_assoc, ← List.cons_append] at hnd
  obtain ⟨hnf, hnb, hdisj⟩ := List.nodup_append.1 hnd
  have hxf : ∀ a ∈ head :: ys, a ≠ x := fun a ha => hdisj a ha x (by simp)
  rw [List.cons_append] at hnb
  obtain ⟨hxb, hnb⟩ := List.nodup_cons.1 hnb
  have hdisj' : ∀ a ∈ head :: ys, ∀ b ∈ zs ++ [tail], a ≠ b := fun a ha b hb => hdisj a ha b (by grind)
  obtain ⟨hf, hb, -⟩ := h.split
  rw [List.cons_append, List.isChain_cons] at hb
  have hf' : List.IsChain (Linked next' prev') (head :: ys) :=
    front_congr hf hnf (fun a ha hl => hn a (hxf a ha) hl)
    fun b hb => hp b (hxf b (List.mem_cons_of_mem _ hb))
      (hdisj' b (List.mem_cons_of_mem _ hb) _ firstOf_mem)
  have hb' : List.IsChain (Linked next' prev') (zs ++ [tail]) := back_congr hb.2 hnb
    (fun a ha => hn a (fun he => hxb (he ▸ List.mem_append_left _ ha))
      (hdisj' _ lastOf_mem a (List.mem_append_left _ ha)).symm)
    fun b hb => hp b (fun he => hxb (he ▸ hb))
  constructor
  case chain =>
    rw [List.append_assoc, ← List.cons_append, List.isChain_append]
    refine ⟨hf', hb', fun a ha b hb => ?_⟩
    rw [getLast_lastOf] at ha
    rw [head_firstOf] at hb
    cases ha
    cases hb
    exact hlink
  case nodup =>
    rw [List.append_assoc, ← List.cons_append]
    exact List.nodup_append.2 ⟨hnf, hnb, hdisj'⟩

section

variable [DecidableEq α]

/-- The four links that put a node in its place. -/
theorem Between.link (h : Between next prev head tail (ys ++ zs))
    (hx : x ∉ head :: (ys ++ zs ++ [tail])) :
    Between (Function.update (Function.update next x (some (firstOf zs tail))) (lastOf head ys) (some x))
      (Function.update (Function.update prev x (some (lastOf head ys))) (firstOf zs tail) (some x))
      head tail (ys ++ x :: zs) := by
  have hlast : lastOf head ys ≠ x := fun he => hx (by grind [lastOf_mem])
  have hfirst : firstOf zs tail ≠ x := fun he => hx (by grind [firstOf_mem])
  refine h.insert hx (fun a hax hal => ?_) (fun b hbx hbf => ?_) ⟨?_, ?_⟩ ⟨?_, ?_⟩
  · rw [Function.update_of_ne hal, Function.update_of_ne hax]
  · rw [Function.update_of_ne hbf, Function.update_of_ne hbx]
  · rw [Function.update_self]
  · rw [Function.update_of_ne hfirst.symm, Function.update_self]
  · rw [Function.update_of_ne hlast.symm, Function.update_self]
  · rw [Function.update_self]

/-- The two links that leave a node out. -/
theorem Between.cut (h : Between next prev head tail (ys ++ x :: zs)) :
    Between (Function.update next (lastOf head ys) (some (firstOf zs tail)))
      (Function.update prev (firstOf zs tail) (some (lastOf head ys))) head tail (ys ++ zs) := by
  refine h.unlink (fun a _ ha => ?_) (fun b _ hb => ?_) ⟨?_, ?_⟩
  · exact Function.update_of_ne ha _ _
  · exact Function.update_of_ne hb _ _
  · exact Function.update_self _ _ _
  · exact Function.update_self _ _ _

end

/-- What stands before and behind a node. -/
theorem Between.around (h : Between next prev head tail (ys ++ x :: zs)) :
    prev x = some (lastOf head ys) ∧ next x = some (firstOf zs tail) := by
  have h' : Between next prev head tail (ys ++ [x] ++ zs) := by simpa using h
  have hn := h'.next_last
  rw [lastOf_concat] at hn
  exact ⟨h.prev_first, hn⟩

/-! ## walking -/

/-- From `x`, go on along `next` until the next node meets `stop`, or there is
none; at most `n` nodes are looked at. -/
def seek (next : α → Option α) (stop : α → Prop) [DecidablePred stop] : Nat → α → Option α
  | 0, _ => none
  | n + 1, x =>
      match next x with
      | none => some x
      | some y => if stop y then some x else seek next stop n y

/-- The walk from `head` ends in front of the first node that meets `stop`. -/
theorem Between.seek (stop : α → Prop) [DecidablePred stop] {n : Nat}
    (h : Between next prev head tail (ys ++ zs)) (htail : stop tail) (hn : zs.length < n) :
    seek next stop n (lastOf head ys) =
      some (lastOf head (ys ++ zs.takeWhile fun z => ¬ stop z)) := by
  induction zs generalizing ys n with
  | nil =>
      obtain ⟨n, rfl⟩ := Nat.exists_eq_succ_of_ne_zero (Nat.ne_of_gt hn)
      simp [Sentinel.seek, h.next_last, htail]
  | cons z zs ih =>
      obtain ⟨n, rfl⟩ := Nat.exists_eq_succ_of_ne_zero (Nat.ne_of_gt (Nat.zero_lt_of_lt hn))
      rw [Sentinel.seek, h.next_last]
      by_cases hz : stop z
      · simp [hz]
      · have hsplit : Between next prev head tail (ys ++ [z] ++ zs) := by simpa using h
        have hih := ih hsplit (Nat.lt_of_succ_lt_succ hn)
        rw [lastOf_concat] at hih
        simp [hz, hih]

theorem takeWhile_congr {p q : α → Bool} (h : ∀ z ∈ xs, p z = q z) : xs.takeWhile p = xs.takeWhile q := by
  induction xs with
  | nil => rfl
  | cons z zs ih =>
      have hih := ih fun y hy => h y (List.mem_cons_of_mem z hy)
      rw [List.takeWhile_cons, List.takeWhile_cons, h z List.mem_cons_self, hih]

/-! ## order -/

variable {key key' : α → Nat} {k p : Nat}

/-- In order of their keys. -/
def Ordered (key : α → Nat) (xs : List α) : Prop := xs.Pairwise fun a b => key a ≤ key b

/-- `x` behind the nodes whose keys are at most `k`. -/
def place (key : α → Nat) (k : Nat) (x : α) (xs : List α) : List α :=
  xs.takeWhile (fun y => key y ≤ k) ++ x :: xs.dropWhile fun y => key y ≤ k

theorem place_perm : (place key k x xs).Perm (x :: xs) := by
  unfold place
  refine List.perm_middle.trans (.cons x ?_)
  rw [List.takeWhile_append_dropWhile]

theorem mem_place : y ∈ place key k x xs ↔ y = x ∨ y ∈ xs := by
  rw [place_perm.mem_iff, List.mem_cons]

/-- The new node is the first, or the first one stays. -/
theorem head_place (hy : y ∈ (place key k x xs).head?) : y = x ∨ y ∈ xs.head? := by
  cases xs with
  | nil =>
      left
      simpa [place, eq_comm] using hy
  | cons z zs =>
      unfold place at hy
      by_cases hz : key z ≤ k
      · right
        simpa [hz] using hy
      · left
        simpa [hz, eq_comm] using hy

theorem place_congr (h : ∀ y ∈ xs, key' y = key y) : place key' k x xs = place key k x xs := by
  induction xs with
  | nil => rfl
  | cons z zs ih =>
      have hih := ih fun y hy => h y (List.mem_cons_of_mem z hy)
      have hz := h z List.mem_cons_self
      unfold place at hih ⊢
      by_cases hk : key z ≤ k
      · simpa [hz, hk] using hih
      · simp [hz, hk]

theorem Ordered.congr (h : Ordered key xs) (hk : ∀ y ∈ xs, key' y = key y) : Ordered key' xs :=
  List.Pairwise.imp_of_mem (fun {a b} ha hb hab => by rw [hk a ha, hk b hb]; exact hab) h

/-- Behind the place the keys are larger. -/
theorem Ordered.behind (h : Ordered key xs) (hy : y ∈ xs.dropWhile fun y => key y ≤ k) :
    k < key y := by
  induction xs with
  | nil => cases hy
  | cons z zs ih =>
      obtain ⟨hz, hzs⟩ := List.pairwise_cons.1 h
      by_cases hk : key z ≤ k
      · rw [List.dropWhile_cons_of_pos (by simpa using hk)] at hy
        exact ih hzs hy
      · rw [List.dropWhile_cons_of_neg (by simpa using hk)] at hy
        cases List.mem_cons.1 hy with
        | inl he => rw [he]; omega
        | inr hm => have := hz y hm; omega

/-- Placing keeps an order that the new node fits into. -/
theorem pairwise_place {R : α → α → Prop} (h : xs.Pairwise R)
    (hf : ∀ y ∈ xs.takeWhile fun y => key y ≤ k, R y x)
    (hb : ∀ y ∈ xs.dropWhile fun y => key y ≤ k, R x y) : (Sentinel.place key k x xs).Pairwise R := by
  have hparts : xs.takeWhile (fun y => key y ≤ k) ++ xs.dropWhile (fun y => key y ≤ k) = xs :=
    List.takeWhile_append_dropWhile
  rw [← hparts] at h
  obtain ⟨h₁, h₂, h₁₂⟩ := List.pairwise_append.1 h
  refine List.pairwise_append.2 ⟨h₁, List.pairwise_cons.2 ⟨hb, h₂⟩, fun a ha b hm => ?_⟩
  cases List.mem_cons.1 hm with
  | inl he => exact he ▸ hf a ha
  | inr hm => exact h₁₂ a ha b hm

theorem Ordered.place (h : Ordered key xs) : Ordered key (place key (key x) x xs) := by
  refine pairwise_place h (fun y hy => ?_) fun y hy => Nat.le_of_lt (h.behind hy)
  simpa using List.mem_takeWhile_imp hy

/-- Among the nodes of one key the new one is the last. -/
theorem Ordered.filter_place (h : Ordered key xs) :
    (Sentinel.place key (key x) x xs).filter (fun y => key y = p) =
      xs.filter (fun y => key y = p) ++ if key x = p then [x] else [] := by
  have hparts : xs.takeWhile (fun y => key y ≤ key x) ++ xs.dropWhile (fun y => key y ≤ key x) = xs :=
    List.takeWhile_append_dropWhile
  unfold Sentinel.place
  by_cases hp : key x = p
  · have hnone : (xs.dropWhile fun y => key y ≤ key x).filter (fun y => key y = p) = [] := by
      rw [List.filter_eq_nil_iff]
      intro y hy
      have hlt := h.behind hy
      simp only [decide_eq_true_eq]
      omega
    have hfront : xs.filter (fun y => key y = p) =
        (xs.takeWhile fun y => key y ≤ key x).filter fun y => key y = p := by
      rw [← List.append_nil (List.filter _ (List.takeWhile _ _)), ← hnone, ← List.filter_append, hparts]
    rw [if_pos hp, List.filter_append, List.filter_cons_of_pos (by simpa using hp), hnone, hfront]
  · rw [if_neg hp, List.append_nil, List.filter_append, List.filter_cons_of_neg (by simpa using hp),
      ← List.filter_append, hparts]

end Sentinel
