import Mathlib.Data.Finset.Card
import Mathlib.Data.Finset.Range

/-!
# Lib.Slots

Tables whose entries are taken from the front, and never given back.

`take` is the scan for the first free entry (`take_range`).  A `Table` is a
machine with such a table in its state, in which other calls may be made as well:
when every call either takes a free entry of the table or finds none
(`Table.Takes`), ids are valid and distinct and entries stay
(`Table.registers_of_takes`).  A table that gets an entry at most in each of its own calls
is full only after as many of them (`Table.size_le_of_full`).
-/

namespace Slots

variable {α : Type*}

/-- The first free entry of those that are left is taken; -1 when there is none. -/
def take (free : α → Prop) [DecidablePred free] (t : Nat → α) (x : α) : List Nat → Int × (Nat → α)
  | [] => (-1, t)
  | i :: is => if free (t i) then (i, Function.update t i x) else take free t x is

/-- The scan as a search. -/
theorem take_eq_find? (free : α → Prop) [DecidablePred free] (t : Nat → α) (x : α) (is : List Nat) :
    take free t x is =
      (is.find? fun i => free (t i)).elim (-1, t) fun i : Nat => ((i : Int), Function.update t i x) := by
  induction is with
  | nil => rfl
  | cons i is ih =>
      unfold take
      by_cases hi : free (t i) <;> simp [hi, ih]

/-- The first `n` entries: the first free one is taken, or there is none. -/
theorem take_range (free : α → Prop) [DecidablePred free] (t : Nat → α) (x : α) (n : Nat) :
    (∃ i < n, free (t i) ∧ (∀ j < i, ¬ free (t j)) ∧
      take free t x (List.range n) = ((i : Int), Function.update t i x)) ∨
    (∀ i < n, ¬ free (t i)) ∧ take free t x (List.range n) = (-1, t) := by
  rw [take_eq_find?]
  cases hfind : (List.range n).find? fun i => free (t i) with
  | none =>
      rw [List.find?_range_eq_none] at hfind
      exact .inr ⟨by simpa using hfind, rfl⟩
  | some i =>
      rw [List.find?_range_eq_some] at hfind
      exact .inl ⟨i, by simpa using hfind.2.1, by simpa using hfind.1, by simpa using hfind.2.2, rfl⟩

/-- A machine with a table of `size` entries; `puts c` is what a call puts there. -/
structure Table (σ κ α : Type*) where
  step : σ → κ → Int × σ
  entry : σ → Nat → α
  size : Nat
  free : α → Prop
  puts : κ → Option α

namespace Table

variable {σ κ : Type*} {T : Table σ κ α} {s : σ} {c : κ} {cs : List κ} {x : α} {i : Nat}

/-- The state after calls, one after the other. -/
def after (T : Table σ κ α) (s : σ) (cs : List κ) : σ := cs.foldl (fun s c => (T.step s c).2) s

/-- No entry is free. -/
def Full (T : Table σ κ α) (s : σ) : Prop := ∀ i < T.size, ¬ T.free (T.entry s i)

/-- The answer to a call: -1 and no change when the table is full, and else a valid index. -/
def Answers (T : Table σ κ α) (s : σ) (c : κ) : Prop :=
  (T.Full s → T.step s c = (-1, s)) ∧ (¬ T.Full s → ∃ i < T.size, (T.step s c).1 = (i : Int))

/-- A run in which ids are valid and distinct, and the entry of an id stays what was put there. -/
structure Registers (T : Table σ κ α) (s : σ) (cs : List κ) : Prop where
  answers : ∀ pre c post x, cs = pre ++ c :: post → T.puts c = some x → T.Answers (T.after s pre) c
  kept : ∀ pre c mid post x, ∀ i : Nat, cs = pre ++ c :: (mid ++ post) → T.puts c = some x →
    (T.step (T.after s pre) c).1 = i → T.entry (T.after s (pre ++ c :: mid)) i = x
  distinct : ∀ pre c mid c' post x x', ∀ i : Nat, cs = pre ++ c :: (mid ++ c' :: post) →
    T.puts c = some x → T.puts c' = some x' → (T.step (T.after s pre) c).1 = i →
    (T.step (T.after s (pre ++ c :: mid)) c').1 ≠ i

/-- What a call may do with the table: put its entry where one is free, or find the table full.
Other calls leave the table as it is. -/
def Takes (T : Table σ κ α) (s : σ) (c : κ) : Prop :=
  match T.puts c with
  | none => ∀ i < T.size, T.entry (T.step s c).2 i = T.entry s i
  | some x =>
      T.Full s ∧ T.step s c = (-1, s) ∨
      ∃ i < T.size, T.free (T.entry s i) ∧ (T.step s c).1 = (i : Int) ∧
        ∀ j < T.size, T.entry (T.step s c).2 j = Function.update (T.entry s) i x j

theorem after_append (T : Table σ κ α) (s : σ) (cs cs' : List κ) :
    T.after s (cs ++ cs') = T.after (T.after s cs) cs' := List.foldl_append

theorem after_cons (T : Table σ κ α) (s : σ) (c : κ) (cs : List κ) :
    T.after s (c :: cs) = T.after (T.step s c).2 cs := rfl

/-- One call keeps what is not free. -/
theorem Takes.entry_eq (h : T.Takes s c) (hi : i < T.size) (hfree : ¬ T.free (T.entry s i)) :
    T.entry (T.step s c).2 i = T.entry s i := by
  unfold Takes at h
  cases hputs : T.puts c with
  | none =>
      rw [hputs] at h
      exact h i hi
  | some x =>
      simp only [hputs] at h
      cases h with
      | inl h => rw [h.2]
      | inr h =>
          obtain ⟨j, -, hj, -, hentry⟩ := h
          rw [hentry i hi, Function.update_of_ne]
          exact fun he => hfree (he ▸ hj)

/-- A run keeps what is not free. -/
theorem entry_after (h : ∀ pre c post, cs = pre ++ c :: post → T.Takes (T.after s pre) c)
    (hi : i < T.size) (hfree : ¬ T.free (T.entry s i)) : T.entry (T.after s cs) i = T.entry s i := by
  induction cs generalizing s with
  | nil => rfl
  | cons c cs ih =>
      have hc : T.entry (T.step s c).2 i = T.entry s i := (h [] c cs rfl).entry_eq hi hfree
      have hlater : ∀ pre c' post, cs = pre ++ c' :: post → T.Takes (T.after (T.step s c).2 pre) c' := by
        intro pre c' post he
        exact h (c :: pre) c' post (by rw [he, List.cons_append])
      have hrest := ih hlater (by rwa [hc])
      rw [after_cons, hrest, hc]

/-- The entry that was taken. -/
theorem Takes.taken (h : T.Takes s c) (hputs : T.puts c = some x) (hid : (T.step s c).1 = (i : Int)) :
    i < T.size ∧ T.free (T.entry s i) ∧ T.entry (T.step s c).2 i = x := by
  unfold Takes at h
  simp only [hputs] at h
  cases h with
  | inl h =>
      rw [h.2] at hid
      simp only at hid
      omega
  | inr h =>
      obtain ⟨j, hj, hfree, hj', hentry⟩ := h
      obtain rfl : i = j := by
        rw [hid] at hj'
        exact_mod_cast hj'
      exact ⟨hj, hfree, by rw [hentry i hj, Function.update_self]⟩

/-- Ids are valid and distinct and entries stay, when every call takes a free entry or finds none. -/
theorem registers_of_takes (hfresh : ∀ c ∈ cs, ∀ x, T.puts c = some x → ¬ T.free x)
    (h : ∀ pre c post, cs = pre ++ c :: post → T.Takes (T.after s pre) c) : T.Registers s cs := by
  have hkept : ∀ pre c mid post x, ∀ i : Nat, cs = pre ++ c :: (mid ++ post) → T.puts c = some x →
      (T.step (T.after s pre) c).1 = i → i < T.size ∧ T.entry (T.after s (pre ++ c :: mid)) i = x := by
    intro pre c mid post x i he hputs hid
    obtain ⟨hi, -, hx⟩ := (h pre c (mid ++ post) he).taken hputs hid
    refine ⟨hi, ?_⟩
    rw [after_append, after_cons, entry_after _ hi, hx]
    · rw [hx]
      exact hfresh c (by simp [he]) x hputs
    · intro pre' c' post' he'
      rw [← after_cons, ← after_append]
      exact h (pre ++ c :: pre') c' (post' ++ post) (by simp [he, he'])
  refine ⟨fun pre c post x he hputs => ?_, fun pre c mid post x i he hputs hid =>
    (hkept pre c mid post x i he hputs hid).2, fun pre c mid c' post x x' i he hputs hputs' hid hid' => ?_⟩
  · have htakes := h pre c post he
    unfold Takes at htakes
    simp only [hputs] at htakes
    cases htakes with
    | inl hfull => exact ⟨fun _ => hfull.2, fun hn => absurd hfull.1 hn⟩
    | inr htaken =>
        obtain ⟨i, hi, hfree, hid, -⟩ := htaken
        exact ⟨fun hfull => absurd hfree (hfull i hi), fun _ => ⟨i, hi, hid⟩⟩
  · -- the entry of the first id is in use, and the second one was free
    have hx := (hkept pre c mid (c' :: post) x i he hputs hid).2
    have hfree := ((h (pre ++ c :: mid) c' post (by simp [he])).taken hputs' hid').2.1
    rw [hx] at hfree
    exact hfresh c (by simp [he]) x hputs hfree

/-! ## counting -/

open Classical in
/-- The entries that are in use. -/
noncomputable def used (T : Table σ κ α) (s : σ) : Finset Nat :=
  {i ∈ Finset.range T.size | ¬ T.free (T.entry s i)}

theorem mem_used : i ∈ T.used s ↔ i < T.size ∧ ¬ T.free (T.entry s i) := by
  simp [used]

/-- Every call changes one entry at most, and only those do that put something there. -/
def OneEach (T : Table σ κ α) : Prop :=
  ∀ s c, ∃ i, ∀ j < T.size, j ≠ i ∨ T.puts c = none → T.entry (T.step s c).2 j = T.entry s j

/-- Entries in use, by the calls that put something there. -/
theorem card_used_after (h : T.OneEach) (s : σ) (cs : List κ) :
    (T.used (T.after s cs)).card ≤ (T.used s).card + (cs.filterMap T.puts).length := by
  induction cs generalizing s with
  | nil => simp [after]
  | cons c cs ih =>
      have hrest := ih (T.step s c).2
      obtain ⟨i, hi⟩ := h s c
      rw [after_cons]
      cases hputs : T.puts c with
      | none =>
          have hused : T.used (T.step s c).2 = T.used s := by
            ext j
            rw [mem_used, mem_used]
            exact and_congr_right fun hj => by rw [hi j hj (.inr hputs)]
          rw [List.filterMap_cons_none hputs, ← hused]
          exact hrest
      | some x =>
          have hused : T.used (T.step s c).2 ⊆ insert i (T.used s) := by
            intro j hj
            rw [mem_used] at hj
            rw [Finset.mem_insert, mem_used]
            by_cases hji : j = i
            · exact .inl hji
            · rw [hi j hj.1 (.inl hji)] at hj
              exact .inr hj
          have hcard := (Finset.card_le_card hused).trans (Finset.card_insert_le i _)
          rw [List.filterMap_cons_some hputs, List.length_cons]
          omega

/-- A table that was empty is full only after as many calls as it has entries. -/
theorem size_le_of_full (h : T.OneEach) (hs : ∀ i < T.size, T.free (T.entry s i))
    (hfull : T.Full (T.after s cs)) : T.size ≤ (cs.filterMap T.puts).length := by
  have hnone : T.used s = ∅ := by
    ext i
    simpa [mem_used] using hs i
  have hall : T.used (T.after s cs) = Finset.range T.size := by
    ext i
    simpa [mem_used] using hfull i
  simpa [hnone, hall] using card_used_after h s cs

end Table

end Slots
