import RpiKernel.Console.Numbers
import RpiKernel.Interrupt.AsyncUart
import Mathlib.Data.List.GetD
import Mathlib.Data.List.TakeWhile

/-!
# RpiKernel.Console.Vsprintf

Formatted output: `vsprintf`, and the loops of `uart_sendline` and `uart_puts` over what it
left in their buffer.

The length is looked at in front of every format item, and what an item prints has no bound; when the
length is too much, `vsprintf` returns without ending the string.  So what matters is how long
the texts of the items are, one after the other (`vsprintf_inside_iff`).
-/

namespace RpiKernel.Console

/-- An argument: the 64 bits that hold a number, or a string, where `none` is `NULL`. -/
inductive PrintArg
  | num (v : BitVec 64)
  | str (p : Option (List Char))

/-! ## the code -/

/-- In the main loop: what was stored from `orig` to `dst`, one after the other, and the indices
of `tmpstr` that were stored to. -/
structure Printing where
  dst : List Char
  tmpstr : List Int

/-- What `vsprintf` returns, and what it stored. -/
structure Printed where
  ret : BitVec 32
  dst : List Char
  tmpstr : List Int
  deriving DecidableEq

namespace Printing

/-- `*dst++ = c`. -/
def put (c : Char) (s : Printing) : Printing := { s with dst := s.dst ++ [c] }

/-- `copystring`. -/
def copystring (p : Option (List Char)) (s : Printing) : Printing :=
  { s with dst := s.dst ++ (p.getD "(null)".toList).takeWhile (· ≠ nul) }

/-- `copystring` of what is in `tmpstr`. -/
def copyTmpstr (t : Tmpstr) (s : Printing) : Printing :=
  copystring (some t.string) { s with tmpstr := s.tmpstr ++ t.stored }

end Printing

/-- The loop over the size modifier, in an `int`. -/
def sizeModifier (len : Int) : List Char → Int × List Char
  | [] => (len, [])
  | c :: fmt =>
      if '0' ≤ c ∧ c ≤ '9' then
        sizeModifier (((len * 10).bmod (2 ^ 32) + ((c.toNat : Int) - 0x30)).bmod (2 ^ 32)) fmt
      else (len, c :: fmt)

/-- Behind a `%`: the width, the character that says what to print, and what is behind it. -/
def directive (fmt : List Char) : Option (Int × Char × List Char) :=
  let (len, fmt) := sizeModifier 0 fmt
  match if fmt.head? = some 'l' then fmt.tail else fmt with
  | [] => none
  | c :: fmt => some (len, c, fmt)

/-- `__builtin_va_arg` of a number. -/
def vaNum : List PrintArg → Option (BitVec 64 × List PrintArg)
  | .num v :: args => some (v, args)
  | _ => none

/-- `__builtin_va_arg` of a `char*`. -/
def vaStr : List PrintArg → Option (Option (List Char) × List PrintArg)
  | .str p :: args => some (p, args)
  | _ => none

/-- The conversions: the arguments that are left.  Any other character is left out. -/
def convert (len : Int) (c : Char) (args : List PrintArg) (s : Printing) :
    Option (Printing × List PrintArg) :=
  if c = 'c' then (vaNum args).map fun (v, args) => (s.put (Char.ofNat (v.toNat % 0x100)), args)
  else if c = 'd' then (vaNum args).map fun (v, args) => (s.copyTmpstr (decimalString len (v.setWidth 32)), args)
  else if c = 'x' then (vaNum args).map fun (v, args) => (s.copyTmpstr (hexString len v), args)
  else if c = 's' then (vaStr args).map fun (p, args) => (s.copystring p, args)
  else some (s, args)

/-- The main loop of `vsprintf`, over memory from `fmt` on. -/
def vsprintfLoop : Nat → List Char → List PrintArg → Printing → Option Printed
  | 0, _, _, _ => none
  | _ + 1, [], _, _ => none
  | n + 1, c :: fmt, args, s =>
      if c = nul then some ⟨BitVec.ofNat 32 s.dst.length, s.dst ++ [nul], s.tmpstr⟩
      else if s.dst.length > vsprintMaxBufSize - 0x10 then some ⟨-1, s.dst, s.tmpstr⟩
      else if c ≠ '%' then vsprintfLoop n fmt args (s.put c)
      else if fmt.head? = some '%' then vsprintfLoop n fmt.tail args (s.put '%')
      else
        match directive fmt with
        | none => none
        | some (len, c, fmt) =>
            match convert len c args s with
            | none => none
            | some (s, args) => vsprintfLoop n fmt args s

/-- `vsprintf`, where `none` as `dst` or `fmt` is `NULL`. -/
def vsprintf (dst : Option (Nat → Char)) (fmt : Option (List Char)) (args : List PrintArg) : Option Printed :=
  match dst, fmt with
  | some _, some fmt => vsprintfLoop (fmt.length + 1) fmt args ⟨[], []⟩
  | _, _ => some ⟨0, [], []⟩

/-- A buffer that `vsprintf` stored to. -/
def Printed.buffer (p : Printed) (buf : Nat → Char) : Nat → Char := fun i => p.dst.getD i (buf i)

/-- The loop that sends a string: the characters sent.  The bound is one of the characters that
are read. -/
def outputLoop (buf : Nat → Char) : Nat → Nat → List Char → Option (List Char)
  | 0, _, _ => none
  | n + 1, str, sent =>
      if buf str = nul then some sent
      else outputLoop buf n (str + 1) (sent ++ if buf str = '\n' then ['\r', '\n'] else [buf str])

/-- `vsprintf` into `buf`, and the loop that sends it. -/
def uartOutput (n : Nat) (fmt : List Char) (args : List PrintArg) (buf : Nat → Char) :
    Option (Int × List Char) :=
  match vsprintf (some buf) (some fmt) args with
  | none => none
  | some p => (outputLoop (p.buffer buf) n 0 []).map fun sent => (p.ret.toInt, sent)

/-- `uart_sendline`, which sends with `uart_send`. -/
def uartSendline (n : Nat) (fmt : List Char) (args : List PrintArg) (buf : Nat → Char) :
    Option (Int × List Char) :=
  uartOutput n fmt args buf

/-- `uart_puts`, which sends with `uart_async_putc`. -/
def uartPuts (n : Nat) (fmt : List Char) (args : List PrintArg) (buf : Nat → Char) :
    Option (Int × List Char) :=
  uartOutput n fmt args buf

/-! ## format strings -/

/-- An item of a format string: a character, or a conversion with its width. -/
inductive FormatItem
  | lit (c : Char)
  | conv (len : Int) (c : Char)

/-- The items of a format string in memory, up to what ends it. -/
inductive Reads : List Char → List FormatItem → Prop
  | ended (behind : List Char) : Reads (nul :: behind) []
  | lit {c : Char} {fmt : List Char} {items : List FormatItem} : c ≠ nul → c ≠ '%' → Reads fmt items →
      Reads (c :: fmt) (.lit c :: items)
  | percent {fmt : List Char} {items : List FormatItem} : Reads fmt items →
      Reads ('%' :: '%' :: fmt) (.lit '%' :: items)
  | conv {len : Int} {c : Char} {fmt rest : List Char} {items : List FormatItem} : fmt.head? ≠ some '%' →
      directive fmt = some (len, c, rest) → Reads rest items → Reads ('%' :: fmt) (.conv len c :: items)

/-- A string that is printed. -/
def stringText (p : Option (List Char)) : List Char := (p.getD "(null)".toList).takeWhile (· ≠ nul)

/-- What an item prints, and the arguments that it leaves; the argument has to be of its kind. -/
def FormatItem.text : FormatItem → List PrintArg → Option (List Char × List PrintArg)
  | .lit c, args => some ([c], args)
  | .conv len c, args =>
      if c = 'c' then (vaNum args).map fun (v, args) => ([Char.ofNat (v.toNat % 0x100)], args)
      else if c = 'd' then (vaNum args).map fun (v, args) => (decimalText len (v.setWidth 32).toInt, args)
      else if c = 'x' then (vaNum args).map fun (v, args) => (hexText len v.toNat, args)
      else if c = 's' then (vaStr args).map fun (p, args) => (stringText p, args)
      else some ([], args)

/-- What the items print, one after the other. -/
def itemTexts : List FormatItem → List PrintArg → Option (List (List Char))
  | [], _ => some []
  | item :: items, args =>
      match item.text args with
      | none => none
      | some (text, args) => (itemTexts items args).map (text :: ·)

/-- The arguments match the format string, whose items print `texts`. -/
def Matches (fmt : List Char) (args : List PrintArg) (texts : List (List Char)) : Prop :=
  ∃ items, Reads fmt items ∧ itemTexts items args = some texts

/-- How many characters the first `k` items print. -/
def printedLength (texts : List (List Char)) (k : Nat) : Nat := (texts.take k).flatten.length

/-- `vsprintf` returns, having stored inside of its buffer and of `tmpstr` only, and the buffer has what
ends a string, which the loops of `uart_sendline` and `uart_puts` come to. -/
def PrintsInside (fmt : List Char) (args : List PrintArg) (buf : Nat → Char) : Prop :=
  ∃ p, vsprintf (some buf) (some fmt) args = some p ∧
    (∀ i < p.dst.length, i < vsprintMaxBufSize) ∧ (∀ i ∈ p.tmpstr, 0 ≤ i ∧ i < 19) ∧
    (∃ i < vsprintMaxBufSize, p.buffer buf i = nul) ∧
    (uartSendline vsprintMaxBufSize fmt args buf).isSome ∧ (uartPuts vsprintMaxBufSize fmt args buf).isSome

/-- Either no item but the last goes beyond 240 characters and there is room for the NUL, or the text fits
that is there when the length is found to be too much, and it has a NUL in it or the
buffer has one behind it. -/
def FitsBuffer (texts : List (List Char)) (buf : Nat → Char) : Prop :=
  (∀ k < texts.length, printedLength texts k ≤ 240) ∧ printedLength texts texts.length < 256 ∨
    ∃ k < texts.length, (∀ j < k, printedLength texts j ≤ 240) ∧ 240 < printedLength texts k ∧
      printedLength texts k ≤ 256 ∧
      (nul ∈ (texts.take k).flatten ∨ ∃ i, printedLength texts k ≤ i ∧ i < 256 ∧ buf i = nul)

/-! ## one item -/

variable {s : Printing} {len : Int} {c : Char} {args args' : List PrintArg} {text fmt : List Char}
  {texts : List (List Char)} {items : List FormatItem} {buf : Nat → Char}

/-- Indices of `tmpstr`. -/
def InTmpstr (stored : List Int) : Prop := ∀ i ∈ stored, 0 ≤ i ∧ i < 19

theorem InTmpstr.append {stored stored' : List Int} (h : InTmpstr stored) (h' : InTmpstr stored') :
    InTmpstr (stored ++ stored') := List.forall_mem_append.2 ⟨h, h'⟩

/-- A number is copied as a whole. -/
theorem Printing.copyTmpstr_eq {t : Tmpstr} {start : Int} (h : t.At start text) (hnul : nul ∉ text) :
    s.copyTmpstr t = ⟨s.dst ++ text, s.tmpstr ++ t.stored⟩ := by
  have hall : text.takeWhile (· ≠ nul) = text := by
    rw [List.takeWhile_eq_self_iff]
    intro c hc
    simpa using ne_of_mem_of_not_mem hc hnul
  unfold copyTmpstr copystring
  rw [h.string, Option.getD_some, hall]

/-- Where a number is put together. -/
theorem Tmpstr.At.inTmpstr {t : Tmpstr} {start : Int} (h : t.At start text) (hlen : text.length ≤ start)
    (hstart : start ≤ 18) : InTmpstr t.stored := by
  intro i hi
  have hstored := h.stored i hi
  have hfront := h.i
  omega

/-- A number is printed as its text. -/
theorem copyTmpstr_text {t : Tmpstr} {start : Nat} (h : t.At start text ∧ text.length ≤ start)
    (hstart : start ≤ 18) (hnul : nul ∉ text) :
    ∃ stored, s.copyTmpstr t = ⟨s.dst ++ text, s.tmpstr ++ stored⟩ ∧ InTmpstr stored :=
  ⟨t.stored, Printing.copyTmpstr_eq h.1 hnul, h.1.inTmpstr (by omega) (by omega)⟩

/-- A conversion prints its text, and stores nothing outside of `tmpstr`. -/
theorem convert_text (h : (FormatItem.conv len c).text args = some (text, args')) :
    ∃ stored, convert len c args s = some (⟨s.dst ++ text, s.tmpstr ++ stored⟩, args') ∧ InTmpstr stored := by
  have hnone : InTmpstr [] := by simp [InTmpstr]
  simp only [FormatItem.text] at h
  unfold convert
  split_ifs at h ⊢
  · obtain ⟨⟨v, args⟩, hv, he⟩ := Option.map_eq_some_iff.1 h
    cases he
    exact ⟨[], by simp [hv, Printing.put], hnone⟩
  · obtain ⟨⟨v, args⟩, hv, he⟩ := Option.map_eq_some_iff.1 h
    cases he
    obtain ⟨stored, hcopy, hin⟩ := copyTmpstr_text (s := s) (decimalString_at len (v.setWidth 32)) le_rfl
      (nul_notMem_decimalText _ _)
    exact ⟨stored, by simp [hv, hcopy], hin⟩
  · obtain ⟨⟨v, args⟩, hv, he⟩ := Option.map_eq_some_iff.1 h
    cases he
    obtain ⟨stored, hcopy, hin⟩ := copyTmpstr_text (s := s) (hexString_at len v) (show 16 ≤ 18 by decide)
      (nul_notMem_hexText _ _)
    exact ⟨stored, by simp [hv, hcopy], hin⟩
  · obtain ⟨⟨p, args⟩, hp, he⟩ := Option.map_eq_some_iff.1 h
    cases he
    exact ⟨[], by simp [hp, Printing.copystring, stringText], hnone⟩
  · cases h
    exact ⟨[], by simp, hnone⟩

/-! ## the main loop -/

theorem length_sizeModifier (len : Int) (fmt : List Char) : (sizeModifier len fmt).2.length ≤ fmt.length := by
  fun_induction sizeModifier len fmt <;> grind

/-- A conversion has at least the character that names it. -/
theorem length_directive {rest : List Char} (h : directive fmt = some (len, c, rest)) :
    rest.length < fmt.length := by
  have hle := length_sizeModifier 0 fmt
  unfold directive at h
  grind [List.length_tail]

/-- The size modifier of a string is over before its end. -/
theorem sizeModifier_append (len : Int) (fmt behind : List Char) :
    ∃ fmt', (sizeModifier len (fmt ++ nul :: behind)).2 = fmt' ++ nul :: behind ∧ fmt'.length ≤ fmt.length := by
  induction fmt generalizing len with
  | nil => exact ⟨[], by simp [sizeModifier, nul], le_rfl⟩
  | cons c fmt ih =>
      rw [List.cons_append, sizeModifier]
      split
      · obtain ⟨fmt', hrest, hle⟩ := ih (((len * 10).bmod (2 ^ 32) + ((c.toNat : Int) - 0x30)).bmod (2 ^ 32))
        exact ⟨fmt', hrest, Nat.le_succ_of_le hle⟩
      · exact ⟨c :: fmt, rfl, le_rfl⟩

/-- A conversion ends inside of its string or, where the string ends in it, right behind its NUL. -/
theorem directive_append (fmt behind : List Char) :
    ∃ len c rest, directive (fmt ++ nul :: behind) = some (len, c, rest) ∧
      (rest = behind ∨ ∃ fmt', rest = fmt' ++ nul :: behind ∧ fmt'.length < fmt.length) := by
  obtain ⟨fmt', hsize, hle⟩ := sizeModifier_append 0 fmt behind
  obtain ⟨len, hpair⟩ : ∃ len, sizeModifier 0 (fmt ++ nul :: behind) = (len, fmt' ++ nul :: behind) :=
    ⟨_, Prod.ext rfl hsize⟩
  have hnul : nul ≠ 'l' := by decide
  unfold directive
  rw [hpair]
  cases fmt' with
  | nil => exact ⟨len, nul, behind, by simp [hnul], .inl rfl⟩
  | cons c fmt' =>
      by_cases hc : c = 'l'
      · cases fmt' with
        | nil => exact ⟨len, nul, behind, by simp [hc], .inl rfl⟩
        | cons d fmt' =>
            exact ⟨len, d, fmt' ++ nul :: behind, by simp [hc], .inr ⟨fmt', rfl, Nat.lt_of_succ_lt hle⟩⟩
      · exact ⟨len, c, fmt' ++ nul :: behind, by simp [hc], .inr ⟨fmt', rfl, hle⟩⟩

/-- Every string of characters is a format string, when there is one more NUL behind it: the one that a
conversion without a character would take. -/
theorem exists_reads (fmt : List Char) : ∃ items, Reads (fmt ++ [nul, nul]) items := by
  induction hn : fmt.length using Nat.strongRecOn generalizing fmt with
  | ind n ih =>
      cases fmt with
      | nil => exact ⟨[], .ended [nul]⟩
      | cons c fmt =>
          rw [List.length_cons] at hn
          by_cases hnul : c = nul
          · exact ⟨[], hnul ▸ .ended _⟩
          by_cases hpercent : c = '%'
          · subst hpercent
            by_cases hhead : (fmt ++ [nul, nul]).head? = some '%'
            · cases fmt with
              | nil => exact absurd hhead (by decide)
              | cons d fmt =>
                  rw [List.length_cons] at hn
                  obtain ⟨items, hitems⟩ := ih fmt.length (by omega) fmt rfl
                  obtain rfl : d = '%' := by simpa using hhead
                  exact ⟨_, .percent hitems⟩
            · obtain ⟨len, d, rest, hdir, hrest⟩ := directive_append fmt [nul]
              have hreads : ∃ items, Reads rest items := by
                cases hrest with
                | inl hend => exact ⟨[], hend ▸ .ended []⟩
                | inr hmore =>
                    obtain ⟨fmt', rfl, hlt⟩ := hmore
                    exact ih fmt'.length (by omega) fmt' rfl
              obtain ⟨items, hitems⟩ := hreads
              exact ⟨_, .conv hhead hdir hitems⟩
          · obtain ⟨items, hitems⟩ := ih fmt.length (by omega) fmt rfl
            exact ⟨_, .lit hnul hpercent hitems⟩

/-- What is stored when the length is looked at in front of every item, and whether all of it is. -/
def printedTexts : List (List Char) → List Char → List Char × Bool
  | [], dst => (dst, true)
  | text :: texts, dst => if dst.length > 240 then (dst, false) else printedTexts texts (dst ++ text)

/-- What `vsprintf` makes of it. -/
def printed (r : List Char × Bool) (tmpstr : List Int) : Printed :=
  if r.2 then ⟨BitVec.ofNat 32 r.1.length, r.1 ++ [nul], tmpstr⟩ else ⟨-1, r.1, tmpstr⟩

/-- The first of the texts, when the length is not too much yet. -/
theorem printedTexts_cons (text : List Char) (texts : List (List Char)) (dst : List Char) :
    printedTexts (text :: texts) dst =
      if dst.length > 240 then (dst, false) else printedTexts texts (dst ++ text) := rfl

/-- The texts of the items behind the first. -/
theorem itemTexts_cons {item : FormatItem} (h : itemTexts (item :: items) args = some texts) :
    ∃ text args' texts', item.text args = some (text, args') ∧ itemTexts items args' = some texts' ∧
      texts = text :: texts' := by
  unfold itemTexts at h
  cases htext : item.text args with
  | none => simp [htext] at h
  | some r =>
      obtain ⟨text, args'⟩ := r
      simp only [htext, Option.map_eq_some_iff] at h
      obtain ⟨texts', hrest, he⟩ := h
      exact ⟨text, args', texts', rfl, hrest, he.symm⟩

/-- One round of the main loop. -/
theorem vsprintfLoop_cons (hc : c ≠ nul) (n : Nat) (fmt : List Char) (args : List PrintArg) (s : Printing) :
    vsprintfLoop (n + 1) (c :: fmt) args s =
      if s.dst.length > 240 then some ⟨-1, s.dst, s.tmpstr⟩
      else if c ≠ '%' then vsprintfLoop n fmt args (s.put c)
      else if fmt.head? = some '%' then vsprintfLoop n fmt.tail args (s.put '%')
      else
        match directive fmt with
        | none => none
        | some (len, c, fmt) =>
            match convert len c args s with
            | none => none
            | some (s, args) => vsprintfLoop n fmt args s := by
  conv_lhs => unfold vsprintfLoop
  rw [if_neg hc]
  rfl

/-- The main loop prints the texts of the items. -/
theorem vsprintfLoop_prints (hr : Reads fmt items) (ht : itemTexts items args = some texts) {n : Nat}
    (hn : fmt.length ≤ n) (hs : InTmpstr s.tmpstr) :
    ∃ tmpstr, vsprintfLoop (n + 1) fmt args s = some (printed (printedTexts texts s.dst) tmpstr) ∧
      InTmpstr tmpstr := by
  induction hr generalizing args texts n s with
  | ended behind =>
      obtain rfl := Option.some.inj ht
      exact ⟨s.tmpstr, by simp [vsprintfLoop, printedTexts, printed], hs⟩
  | lit hnul hpercent hr ih =>
      obtain ⟨n, rfl⟩ := Nat.exists_eq_add_one_of_ne_zero (Nat.ne_zero_of_lt hn)
      obtain ⟨text, args', texts, htext, hrest, rfl⟩ := itemTexts_cons ht
      cases htext
      rw [vsprintfLoop_cons hnul, printedTexts_cons]
      by_cases hlong : s.dst.length > 240
      · simp only [if_pos hlong]
        exact ⟨s.tmpstr, rfl, hs⟩
      · simp only [if_neg hlong, if_pos hpercent]
        exact ih hrest (Nat.le_of_succ_le_succ hn) hs
  | percent hr ih =>
      obtain ⟨n, rfl⟩ := Nat.exists_eq_add_one_of_ne_zero (Nat.ne_zero_of_lt hn)
      obtain ⟨text, args', texts, htext, hrest, rfl⟩ := itemTexts_cons ht
      cases htext
      rw [vsprintfLoop_cons (by decide), printedTexts_cons]
      by_cases hlong : s.dst.length > 240
      · simp only [if_pos hlong]
        exact ⟨s.tmpstr, rfl, hs⟩
      · simp only [if_neg hlong, ne_eq, not_true, if_false, List.head?_cons, if_true, List.tail_cons]
        refine ih hrest ?_ hs
        rw [List.length_cons, List.length_cons] at hn
        omega
  | conv hhead hdir hr ih =>
      obtain ⟨n, rfl⟩ := Nat.exists_eq_add_one_of_ne_zero (Nat.ne_zero_of_lt hn)
      obtain ⟨text, args', texts, htext, hrest, rfl⟩ := itemTexts_cons ht
      obtain ⟨stored, hconvert, hstored⟩ := convert_text (s := s) htext
      rw [vsprintfLoop_cons (by decide), printedTexts_cons]
      by_cases hlong : s.dst.length > 240
      · simp only [if_pos hlong]
        exact ⟨s.tmpstr, rfl, hs⟩
      · simp only [if_neg hlong, ne_eq, not_true, if_false, hhead, hdir, hconvert]
        have hlt := length_directive hdir
        refine ih (s := ⟨s.dst ++ text, s.tmpstr ++ stored⟩) hrest ?_ (hs.append hstored)
        rw [List.length_cons] at hn
        omega

/-! ## where the texts end -/

theorem printedLength_succ (text : List Char) (texts : List (List Char)) (k : Nat) :
    printedLength (text :: texts) (k + 1) = text.length + printedLength texts k := by
  simp [printedLength]

/-- Either every item is printed, or it stops at the first that finds too much. -/
theorem printedTexts_cases (texts : List (List Char)) (dst : List Char) :
    (∀ k < texts.length, dst.length + printedLength texts k ≤ 240) ∧
      printedTexts texts dst = (dst ++ texts.flatten, true) ∨
    ∃ k < texts.length, (∀ j < k, dst.length + printedLength texts j ≤ 240) ∧
      240 < dst.length + printedLength texts k ∧
      printedTexts texts dst = (dst ++ (texts.take k).flatten, false) := by
  induction texts generalizing dst with
  | nil => exact .inl ⟨by simp, by simp [printedTexts]⟩
  | cons text texts ih =>
      rw [printedTexts_cons]
      by_cases hlong : dst.length > 240
      · exact .inr ⟨0, by simp, by simp, by simpa [printedLength] using hlong, by simp [hlong]⟩
      · have hlater : ∀ k, dst.length + printedLength (text :: texts) (k + 1) =
            (dst ++ text).length + printedLength texts k := by
          intro k
          rw [printedLength_succ, List.length_append, Nat.add_assoc]
        have hfront : ∀ n, (∀ j < n, (dst ++ text).length + printedLength texts j ≤ 240) →
            ∀ j < n + 1, dst.length + printedLength (text :: texts) j ≤ 240 := by
          intro n hn j hj
          cases j with
          | zero => simpa [printedLength] using hlong
          | succ j => exact hlater j ▸ hn j (Nat.lt_of_succ_lt_succ hj)
        rw [if_neg hlong]
        cases ih (dst ++ text) with
        | inl hall => exact .inl ⟨hfront _ hall.1, by simp [hall.2]⟩
        | inr hstop =>
            obtain ⟨k, hk, hbefore, hat, hprinted⟩ := hstop
            exact .inr ⟨k + 1, Nat.succ_lt_succ hk, hfront k hbefore, hlater k ▸ hat, by simp [hprinted]⟩

/-! ## what is sent -/

/-- The loop comes to an end just when it comes to what ends a string. -/
theorem outputLoop_isSome (buf : Nat → Char) (n str : Nat) (sent : List Char) :
    (outputLoop buf n str sent).isSome ↔ ∃ i, str ≤ i ∧ i < str + n ∧ buf i = nul := by
  induction n generalizing str sent with
  | zero =>
      simp only [outputLoop, Option.isSome_none, Bool.false_eq_true, false_iff, not_exists]
      omega
  | succ n ih =>
      unfold outputLoop
      by_cases hstr : buf str = nul
      · rw [if_pos hstr]
        exact iff_of_true rfl ⟨str, le_rfl, by omega, hstr⟩
      · rw [if_neg hstr, ih]
        refine exists_congr fun i => ?_
        by_cases hi : i = str
        · simp [hi, hstr]
        · exact ⟨fun h => ⟨by omega, by omega, h.2.2⟩, fun h => ⟨by omega, by omega, h.2.2⟩⟩

/-! ## inside of the buffer -/

/-- `vsprintf` prints the texts of a format string that the arguments match. -/
theorem Matches.vsprintf (h : Matches fmt args texts) (buf : Nat → Char) :
    ∃ tmpstr, vsprintf (some buf) (some fmt) args = some (printed (printedTexts texts []) tmpstr) ∧
      InTmpstr tmpstr := by
  obtain ⟨items, hreads, htexts⟩ := h
  exact vsprintfLoop_prints (s := ⟨[], []⟩) hreads htexts le_rfl (by simp [InTmpstr])

/-- What has to be known of the string that is stored. -/
theorem Matches.printsInside_iff (h : Matches fmt args texts) :
    PrintsInside fmt args buf ↔ (printed (printedTexts texts []) []).dst.length ≤ 256 ∧
      ∃ i < 256, (printed (printedTexts texts []) []).dst.getD i (buf i) = nul := by
  obtain ⟨tmpstr, hprinted, hin⟩ := h.vsprintf buf
  have hdst : (printed (printedTexts texts []) tmpstr).dst = (printed (printedTexts texts []) []).dst := by
    unfold printed
    split <;> rfl
  have htmpstr : (printed (printedTexts texts []) tmpstr).tmpstr = tmpstr := by
    unfold printed
    split <;> rfl
  have hsends : (uartOutput vsprintMaxBufSize fmt args buf).isSome ↔
      ∃ i < 256, (printed (printedTexts texts []) []).dst.getD i (buf i) = nul := by
    simp only [uartOutput, hprinted, Option.isSome_map, outputLoop_isSome, Printed.buffer, hdst]
    simp [vsprintMaxBufSize]
  have hle : (∀ i < (printed (printedTexts texts []) []).dst.length, i < vsprintMaxBufSize) ↔
      (printed (printedTexts texts []) []).dst.length ≤ 256 :=
    ⟨fun hall => by_contra fun hlt => absurd (hall 256 (by omega)) (by decide),
      fun hle i hi => Nat.lt_of_lt_of_le hi hle⟩
  unfold PrintsInside uartSendline uartPuts
  simp only [hprinted, Option.some.injEq, exists_eq_left', hdst, htmpstr, hle, Printed.buffer, hsends]
  exact ⟨fun hall => ⟨hall.1, hall.2.2.1⟩, fun hall => ⟨hall.1, hin, hall.2, hall.2, hall.2⟩⟩

/-- A buffer behind the first characters of which other things may be. -/
theorem exists_nul_iff {dst : List Char} (hlen : dst.length ≤ 256) :
    (∃ i < 256, dst.getD i (buf i) = nul) ↔ nul ∈ dst ∨ ∃ i, dst.length ≤ i ∧ i < 256 ∧ buf i = nul := by
  constructor
  · intro h
    obtain ⟨i, hi, hnul⟩ := h
    rcases Nat.lt_or_ge i dst.length with hlt | hge
    · rw [List.getD_eq_getElem _ _ hlt] at hnul
      exact .inl (hnul ▸ List.getElem_mem hlt)
    · rw [List.getD_eq_default _ _ hge] at hnul
      exact .inr ⟨i, hge, hi, hnul⟩
  · intro h
    cases h with
    | inl hmem =>
        obtain ⟨i, hi, hnul⟩ := List.getElem_of_mem hmem
        exact ⟨i, by omega, by rw [List.getD_eq_getElem _ _ hi, hnul]⟩
    | inr hbehind =>
        obtain ⟨i, hge, hi, hnul⟩ := hbehind
        exact ⟨i, hi, by rw [List.getD_eq_default _ _ hge, hnul]⟩

/-- **Formatted output.**  When the arguments match the format string, `vsprintf` and the loops over its
buffer stay inside, and the string has an end, if and only if the texts of the items fit the
buffer. -/
theorem vsprintf_inside_iff (h : Matches fmt args texts) (buf : Nat → Char) :
    PrintsInside fmt args buf ↔ FitsBuffer texts buf := by
  rw [h.printsInside_iff]
  unfold FitsBuffer
  have hall : printedLength texts texts.length = texts.flatten.length := by
    rw [printedLength, List.take_length]
  cases printedTexts_cases texts [] with
  | inl hprinted =>
      obtain ⟨hbefore, hprinted⟩ := hprinted
      simp only [List.length_nil, Nat.zero_add, List.nil_append] at hbefore hprinted
      have hnot : ¬ ∃ k < texts.length, (∀ j < k, printedLength texts j ≤ 240) ∧ 240 < printedLength texts k ∧
          printedLength texts k ≤ 256 ∧
          (nul ∈ (texts.take k).flatten ∨ ∃ i, printedLength texts k ≤ i ∧ i < 256 ∧ buf i = nul) := by
        intro h
        obtain ⟨k, hk, -, hat, -⟩ := h
        exact absurd (hbefore k hk) (Nat.not_le.2 hat)
      rw [or_iff_left hnot, and_iff_right hbefore, hprinted, hall]
      simp only [printed, if_true, List.length_append, List.length_singleton]
      refine ⟨fun h => h.1, fun hlt => ⟨hlt, texts.flatten.length, hlt, ?_⟩⟩
      rw [List.getD_eq_getElem _ _ (by simp)]
      simp
  | inr hstop =>
      obtain ⟨k, hk, hbefore, hat, hprinted⟩ := hstop
      simp only [List.length_nil, Nat.zero_add, List.nil_append] at hbefore hat hprinted
      rw [hprinted]
      simp only [printed, Bool.false_eq_true, if_false]
      constructor
      · intro h
        obtain ⟨hlen, hnul⟩ := h
        exact .inr ⟨k, hk, hbefore, hat, hlen, (exists_nul_iff hlen).1 hnul⟩
      · intro h
        cases h with
        | inl hfits => exact absurd (hfits.1 k hk) (Nat.not_le.2 hat)
        | inr hstop =>
            obtain ⟨k', hk', hbefore', hat', hlen, hnul⟩ := hstop
            obtain rfl : k' = k := by
              rcases Nat.lt_trichotomy k' k with hlt | heq | hgt
              · exact absurd (hbefore k' hlt) (Nat.not_le.2 hat')
              · exact heq
              · exact absurd (hbefore' k hgt) (Nat.not_le.2 hat)
            exact ⟨hlen, (exists_nul_iff hlen).2 hnul⟩

/-- A number and a string. -/
theorem vsprintf_inside_number :
    PrintsInside ['%', '3', 'd', ' ', '%', 's', nul] [.num 7, .str (some ['b'])] fun _ => 'x' := by
  have hreads : Reads ['%', '3', 'd', ' ', '%', 's', nul] [.conv 3 'd', .lit ' ', .conv 0 's'] :=
    .conv (by decide) rfl (.lit (by decide) (by decide) (.conv (by decide) rfl (.ended [])))
  have htexts : itemTexts [.conv 3 'd', .lit ' ', .conv 0 's'] [.num 7, .str (some ['b'])] =
      some [[' ', ' ', '7'], [' '], ['b']] := by decide +kernel
  exact (vsprintf_inside_iff ⟨_, hreads, htexts⟩ _).2 (.inl ⟨by decide, by decide⟩)

/-- **A string of 256 characters** is stored as a whole, and its NUL goes behind the buffer; after 241
characters, with something left to print, there is no NUL at all. -/
theorem vsprintf_overrun :
    vsprintf (some fun _ => 'x') (some ['%', 's', nul]) [.str (some (List.replicate 256 'a'))] =
        some ⟨256, List.replicate 256 'a' ++ [nul], []⟩ ∧
      ¬ PrintsInside ['%', 's', nul] [.str (some (List.replicate 256 'a'))] (fun _ => 'x') ∧
      vsprintf (some fun _ => 'x') (some (List.replicate 242 'a' ++ [nul])) [] =
        some ⟨-1, List.replicate 241 'a', []⟩ ∧
      ¬ PrintsInside (List.replicate 242 'a' ++ [nul]) [] fun _ => 'x' := by
  have hstring : vsprintf (some fun _ => 'x') (some ['%', 's', nul]) [.str (some (List.replicate 256 'a'))] =
      some ⟨256, List.replicate 256 'a' ++ [nul], []⟩ := by decide +kernel
  have hlong : vsprintf (some fun _ => 'x') (some (List.replicate 242 'a' ++ [nul])) [] =
      some ⟨-1, List.replicate 241 'a', []⟩ := by decide +kernel
  refine ⟨hstring, fun h => ?_, hlong, fun h => ?_⟩
  · obtain ⟨p, hp, hdst, -⟩ := h
    obtain rfl := Option.some.inj (hstring.symm.trans hp)
    refine absurd (hdst 256 ?_) (by decide)
    rw [List.length_append, List.length_replicate]
    exact Nat.lt_succ_self 256
  · obtain ⟨p, hp, -, -, hnul, -⟩ := h
    obtain rfl := Option.some.inj (hlong.symm.trans hp)
    have hlen : (List.replicate 241 'a').length ≤ 256 := by
      rw [List.length_replicate]
      omega
    cases (exists_nul_iff hlen).1 hnul with
    | inl hmem => exact absurd (List.eq_of_mem_replicate hmem) (by decide)
    | inr hbehind =>
        obtain ⟨i, -, -, hi⟩ := hbehind
        exact absurd hi (by decide)

end RpiKernel.Console
