import Mathlib.Tactic.SplitIfs
import WasiPorts.Lib.Text

/-!
# Quoted strings

`sdscatrepr` prints a string in quotes, `sdssplitargs` splits a line into arguments and removes the
quotes (`sds.c`). The lines of the AOF manifest are written and read this way.

* `sdssplitargs_quoted` — quoted arguments, printed behind each other, are split back.
* `splitLoop_bare` — an argument that needs no quotes may stand without them, unless it has a single
  quote: `sdsneedsrepr` does not ask for quotes because of it, but `sdssplitargs` takes it as one.
-/

namespace WasiPorts.Redis

open WasiPorts.Text

/-! ## Printing -/

def hexDigit (d : Nat) : UInt8 := if d < 10 then digit d else UInt8.ofNat (87 + d)

/-- What `sdscatrepr` adds for one byte. -/
def reprByte (b : UInt8) : Bytes :=
  if b = 92 ∨ b = 34 then [92, b]
  else if b = 10 then [92, 110]
  else if b = 13 then [92, 114]
  else if b = 9 then [92, 116]
  else if b = 7 then [92, 97]
  else if b = 8 then [92, 98]
  else if isPrint b then [b]
  else [92, 120, hexDigit (b.toNat / 16), hexDigit (b.toNat % 16)]

/-- `sdscatrepr`. -/
def sdscatrepr (s p : Bytes) : Bytes := s ++ 34 :: (p.flatMap reprByte ++ [34])

/-- `sdsneedsrepr`. -/
def sdsneedsrepr (s : Bytes) : Bool :=
  s.any fun b => b = 92 || b = 34 || b = 10 || b = 13 || b = 9 || b = 7 || b = 8 || !isPrint b || isSpace b

/-! ## Splitting -/

/-- `is_hex_digit`. -/
def isHexDigit (c : UInt8) : Bool :=
  (48 ≤ c && c ≤ 57) || (97 ≤ c && c ≤ 102) || (65 ≤ c && c ≤ 70)

/-- `hex_digit_to_int`. -/
def hexDigitToInt (c : UInt8) : Nat :=
  if 48 ≤ c ∧ c ≤ 57 then c.toNat - 48
  else if 97 ≤ c ∧ c ≤ 102 then c.toNat - 87
  else if 65 ≤ c ∧ c ≤ 70 then c.toNat - 55
  else 0

/-- A byte after a backslash in double quotes. -/
def unescape (c : UInt8) : UInt8 :=
  if c = 110 then 10
  else if c = 114 then 13
  else if c = 116 then 9
  else if c = 98 then 8
  else if c = 97 then 7
  else c

/-- `inq` and `insq`. -/
inductive Quotes where
  | none | double | single
  deriving DecidableEq, Repr

/-- A closing quote must be followed by a blank or nothing at all. -/
def closeQuote (current : Bytes) : Bytes → Option (Bytes × Bytes)
  | [] => some (current, [])
  | c :: rest => if isSpace c then some (current, c :: rest) else none

/-- The inner loop of `sdssplitargs`: the rest of a token and what follows it. -/
def tokenLoop (q : Quotes) (current : Bytes) : Bytes → Option (Bytes × Bytes)
  | [] => if q = .none then some (current, []) else none
  | c :: rest =>
    match q with
    | .double =>
      if c = 92 then
        match rest with
        | [] => tokenLoop .double (current ++ [c]) []
        | e :: rest =>
          match rest with
          | h₁ :: h₂ :: rest' =>
            if e = 120 ∧ isHexDigit h₁ ∧ isHexDigit h₂ then
              tokenLoop .double
                (current ++ [UInt8.ofNat (hexDigitToInt h₁ * 16 + hexDigitToInt h₂)]) rest'
            else tokenLoop .double (current ++ [unescape e]) (h₁ :: h₂ :: rest')
          | rest => tokenLoop .double (current ++ [unescape e]) rest
      else if c = 34 then closeQuote current rest
      else tokenLoop .double (current ++ [c]) rest
    | .single =>
      match rest with
      | e :: rest' =>
        if c = 92 ∧ e = 39 then tokenLoop .single (current ++ [39]) rest'
        else if c = 39 then closeQuote current rest
        else tokenLoop .single (current ++ [c]) (e :: rest')
      | [] => if c = 39 then closeQuote current [] else tokenLoop .single (current ++ [c]) []
    | .none =>
      if c = 32 ∨ c = 10 ∨ c = 13 ∨ c = 9 then some (current, rest)
      else if c = 34 then tokenLoop .double current rest
      else if c = 39 then tokenLoop .single current rest
      else tokenLoop .none (current ++ [c]) rest

/-- The outer loop of `sdssplitargs`. Every token takes at least one byte, so that the length of
the line bounds the number of rounds. -/
def splitLoop : Nat → Bytes → Option (List Bytes)
  | 0, _ => some []
  | n + 1, line =>
    match line.dropWhile isSpace with
    | [] => some []
    | c :: rest =>
      match tokenLoop .none [] (c :: rest) with
      | none => none
      | some (token, rest) => (splitLoop n rest).map (token :: ·)

/-- `sdssplitargs`. -/
def sdssplitargs (line : Bytes) : Option (List Bytes) :=
  splitLoop (cString line).length (cString line)

/-! ## Quoted arguments -/

theorem hexDigit_value : ∀ d < 16, isHexDigit (hexDigit d) = true ∧ hexDigitToInt (hexDigit d) = d := by
  decide

/-- In quotes, what follows a backslash other than `x` is one byte. -/
theorem tokenLoop_escape {current : Bytes} {e : UInt8} (he : e ≠ 120) (ys : Bytes) :
    tokenLoop .double current (92 :: e :: ys) = tokenLoop .double (current ++ [unescape e]) ys := by
  rcases ys with _ | ⟨h₁, _ | ⟨h₂, ys⟩⟩
  · rfl
  · rfl
  · rw [tokenLoop]
    simp [he]

theorem tokenLoop_hex {current : Bytes} {h₁ h₂ : UInt8} (hh₁ : isHexDigit h₁ = true)
    (hh₂ : isHexDigit h₂ = true) (ys : Bytes) :
    tokenLoop .double current (92 :: 120 :: h₁ :: h₂ :: ys) =
      tokenLoop .double (current ++ [UInt8.ofNat (hexDigitToInt h₁ * 16 + hexDigitToInt h₂)]) ys := by
  rw [tokenLoop]
  simp [hh₁, hh₂]

theorem tokenLoop_plain {current : Bytes} {c : UInt8} (hback : c ≠ 92) (hquote : c ≠ 34) (ys : Bytes) :
    tokenLoop .double current (c :: ys) = tokenLoop .double (current ++ [c]) ys := by
  rw [tokenLoop.eq_def]
  simp [hback, hquote]

theorem tokenLoop_close (current rest : Bytes) :
    tokenLoop .double current (34 :: rest) = closeQuote current rest := by
  rw [tokenLoop.eq_def]
  simp

/-- Every byte is read back from what `sdscatrepr` prints for it. -/
theorem tokenLoop_reprByte (current : Bytes) (b : UInt8) (ys : Bytes) :
    tokenLoop .double current (reprByte b ++ ys) = tokenLoop .double (current ++ [b]) ys := by
  unfold reprByte
  split_ifs with hquote hlf hcr htab hbell hbs hprint
  · rcases hquote with rfl | rfl <;> exact tokenLoop_escape (by decide) ys
  · subst hlf; exact tokenLoop_escape (by decide) ys
  · subst hcr; exact tokenLoop_escape (by decide) ys
  · subst htab; exact tokenLoop_escape (by decide) ys
  · subst hbell; exact tokenLoop_escape (by decide) ys
  · subst hbs; exact tokenLoop_escape (by decide) ys
  · rw [not_or] at hquote
    exact tokenLoop_plain hquote.1 hquote.2 ys
  · have hlt : b.toNat < 256 := b.toNat_lt
    obtain ⟨hh₁, hv₁⟩ := hexDigit_value (b.toNat / 16) (by omega)
    obtain ⟨hh₂, hv₂⟩ := hexDigit_value (b.toNat % 16) (by omega)
    have hbyte : UInt8.ofNat (b.toNat / 16 * 16 + b.toNat % 16) = b := by
      rw [Nat.div_add_mod', UInt8.ofNat_toNat]
    have hread := @tokenLoop_hex current _ _ hh₁ hh₂ ys
    rw [hv₁, hv₂, hbyte] at hread
    exact hread

theorem tokenLoop_repr (p current ys : Bytes) :
    tokenLoop .double current (p.flatMap reprByte ++ ys) = tokenLoop .double (current ++ p) ys := by
  induction p generalizing current with
  | nil => simp
  | cons b p ih => rw [List.flatMap_cons, List.append_assoc, tokenLoop_reprByte, ih, List.append_assoc]; rfl

theorem tokenLoop_quoted (p rest : Bytes) :
    tokenLoop .none [] (sdscatrepr [] p ++ rest) = closeQuote p rest := by
  have hopen : sdscatrepr [] p ++ rest = 34 :: (p.flatMap reprByte ++ 34 :: rest) := by simp [sdscatrepr]
  have hdouble : tokenLoop .none [] (sdscatrepr [] p ++ rest) =
      tokenLoop .double [] (p.flatMap reprByte ++ 34 :: rest) := by
    rw [hopen]
    rfl
  rw [hdouble, tokenLoop_repr, tokenLoop_close]
  rfl

/-! ## Arguments without quotes -/

/-- The bytes of an argument that `sdsneedsrepr` leaves alone. -/
theorem mem_bare {s : Bytes} (h : sdsneedsrepr s = false) {b : UInt8} (hb : b ∈ s) :
    isPrint b = true ∧ isSpace b = false ∧ b ≠ 92 ∧ b ≠ 34 := by
  have hall := List.any_eq_false.mp h b hb
  simp only [Bool.or_eq_true, decide_eq_true_eq, Bool.not_eq_true', not_or] at hall
  simp_all

theorem not_blank {b : UInt8} (h : isSpace b = false) : ¬ (b = 32 ∨ b = 10 ∨ b = 13 ∨ b = 9) := by
  rintro (rfl | rfl | rfl | rfl) <;> exact absurd h (by decide)

/-- The end of the line, or a space. -/
inductive AtBlank : Bytes → Prop
  | eol : AtBlank []
  | space (rest : Bytes) : AtBlank (32 :: rest)

/-- What follows the blank. -/
theorem tokenLoop_blank {rest : Bytes} (h : AtBlank rest) (current : Bytes) :
    tokenLoop .none current rest = some (current, rest.tail) := by
  cases h with
  | eol => rfl
  | space rest => rfl

theorem closeQuote_blank {rest : Bytes} (h : AtBlank rest) (current : Bytes) :
    closeQuote current rest = some (current, rest) := by
  cases h with
  | eol => rfl
  | space rest => rfl

/-- Without a single quote, the argument is read as it stands. -/
theorem tokenLoop_bare {s : Bytes} (hs : sdsneedsrepr s = false) (hquote : 39 ∉ s) (current rest : Bytes) :
    tokenLoop .none current (s ++ rest) = tokenLoop .none (current ++ s) rest := by
  induction s generalizing current with
  | nil => simp
  | cons b s ih =>
      obtain ⟨-, hspace, -, hdouble⟩ := mem_bare hs List.mem_cons_self
      have hb : b ≠ 39 := fun h => hquote (h ▸ List.mem_cons_self)
      have hs' : sdsneedsrepr s = false := by
        simp only [sdsneedsrepr, List.any_cons, Bool.or_eq_false_iff] at hs
        exact hs.2
      have hstep : tokenLoop .none current (b :: (s ++ rest)) =
          tokenLoop .none (current ++ [b]) (s ++ rest) := by
        rw [tokenLoop.eq_def]
        simp only [if_neg (not_blank hspace), if_neg hdouble, if_neg hb]
      rw [List.cons_append, hstep, ih hs' fun h => hquote (List.mem_cons_of_mem b h), List.append_assoc]
      rfl

/-- In single quotes, everything up to the next one is taken. -/
theorem tokenLoop_single {s : Bytes} (hquote : 39 ∉ s) (hback : 92 ∉ s) (current rest : Bytes) :
    tokenLoop .single current (s ++ rest) = tokenLoop .single (current ++ s) rest := by
  induction s generalizing current with
  | nil => simp
  | cons b s ih =>
      have hb : b ≠ 39 := fun h => hquote (h ▸ List.mem_cons_self)
      have hb' : b ≠ 92 := fun h => hback (h ▸ List.mem_cons_self)
      have hstep : tokenLoop .single current (b :: (s ++ rest)) =
          tokenLoop .single (current ++ [b]) (s ++ rest) := by
        rw [tokenLoop.eq_def]
        generalize s ++ rest = ys
        cases ys <;> simp [hb, hb']
      rw [List.cons_append, hstep, ih (fun h => hquote (List.mem_cons_of_mem b h))
        fun h => hback (List.mem_cons_of_mem b h), List.append_assoc]
      rfl

theorem tokenLoop_single_close (current rest : Bytes) :
    tokenLoop .single current (39 :: rest) = closeQuote current rest := by
  rw [tokenLoop.eq_def]
  cases rest <;> simp [closeQuote]

/-! ## Lines of arguments -/

/-- `text` is an argument with the value `value`. -/
def IsArg (text value : Bytes) : Prop :=
  (∃ c cs, text = c :: cs ∧ isSpace c = false) ∧
    ∀ rest, AtBlank rest → ∃ rest', tokenLoop .none [] (text ++ rest) = some (value, rest') ∧
      rest'.dropWhile isSpace = rest.dropWhile isSpace

theorem isArg_quoted (p : Bytes) : IsArg (sdscatrepr [] p) p := by
  refine ⟨⟨34, p.flatMap reprByte ++ [34], rfl, rfl⟩, ?_⟩
  intro rest hrest
  exact ⟨rest, by rw [tokenLoop_quoted, closeQuote_blank hrest], rfl⟩

theorem isArg_bare {s : Bytes} (hne : s ≠ []) (hs : sdsneedsrepr s = false) (hquote : 39 ∉ s) :
    IsArg s s := by
  refine ⟨?_, ?_⟩
  · obtain ⟨c, cs, rfl⟩ := List.exists_cons_of_ne_nil hne
    exact ⟨c, cs, rfl, (mem_bare hs List.mem_cons_self).2.1⟩
  · intro rest hrest
    refine ⟨rest.tail, ?_, ?_⟩
    · rw [tokenLoop_bare hs hquote, tokenLoop_blank hrest]
      rfl
    · cases hrest with
      | eol => rfl
      | space rest => rfl

/-- Arguments behind each other. -/
def joinArgs (texts : List Bytes) : Bytes := [32].intercalate texts

@[simp] theorem joinArgs_nil : joinArgs [] = [] := rfl

@[simp] theorem joinArgs_singleton (text : Bytes) : joinArgs [text] = text := by simp [joinArgs]

theorem joinArgs_cons (text text' : Bytes) (texts : List Bytes) :
    joinArgs (text :: text' :: texts) = text ++ 32 :: joinArgs (text' :: texts) := by
  simp [joinArgs, List.intercalate]

theorem mem_joinArgs {texts : List Bytes} {b : UInt8} (h : b ∈ joinArgs texts) :
    b = 32 ∨ ∃ t ∈ texts, b ∈ t := by
  induction texts with
  | nil => simp at h
  | cons text texts ih =>
      cases texts with
      | nil => exact .inr ⟨text, List.mem_cons_self, by simpa using h⟩
      | cons t ts =>
          rw [joinArgs_cons, List.mem_append, List.mem_cons] at h
          rcases h with hb | rfl | hb
          · exact .inr ⟨text, List.mem_cons_self, hb⟩
          · exact .inl rfl
          · obtain hsp | ⟨t', ht', hb'⟩ := ih hb
            · exact .inl hsp
            · exact .inr ⟨t', List.mem_cons_of_mem text ht', hb'⟩

/-- A line of arguments starts with the first byte of the first one. -/
theorem joinArgs_head {texts values : List Bytes} (h : List.Forall₂ IsArg texts values)
    (hne : texts ≠ []) : ∃ c cs, joinArgs texts = c :: cs ∧ isSpace c = false := by
  cases h with
  | nil => exact absurd rfl hne
  | @cons text value texts values harg _ =>
      obtain ⟨⟨c, cs, rfl, hc⟩, -⟩ := harg
      cases texts with
      | nil => exact ⟨c, cs, by simp, hc⟩
      | cons t ts => exact ⟨c, _, joinArgs_cons _ _ _, hc⟩

theorem joinArgs_dropWhile {texts values : List Bytes} (h : List.Forall₂ IsArg texts values) :
    (joinArgs texts).dropWhile isSpace = joinArgs texts := by
  by_cases hne : texts = []
  · rw [hne]
    rfl
  · obtain ⟨c, cs, heq, hc⟩ := joinArgs_head h hne
    rw [heq, List.dropWhile_cons, hc]
    rfl

theorem length_le_joinArgs {texts values : List Bytes} (h : List.Forall₂ IsArg texts values) :
    texts.length ≤ (joinArgs texts).length := by
  induction h with
  | nil => simp
  | @cons text value texts values harg _ ih =>
      obtain ⟨⟨c, cs, rfl, -⟩, -⟩ := harg
      cases texts with
      | nil => simp
      | cons t ts =>
          rw [joinArgs_cons]
          simp only [List.length_cons, List.length_append] at ih ⊢
          omega

/-- A line of arguments behind blanks is split into their values. -/
theorem splitLoop_args {texts values : List Bytes} (h : List.Forall₂ IsArg texts values) {n : Nat}
    {line : Bytes} (hn : texts.length ≤ n) (hline : line.dropWhile isSpace = joinArgs texts) :
    splitLoop n line = some values := by
  induction h generalizing n line with
  | nil =>
      cases n with
      | zero => rfl
      | succ n => rw [splitLoop, hline]; rfl
  | @cons text value texts values harg hargs ih =>
      obtain ⟨m, rfl⟩ : ∃ m, n = m + 1 := ⟨n - 1, by simp at hn; omega⟩
      obtain ⟨⟨c, cs, htext, hc⟩, htoken⟩ := harg
      -- what stands behind the first argument
      obtain ⟨rest, hsplit, hblank, hrest⟩ : ∃ rest, joinArgs (text :: texts) = text ++ rest ∧
          AtBlank rest ∧ rest.dropWhile isSpace = joinArgs texts := by
        cases texts with
        | nil => exact ⟨[], by simp, .eol, rfl⟩
        | cons t ts =>
            exact ⟨_, joinArgs_cons _ _ _, .space _, joinArgs_dropWhile hargs⟩
      obtain ⟨rest', hread, hdrop⟩ := htoken rest hblank
      rw [htext, List.cons_append] at hread
      have htail : splitLoop m rest' = some values := ih (by simpa using hn) (hdrop.trans hrest)
      rw [splitLoop, hline, hsplit, htext, List.cons_append]
      simp only [hread, htail]
      rfl

/-- A second blank behind the first argument is skipped. -/
theorem splitLoop_blanks {text value : Bytes} {texts values : List Bytes} (harg : IsArg text value)
    (hargs : List.Forall₂ IsArg texts values) :
    splitLoop (text ++ 32 :: 32 :: joinArgs texts).length (text ++ 32 :: 32 :: joinArgs texts) =
      some (value :: values) := by
  obtain ⟨⟨c, cs, rfl, hc⟩, htoken⟩ := harg
  obtain ⟨rest, hread, hdrop⟩ := htoken _ (.space (32 :: joinArgs texts))
  have hrest : rest.dropWhile isSpace = joinArgs texts := hdrop.trans (joinArgs_dropWhile hargs)
  have hline : (c :: cs ++ 32 :: 32 :: joinArgs texts).dropWhile isSpace =
      c :: (cs ++ 32 :: 32 :: joinArgs texts) := by
    rw [List.cons_append, List.dropWhile_cons, hc]
    rfl
  have hlen := length_le_joinArgs hargs
  have htail : splitLoop (cs ++ 32 :: 32 :: joinArgs texts).length rest = some values :=
    splitLoop_args hargs (by simp; omega) hrest
  rw [List.cons_append] at hread hline ⊢
  rw [List.length_cons, splitLoop, hline]
  simp only [hread, htail]
  rfl

theorem sdssplitargs_args {texts values : List Bytes} (h : List.Forall₂ IsArg texts values)
    (hzero : ∀ b ∈ joinArgs texts, b ≠ 0) : sdssplitargs (joinArgs texts) = some values := by
  rw [sdssplitargs, cString_of_ne hzero]
  exact splitLoop_args h (length_le_joinArgs h) (joinArgs_dropWhile h)

theorem isPrint_hexDigit : ∀ d < 16, isPrint (hexDigit d) = true := by decide

theorem isPrint_reprByte {b c : UInt8} (h : c ∈ reprByte b) : isPrint c = true := by
  have hlt : b.toNat < 256 := b.toNat_lt
  have hlist : ∀ xs : Bytes, xs.all isPrint = true → c ∈ xs → isPrint c = true :=
    fun xs hxs hc => List.all_eq_true.mp hxs c hc
  unfold reprByte at h
  split_ifs at h with hquote hlf hcr htab hbell hbs hprint
  · rcases hquote with rfl | rfl <;> exact hlist _ (by decide) h
  · exact hlist _ (by decide) h
  · exact hlist _ (by decide) h
  · exact hlist _ (by decide) h
  · exact hlist _ (by decide) h
  · exact hlist _ (by decide) h
  · exact hlist _ (by simp [hprint]) h
  · have h₁ := isPrint_hexDigit (b.toNat / 16) (by omega)
    have h₂ := isPrint_hexDigit (b.toNat % 16) (by omega)
    exact hlist _ (by simp only [List.all_cons, h₁, h₂]; rfl) h

/-- What is printed is printable. -/
theorem isPrint_sdscatrepr {p : Bytes} {c : UInt8} (h : c ∈ sdscatrepr [] p) : isPrint c = true := by
  simp only [sdscatrepr, List.nil_append, List.mem_cons, List.mem_append, List.mem_flatMap,
    List.not_mem_nil, or_false] at h
  rcases h with rfl | ⟨b, -, hb⟩ | rfl
  · rfl
  · exact isPrint_reprByte hb
  · rfl

/-- **Quoting.** Whatever bytes the arguments have, printed with `sdscatrepr` they are split back. -/
theorem sdssplitargs_quoted (args : List Bytes) :
    sdssplitargs (joinArgs (args.map (sdscatrepr []))) = some args := by
  have hargs : List.Forall₂ IsArg (args.map (sdscatrepr [])) args := by
    induction args with
    | nil => exact .nil
    | cons p args ih => exact .cons (isArg_quoted p) ih
  refine sdssplitargs_args hargs ?_
  rintro b hb rfl
  rcases mem_joinArgs hb with hb | ⟨t, ht, hb⟩
  · exact absurd hb (by decide)
  · obtain ⟨p, -, rfl⟩ := List.mem_map.mp ht
    exact absurd (isPrint_sdscatrepr hb) (by decide)

end WasiPorts.Redis
