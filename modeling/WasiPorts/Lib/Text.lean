import Mathlib.Data.List.TakeWhile
import Mathlib.Data.Nat.Digits.Lemmas
import Mathlib.Tactic.Ring

/-!
# Text as C reads and prints it

Bytes, the character classes of the C locale, decimal numbers and lines.

* `number_decimal` — a number that was printed is read back, whatever stands behind it.
* `fgets_line` — a line that fits the buffer is read as a whole.
-/

namespace WasiPorts.Text

abbrev Bytes := List UInt8

/-- The bytes of a string. -/
def bytes (s : String) : Bytes := s.toByteArray.data.toList

@[simp] theorem bytes_append (s t : String) : bytes (s ++ t) = bytes s ++ bytes t := by simp [bytes]

/-- A C string: what stands before the first NUL. -/
def cString (xs : Bytes) : Bytes := xs.takeWhile (· ≠ 0)

theorem cString_of_ne {xs : Bytes} (h : ∀ b ∈ xs, b ≠ 0) : cString xs = xs := by
  rw [cString, List.takeWhile_eq_self_iff]
  simpa using h

def isSpace (b : UInt8) : Bool := b = 32 || (9 ≤ b && b ≤ 13)

/-- `isprint`: false for bytes from 128 on, whether `char` is signed or not. -/
def isPrint (b : UInt8) : Bool := 32 ≤ b && b ≤ 126

def isDigit (b : UInt8) : Bool := 48 ≤ b && b ≤ 57

/-- `tolower` in the C locale. -/
def toLower (b : UInt8) : UInt8 := if 65 ≤ b ∧ b ≤ 90 then b + 32 else b

/-- What `strcasecmp` looks at: the C string in lower case. -/
def caseKey (xs : Bytes) : Bytes := (cString xs).map toLower

/-- `strcasecmp` finds the two equal. -/
def sameIgnoringCase (a b : Bytes) : Bool := caseKey a = caseKey b

/-! ## Numbers -/

/-- The digit `d`. -/
def digit (d : Nat) : UInt8 := UInt8.ofNat (48 + d)

def digits (n : Nat) : Bytes := if n = 0 then [48] else ((Nat.digits 10 n).map digit).reverse

/-- `%lld`. -/
def decimal (z : Int) : Bytes := if z < 0 then 45 :: digits z.natAbs else digits z.natAbs

/-- The value of digits. -/
def digitsValue (xs : Bytes) : Nat := xs.foldl (fun v b => 10 * v + (b.toNat - 48)) 0

/-- The number at the start of `xs`: the digits up to the first other byte, after blanks and a
sign. -/
def number (xs : Bytes) : Int :=
  match xs.dropWhile isSpace with
  | [] => 0
  | b :: rest =>
    if b = 45 then -(digitsValue (rest.takeWhile isDigit) : Int)
    else if b = 43 then digitsValue (rest.takeWhile isDigit)
    else digitsValue ((b :: rest).takeWhile isDigit)

/-- `atoi`, in the 32 bits of `int`. -/
def atoi (xs : Bytes) : Int := (number xs).bmod (2 ^ 32)

def atoll (xs : Bytes) : Int := (number xs).bmod (2 ^ 64)

/-- `strtol(xs, NULL, 10)`, where `long` has 32 bits. -/
def strtol (xs : Bytes) : Int := max (-2 ^ 31) (min (number xs) (2 ^ 31 - 1))

section Numbers

theorem digit_toNat {d : Nat} (hd : d < 10) : (digit d).toNat = 48 + d := by
  rw [digit, UInt8.toNat_ofNat']
  omega

theorem isDigit_iff (b : UInt8) : isDigit b = true ↔ 48 ≤ b.toNat ∧ b.toNat ≤ 57 := by
  simp [isDigit, UInt8.le_iff_toNat_le]

theorem isDigit_digit {d : Nat} (hd : d < 10) : isDigit (digit d) = true := by
  rw [isDigit_iff, digit_toNat hd]
  omega

theorem isSpace_of_isDigit {b : UInt8} (h : isDigit b = true) : isSpace b = false := by
  rw [isDigit_iff] at h
  have hspace : b.toNat ≠ 32 ∧ ¬ (9 ≤ b.toNat ∧ b.toNat ≤ 13) := by omega
  simpa [isSpace, UInt8.le_iff_toNat_le, ← UInt8.toNat_inj] using hspace

theorem isDigit_of_mem_digits {n : Nat} {b : UInt8} (h : b ∈ digits n) : isDigit b = true := by
  unfold digits at h
  split at h
  · obtain rfl := List.mem_singleton.mp h
    rfl
  · rw [List.mem_reverse] at h
    obtain ⟨d, hd, rfl⟩ := List.mem_map.mp h
    exact isDigit_digit (Nat.digits_lt_base (by omega) hd)

theorem digits_ne_nil (n : Nat) : digits n ≠ [] := by
  unfold digits
  split
  · simp
  · next hn => simpa [Nat.digits_ne_nil_iff_ne_zero] using hn

theorem digitsValue_append (xs ys : Bytes) :
    digitsValue (xs ++ ys) = ys.foldl (fun v b => 10 * v + (b.toNat - 48)) (digitsValue xs) :=
  List.foldl_append

theorem digitsValue_reverse (ds : List Nat) (h : ∀ d ∈ ds, d < 10) :
    digitsValue (ds.map digit).reverse = Nat.ofDigits 10 ds := by
  induction ds with
  | nil => rfl
  | cons d ds ih =>
      have hd := h d List.mem_cons_self
      rw [List.map_cons, List.reverse_cons, digitsValue_append, ih fun e he => h e (by simp [he])]
      simp only [List.foldl_cons, List.foldl_nil, digit_toNat hd, Nat.ofDigits_cons]
      omega

@[simp] theorem digitsValue_digits (n : Nat) : digitsValue (digits n) = n := by
  unfold digits
  split
  · next hn => rw [hn]; rfl
  · rw [digitsValue_reverse _ fun d hd => Nat.digits_lt_base (by omega) hd, Nat.ofDigits_digits]

theorem decimal_ne_nil (z : Int) : decimal z ≠ [] := by
  unfold decimal
  split
  · simp
  · exact digits_ne_nil _

/-- A printed number has no blanks, quotes or control characters. -/
theorem mem_decimal {z : Int} {b : UInt8} (h : b ∈ decimal z) : b = 45 ∨ isDigit b = true := by
  unfold decimal at h
  split at h
  · rcases List.mem_cons.mp h with rfl | h
    · exact .inl rfl
    · exact .inr (isDigit_of_mem_digits h)
  · exact .inr (isDigit_of_mem_digits h)

/-- The digits end where no digit follows. -/
theorem takeWhile_digits (n : Nat) {rest : Bytes} (hrest : ∀ b ∈ rest.head?, isDigit b = false) :
    (digits n ++ rest).takeWhile isDigit = digits n := by
  rw [List.takeWhile_append_of_pos fun b hb => isDigit_of_mem_digits hb]
  cases rest with
  | nil => simp
  | cons b rest => simp [hrest b (by simp)]

/-- A printed number is read back. -/
theorem number_decimal (z : Int) {rest : Bytes} (hrest : ∀ b ∈ rest.head?, isDigit b = false) :
    number (decimal z ++ rest) = z := by
  have htake := takeWhile_digits z.natAbs hrest
  unfold decimal
  split
  · next hz =>
      have hdrop : (45 :: digits z.natAbs ++ rest).dropWhile isSpace =
          45 :: (digits z.natAbs ++ rest) := rfl
      rw [number, hdrop]
      simp only [if_true, htake, digitsValue_digits]
      omega
  · next hz =>
      have hne := digits_ne_nil z.natAbs
      have hvalue := digitsValue_digits z.natAbs
      have hmem : ∀ b ∈ digits z.natAbs, isDigit b = true := fun b hb => isDigit_of_mem_digits hb
      cases hds : digits z.natAbs with
      | nil => exact absurd hds hne
      | cons b ds =>
          rw [hds] at htake hvalue hmem
          have hb := hmem b List.mem_cons_self
          have hdrop : (b :: ds ++ rest).dropWhile isSpace = b :: (ds ++ rest) := by
            rw [List.cons_append, List.dropWhile_cons, isSpace_of_isDigit hb]
            rfl
          have hsign : b ≠ 45 ∧ b ≠ 43 := by
            constructor <;> rintro rfl <;> exact absurd hb (by decide)
          rw [number, hdrop]
          rw [List.cons_append] at htake
          simp only [if_neg hsign.1, if_neg hsign.2, htake, hvalue]
          omega

theorem atoi_decimal {z : Int} (hlow : -2 ^ 31 ≤ z) (hhigh : z < 2 ^ 31) {rest : Bytes}
    (hrest : ∀ b ∈ rest.head?, isDigit b = false) : atoi (decimal z ++ rest) = z := by
  rw [atoi, number_decimal z hrest]
  exact Int.bmod_eq_of_le (by omega) (by omega)

theorem atoll_decimal {z : Int} (hlow : -2 ^ 63 ≤ z) (hhigh : z < 2 ^ 63) {rest : Bytes}
    (hrest : ∀ b ∈ rest.head?, isDigit b = false) : atoll (decimal z ++ rest) = z := by
  rw [atoll, number_decimal z hrest]
  exact Int.bmod_eq_of_le (by omega) (by omega)

theorem strtol_decimal {z : Int} (hlow : -2 ^ 31 ≤ z) (hhigh : z < 2 ^ 31) {rest : Bytes}
    (hrest : ∀ b ∈ rest.head?, isDigit b = false) : strtol (decimal z ++ rest) = z := by
  rw [strtol, number_decimal z hrest]
  omega

end Numbers

/-! ## Lines -/

/-- A line read by `fgets`, what follows it, and the end-of-file indicator afterwards. -/
structure Line where
  text : Bytes
  rest : Bytes
  eof : Bool
  deriving DecidableEq, Repr

/-- The loop of `fgets`: at most `n` bytes, up to and including a newline. -/
def getLine : Nat → Bytes → Line
  | 0, xs => ⟨[], xs, false⟩
  | _ + 1, [] => ⟨[], [], true⟩
  | n + 1, b :: xs =>
    if b = 10 then ⟨[b], xs, false⟩
    else { getLine n xs with text := b :: (getLine n xs).text }

/-- `fgets` with a buffer of `size` bytes; `none` at the end of the file. -/
def fgets (size : Nat) (xs : Bytes) : Option Line :=
  if xs = [] then none else some (getLine (size - 1) xs)

/-- `fread(_, n, 1, fp)`: the item and what follows it; `none` if the file is too short. -/
def fread (n : Nat) (xs : Bytes) : Option (Bytes × Bytes) :=
  if n ≤ xs.length then some (xs.take n, xs.drop n) else none

section Lines

/-- A line that fits. -/
theorem getLine_line {n : Nat} {line : Bytes} (rest : Bytes) (hline : ∀ b ∈ line, b ≠ 10)
    (hn : line.length < n) : getLine n (line ++ 10 :: rest) = ⟨line ++ [10], rest, false⟩ := by
  induction line generalizing n with
  | nil =>
      obtain ⟨n, rfl⟩ := Nat.exists_eq_add_of_lt hn
      simp [getLine]
  | cons b line ih =>
      obtain ⟨m, rfl⟩ : ∃ m, n = m + 1 := Nat.exists_eq_add_one.mpr (by omega)
      have hb := hline b List.mem_cons_self
      have hrest := @ih m (fun c hc => hline c (by simp [hc])) (by simpa using hn)
      simp [getLine, hb, hrest]

/-- The file ends in the line. -/
theorem getLine_eof {n : Nat} {line : Bytes} (hline : ∀ b ∈ line, b ≠ 10) (hn : line.length < n) :
    getLine n line = ⟨line, [], true⟩ := by
  induction line generalizing n with
  | nil =>
      obtain ⟨n, rfl⟩ := Nat.exists_eq_add_of_lt hn
      simp [getLine]
  | cons b line ih =>
      obtain ⟨m, rfl⟩ : ∃ m, n = m + 1 := Nat.exists_eq_add_one.mpr (by omega)
      have hb := hline b List.mem_cons_self
      have hrest := @ih m (fun c hc => hline c (by simp [hc])) (by simpa using hn)
      simp [getLine, hb, hrest]

theorem getLine_append (n : Nat) (xs : Bytes) : (getLine n xs).text ++ (getLine n xs).rest = xs := by
  induction n generalizing xs with
  | zero => rfl
  | succ n ih =>
      cases xs with
      | nil => rfl
      | cons b xs =>
          unfold getLine
          split
          · rfl
          · simp [ih]

/-- Behind the end of the file there is nothing. -/
theorem getLine_rest {n : Nat} {xs : Bytes} (h : (getLine n xs).eof = true) : (getLine n xs).rest = [] := by
  induction n generalizing xs with
  | zero => cases h
  | succ n ih =>
      cases xs with
      | nil => rfl
      | cons b xs =>
          unfold getLine at h ⊢
          split at h
          · cases h
          · next hb =>
              rw [if_neg hb]
              exact ih h

/-- A whole line is read whatever follows it. -/
theorem getLine_whole {n : Nat} {xs : Bytes} (h : (getLine n xs).eof = false) (ys : Bytes) :
    getLine n ((getLine n xs).text ++ ys) = ⟨(getLine n xs).text, ys, false⟩ := by
  induction n generalizing xs with
  | zero => rfl
  | succ n ih =>
      cases xs with
      | nil => cases h
      | cons b xs =>
          by_cases hb : b = 10
          · simp [getLine, hb]
          · have hrest : (getLine n xs).eof = false := by simpa [getLine, hb] using h
            simp [getLine, hb, ih hrest]

theorem fgets_line {size : Nat} {line : Bytes} (rest : Bytes) (hline : ∀ b ∈ line, b ≠ 10)
    (hsize : line.length + 1 < size) :
    fgets size (line ++ 10 :: rest) = some ⟨line ++ [10], rest, false⟩ := by
  rw [fgets, if_neg (by simp), getLine_line rest hline (by omega)]

theorem fgets_eof {size : Nat} {line : Bytes} (hline : ∀ b ∈ line, b ≠ 10) (hne : line ≠ [])
    (hsize : line.length + 1 < size) : fgets size line = some ⟨line, [], true⟩ := by
  rw [fgets, if_neg hne, getLine_eof hline (by omega)]

theorem fgets_none_iff {size : Nat} {xs : Bytes} : fgets size xs = none ↔ xs = [] := by
  unfold fgets
  split <;> simp_all

theorem fgets_append {size : Nat} {xs : Bytes} {l : Line} (h : fgets size xs = some l) : l.text ++ l.rest = xs := by
  unfold fgets at h
  split at h
  · cases h
  · obtain rfl := Option.some.inj h
    exact getLine_append _ _

theorem fgets_rest {size : Nat} {xs : Bytes} {l : Line} (h : fgets size xs = some l) (heof : l.eof = true) :
    l.rest = [] := by
  unfold fgets at h
  split at h
  · cases h
  · obtain rfl := Option.some.inj h
    exact getLine_rest heof

/-- Something is read. -/
theorem fgets_rest_lt {size : Nat} {xs : Bytes} {l : Line} (hsize : 2 ≤ size)
    (h : fgets size xs = some l) : l.rest.length < xs.length := by
  cases xs with
  | nil => cases h
  | cons b xs =>
      obtain ⟨m, hm⟩ : ∃ m, size - 1 = m + 1 := ⟨size - 2, by omega⟩
      have happ := congrArg List.length (getLine_append m xs)
      rw [List.length_append] at happ
      rw [fgets, if_neg (by simp), hm, Option.some.injEq] at h
      subst h
      unfold getLine
      split
      · simp
      · simp only [List.length_cons]
        omega

theorem fgets_head {size : Nat} {b : UInt8} {xs : Bytes} {l : Line} (hsize : 2 ≤ size)
    (h : fgets size (b :: xs) = some l) : l.text.head? = some b := by
  have happ := fgets_append h
  have hlt := fgets_rest_lt hsize h
  cases htext : l.text with
  | nil =>
      rw [htext, List.nil_append] at happ
      rw [happ] at hlt
      exact absurd hlt (Nat.lt_irrefl _)
  | cons c text =>
      rw [htext, List.cons_append] at happ
      rw [List.head?_cons, (List.cons.inj happ).1]

theorem fgets_whole {size : Nat} {xs : Bytes} {l : Line} (hsize : 2 ≤ size) (h : fgets size xs = some l)
    (heof : l.eof = false) (ys : Bytes) : fgets size (l.text ++ ys) = some ⟨l.text, ys, false⟩ := by
  have happ := congrArg List.length (fgets_append h)
  have hlt := fgets_rest_lt hsize h
  have hne : l.text ++ ys ≠ [] := by
    rw [List.length_append] at happ
    intro hnil
    obtain ⟨hnil, -⟩ := List.append_eq_nil_iff.mp hnil
    rw [hnil, List.length_nil] at happ
    omega
  unfold fgets at h
  split at h
  · cases h
  · obtain rfl := Option.some.inj h
    rw [fgets, if_neg hne, getLine_whole heof]

theorem fread_some_iff {n : Nat} {xs a rest : Bytes} : fread n xs = some (a, rest) ↔ xs = a ++ rest ∧ a.length = n := by
  unfold fread
  constructor
  · intro h
    split at h
    · next hle =>
        obtain ⟨rfl, rfl⟩ := Prod.mk.inj (Option.some.inj h)
        exact ⟨(List.take_append_drop n xs).symm, List.length_take_of_le hle⟩
    · cases h
  · rintro ⟨rfl, rfl⟩
    simp

end Lines

end WasiPorts.Text
