import Mathlib

/-!
# JSON as Python reads and writes it

`json.loads` as a machine that takes one character after the other: a stack of the arrays and objects
that are open, and what is expected next. It fails with a `ValueError` on a text that is not JSON, and
with a `RecursionError` on one that is nested deeper than a limit, whichever comes first.

`json.dumps` with `indent=2` is given for strings, and for lists and dictionaries of values that are
already written.

* `Reads` — a text is read as one value, wherever a value may stand.
* `reads_quote`, `reads_list`, `reads_dict` — what was written is read back.
-/

namespace WasiPorts.Json

/-- A string of Python: code points, surrogates included. -/
abbrev Str := List Nat

abbrev Text := List Char

inductive Value where
  | null
  | bool (b : Bool)
  | int (n : Int)
  /-- The decimal number `m * 10 ^ e`, before it is rounded. -/
  | float (m e : Int)
  | nan
  | infinity (neg : Bool)
  | str (s : Str)
  | arr (items : List Value)
  /-- The fields as written; the last one of a name counts. -/
  | obj (fields : List (Str × Value))

inductive LoadError where
  | valueError
  | recursionError
  deriving DecidableEq, Repr

/-! ## Numbers -/

/-- Where in a number the next character stands. -/
inductive NumAt where
  | minus
  | zero
  | int
  | point
  | frac
  | e
  | sign
  | exp
  deriving DecidableEq, Repr

/-- A number so far. -/
structure Num where
  neg : Bool
  /-- The digits of the mantissa. -/
  digits : Nat
  /-- How many of them stand before the point, and how many after it. -/
  before : Nat
  after : Nat
  expNeg : Bool
  exp : Nat
  deriving DecidableEq, Repr

def Num.start (neg : Bool) : Num := ⟨neg, 0, 0, 0, false, 0⟩

def digit (c : Char) : Option Nat := if c.isDigit then some (c.toNat - 48) else none

def Num.addBefore (n : Num) (d : Nat) : Num :=
  { n with digits := 10 * n.digits + d, before := n.before + 1 }

def Num.addAfter (n : Num) (d : Nat) : Num :=
  { n with digits := 10 * n.digits + d, after := n.after + 1 }

def Num.addExp (n : Num) (d : Nat) : Num := { n with exp := 10 * n.exp + d }

/-- The number with one more character, if it belongs to the number. -/
def numNext (pos : NumAt) (n : Num) (c : Char) : Option (NumAt × Num) :=
  match pos, digit c with
  | .minus, some 0 => some (.zero, n.addBefore 0)
  | .minus, some d | .int, some d => some (.int, n.addBefore d)
  | .point, some d | .frac, some d => some (.frac, n.addAfter d)
  | .e, some d | .sign, some d | .exp, some d => some (.exp, n.addExp d)
  | .zero, none | .int, none =>
    if c = '.' then some (.point, n) else if c = 'e' ∨ c = 'E' then some (.e, n) else none
  | .frac, none => if c = 'e' ∨ c = 'E' then some (.e, n) else none
  | .e, none =>
    if c = '+' then some (.sign, n) else if c = '-' then some (.sign, { n with expNeg := true })
    else none
  | _, _ => none

/-- `sys.get_int_max_str_digits()`. -/
def maxIntDigits : Nat := 4300

/-- The value of a number that ends here. -/
def numValue (pos : NumAt) (n : Num) : Except LoadError Value :=
  let m : Int := if n.neg then -n.digits else n.digits
  match pos with
  | .zero | .int => if n.before ≤ maxIntDigits then .ok (.int m) else .error .valueError
  | .frac | .exp => .ok (.float m ((if n.expNeg then -(n.exp : Int) else n.exp) - n.after))
  | _ => .error .valueError

/-! ## The machine -/

/-- What is open. -/
inductive Frame where
  /-- An array, with its items so far in reverse. -/
  | arr (items : List Value)
  /-- An object before a key, with its fields so far in reverse. -/
  | obj (fields : List (Str × Value))
  /-- An object after a key. -/
  | field (fields : List (Str × Value)) (key : Str)

/-- What comes next. -/
inductive Mode where
  | value
  /-- A value, or the end of an array. -/
  | firstItem
  /-- A key, or the end of an object. -/
  | firstKey
  | key
  | colon
  /-- What follows the value `j`. -/
  | done (j : Value)
  /-- The rest of a string, which so far is `acc` in reverse. -/
  | text (acc : Str)
  | escape (acc : Str)
  | hex (acc : Str) (left code : Nat)
  | number (pos : NumAt) (n : Num)
  /-- The rest of a name such as `null`. -/
  | word (rest : Text) (j : Value)

structure State where
  stack : List Frame
  mode : Mode

def isSpace (c : Char) : Bool := c = ' ' || c = '\t' || c = '\n' || c = '\r'

def hexVal (c : Char) : Option Nat :=
  if c.isDigit then some (c.toNat - 48)
  else if 'a' ≤ c ∧ c ≤ 'f' then some (c.toNat - 87)
  else if 'A' ≤ c ∧ c ≤ 'F' then some (c.toNat - 55)
  else none

/-- A code point after an escape; a low surrogate is joined to a high one before it. -/
def addCode (acc : Str) (code : Nat) : Str :=
  match acc with
  | high :: acc =>
    if 0xD800 ≤ high ∧ high ≤ 0xDBFF ∧ 0xDC00 ≤ code ∧ code ≤ 0xDFFF then
      (0x10000 + (high - 0xD800) * 1024 + (code - 0xDC00)) :: acc
    else code :: high :: acc
  | [] => [code]

/-- The end of a string, which is a key or a value. -/
def endString (stack : List Frame) (s : Str) : State :=
  match stack with
  | .obj fields :: stack => ⟨.field fields s :: stack, .colon⟩
  | stack => ⟨stack, .done (.str s)⟩

/-- A new array or object. -/
def push (limit : Nat) (stack : List Frame) (frame : Frame) (mode : Mode) : Except LoadError State :=
  if stack.length < limit then .ok ⟨frame :: stack, mode⟩ else .error .recursionError

/-- The first character of a value. -/
def beginValue (limit : Nat) (stack : List Frame) (c : Char) : Except LoadError State :=
  match c with
  | '"' => .ok ⟨stack, .text []⟩
  | '\x7b' => push limit stack (.obj []) .firstKey
  | '[' => push limit stack (.arr []) .firstItem
  | 'n' => .ok ⟨stack, .word "ull".toList .null⟩
  | 't' => .ok ⟨stack, .word "rue".toList (.bool true)⟩
  | 'f' => .ok ⟨stack, .word "alse".toList (.bool false)⟩
  | 'N' => .ok ⟨stack, .word "aN".toList .nan⟩
  | 'I' => .ok ⟨stack, .word "nfinity".toList (.infinity false)⟩
  | '-' => .ok ⟨stack, .number .minus (.start true)⟩
  | c =>
    match numNext .minus (.start false) c with
    | some (pos, n) => .ok ⟨stack, .number pos n⟩
    | none => .error .valueError

/-- A character after a value. -/
def afterValue (stack : List Frame) (j : Value) (c : Char) : Except LoadError State :=
  if isSpace c then .ok ⟨stack, .done j⟩
  else
    match stack, c with
    | .arr items :: stack, ',' => .ok ⟨.arr (j :: items) :: stack, .value⟩
    | .arr items :: stack, ']' => .ok ⟨stack, .done (.arr (j :: items).reverse)⟩
    | .field fields key :: stack, ',' => .ok ⟨.obj ((key, j) :: fields) :: stack, .key⟩
    | .field fields key :: stack, '\x7d' => .ok ⟨stack, .done (.obj ((key, j) :: fields).reverse)⟩
    | _, _ => .error .valueError

/-- A character in a string. -/
def inString (stack : List Frame) (acc : Str) (c : Char) : Except LoadError State :=
  if c = '"' then .ok (endString stack acc.reverse)
  else if c = '\\' then .ok ⟨stack, .escape acc⟩
  else if c.toNat < 32 then .error .valueError
  else .ok ⟨stack, .text (c.toNat :: acc)⟩

/-- A character after a backslash. -/
def inEscape (stack : List Frame) (acc : Str) (c : Char) : Except LoadError State :=
  match c with
  | '"' | '\\' | '/' => .ok ⟨stack, .text (c.toNat :: acc)⟩
  | 'b' => .ok ⟨stack, .text (8 :: acc)⟩
  | 'f' => .ok ⟨stack, .text (12 :: acc)⟩
  | 'n' => .ok ⟨stack, .text (10 :: acc)⟩
  | 'r' => .ok ⟨stack, .text (13 :: acc)⟩
  | 't' => .ok ⟨stack, .text (9 :: acc)⟩
  | 'u' => .ok ⟨stack, .hex acc 4 0⟩
  | _ => .error .valueError

/-- One character. -/
def step (limit : Nat) (s : State) (c : Char) : Except LoadError State :=
  match s.mode with
  | .value => if isSpace c then .ok s else beginValue limit s.stack c
  | .firstItem =>
    if isSpace c then .ok s
    else if c = ']' then .ok ⟨s.stack.tail, .done (.arr [])⟩
    else beginValue limit s.stack c
  | .firstKey =>
    if isSpace c then .ok s
    else if c = '"' then .ok ⟨s.stack, .text []⟩
    else if c = '\x7d' then .ok ⟨s.stack.tail, .done (.obj [])⟩
    else .error .valueError
  | .key =>
    if isSpace c then .ok s
    else if c = '"' then .ok ⟨s.stack, .text []⟩
    else .error .valueError
  | .colon =>
    if isSpace c then .ok s
    else if c = ':' then .ok ⟨s.stack, .value⟩
    else .error .valueError
  | .done j => afterValue s.stack j c
  | .text acc => inString s.stack acc c
  | .escape acc => inEscape s.stack acc c
  | .hex acc left code =>
    match hexVal c with
    | none => .error .valueError
    | some d =>
      if left ≤ 1 then .ok ⟨s.stack, .text (addCode acc (16 * code + d))⟩
      else .ok ⟨s.stack, .hex acc (left - 1) (16 * code + d)⟩
  | .number pos n =>
    match numNext pos n c with
    | some (pos, n) => .ok ⟨s.stack, .number pos n⟩
    | none =>
      if pos = .minus ∧ c = 'I' then .ok ⟨s.stack, .word "nfinity".toList (.infinity true)⟩
      else
        match numValue pos n with
        | .error e => .error e
        | .ok j => afterValue s.stack j c
  | .word rest j =>
    match rest with
    | [] => .error .valueError
    | c' :: rest =>
      if c ≠ c' then .error .valueError
      else if rest = [] then .ok ⟨s.stack, .done j⟩
      else .ok ⟨s.stack, .word rest j⟩

/-- The characters of a text. -/
def steps (limit : Nat) : State → Text → Except LoadError State
  | s, [] => .ok s
  | s, c :: text =>
    match step limit s c with
    | .error e => .error e
    | .ok s => steps limit s text

/-- The value at the end of the text. -/
def finish (s : State) : Except LoadError Value :=
  match s with
  | ⟨[], .done j⟩ => .ok j
  | ⟨[], .number pos n⟩ => numValue pos n
  | _ => .error .valueError

/-- `json.loads`. -/
def loads (limit : Nat) (text : Text) : Except LoadError Value :=
  if text.head? = some '\uFEFF' then .error .valueError
  else
    match steps limit ⟨[], .value⟩ text with
    | .error e => .error e
    | .ok s => finish s

/-! ## Writing -/

def hexDigit (d : Nat) : Char := "0123456789abcdef".toList.getD d '0'

/-- The escape of a code unit. -/
def unicodeEscape (n : Nat) : Text :=
  ['\\', 'u', hexDigit (n / 4096 % 16), hexDigit (n / 256 % 16), hexDigit (n / 16 % 16), hexDigit (n % 16)]

/-- How `json.dumps` writes a code point. -/
def escapeCode (c : Nat) : Text :=
  if c = 34 then ['\\', '"']
  else if c = 92 then ['\\', '\\']
  else if c = 8 then ['\\', 'b']
  else if c = 12 then ['\\', 'f']
  else if c = 10 then ['\\', 'n']
  else if c = 13 then ['\\', 'r']
  else if c = 9 then ['\\', 't']
  else if 32 ≤ c ∧ c ≤ 126 then [Char.ofNat c]
  else if c < 0x10000 then unicodeEscape c
  else
    unicodeEscape (0xD800 + (c - 0x10000) / 1024 % 1024) ++
      unicodeEscape (0xDC00 + (c - 0x10000) % 1024)

/-- A string. -/
def quote (s : Str) : Text := '"' :: (s.flatMap escapeCode ++ ['"'])

/-- A new line, two blanks for each level. -/
def newline (level : Nat) : Text := '\n' :: List.replicate (2 * level) ' '

/-- `,` between the lines. -/
def separated (level : Nat) : List Text → Text
  | [] => []
  | [item] => item
  | item :: items => item ++ ',' :: newline level ++ separated level items

/-- A list with at least one item; its last line is on `level`. -/
def listText (level : Nat) (items : List Text) : Text :=
  '[' :: (newline (level + 1) ++ separated (level + 1) items ++ newline level ++ [']'])

/-- A dictionary with at least one field. -/
def dictText (level : Nat) (fields : List (Str × Text)) : Text :=
  '\x7b' :: (newline (level + 1) ++
    separated (level + 1) (fields.map fun f => quote f.1 ++ ':' :: ' ' :: f.2) ++ newline level ++
    ['\x7d'])

/-! ## Reading a text in parts -/

section Reading

variable {limit : Nat} {stack : List Frame} {level : Nat}

@[simp] theorem steps_nil (s : State) : steps limit s [] = .ok s := rfl

theorem steps_cons {s s' : State} {c : Char} (h : step limit s c = .ok s') (text : Text) :
    steps limit s (c :: text) = steps limit s' text := by
  simp only [steps, h]

theorem steps_append {s s' : State} {text : Text} (h : steps limit s text = .ok s') (text' : Text) :
    steps limit s (text ++ text') = steps limit s' text' := by
  induction text generalizing s with
  | nil =>
    injection h with h
    rw [h, List.nil_append]
  | cons c text ih =>
    simp only [steps, List.cons_append] at h ⊢
    split at h
    next => cases h
    next s₁ hstep => exact ih h

/-- Blanks between two values change nothing. -/
def Mode.Skips : Mode → Prop
  | .value | .firstItem | .firstKey | .key | .colon | .done _ => True
  | _ => False

theorem step_space {mode : Mode} (hmode : mode.Skips) {c : Char} (hc : isSpace c = true) :
    step limit ⟨stack, mode⟩ c = .ok ⟨stack, mode⟩ := by
  cases mode <;> simp_all [Mode.Skips, step, afterValue]

theorem steps_spaces {mode : Mode} (hmode : mode.Skips) {text : Text}
    (htext : ∀ c ∈ text, isSpace c = true) :
    steps limit ⟨stack, mode⟩ text = .ok ⟨stack, mode⟩ := by
  induction text with
  | nil => rfl
  | cons c text ih =>
    rw [steps_cons (step_space hmode (htext c List.mem_cons_self))]
    exact ih fun c' hc' => htext c' (List.mem_cons_of_mem c hc')

theorem isSpace_newline : ∀ c ∈ newline level, isSpace c = true := by
  intro c hc
  rcases List.mem_cons.mp hc with rfl | hc
  · rfl
  · rw [List.eq_of_mem_replicate hc]
    rfl

theorem steps_newline {mode : Mode} (hmode : mode.Skips) (text : Text) :
    steps limit ⟨stack, mode⟩ (newline level ++ text) = steps limit ⟨stack, mode⟩ text :=
  steps_append (steps_spaces hmode isSpace_newline) text

/-! ## Strings are read back -/

theorem hexVal_hexDigit : ∀ d < 16, hexVal (hexDigit d) = some d := by decide

theorem step_hexDigit {acc : Str} {left code d : Nat} (hd : d < 16) (hleft : 1 < left) :
    step limit ⟨stack, .hex acc left code⟩ (hexDigit d)
      = .ok ⟨stack, .hex acc (left - 1) (16 * code + d)⟩ := by
  simp only [step, hexVal_hexDigit d hd]
  rw [if_neg (by omega)]

theorem step_last_hexDigit {acc : Str} {code d : Nat} (hd : d < 16) :
    step limit ⟨stack, .hex acc 1 code⟩ (hexDigit d)
      = .ok ⟨stack, .text (addCode acc (16 * code + d))⟩ := by
  simp only [step, hexVal_hexDigit d hd]
  rw [if_pos (le_refl 1)]

theorem steps_unicodeEscape {acc : Str} {n : Nat} (hn : n < 0x10000) :
    steps limit ⟨stack, .text acc⟩ (unicodeEscape n) = .ok ⟨stack, .text (addCode acc n)⟩ := by
  have hcode : 16 * (16 * (16 * (16 * 0 + n / 4096 % 16) + n / 256 % 16) + n / 16 % 16) + n % 16 = n := by
    omega
  have hback : step limit ⟨stack, .text acc⟩ '\\' = .ok ⟨stack, .escape acc⟩ := rfl
  have hu : step limit ⟨stack, .escape acc⟩ 'u' = .ok ⟨stack, .hex acc 4 0⟩ := rfl
  unfold unicodeEscape
  rw [steps_cons hback, steps_cons hu,
    steps_cons (step_hexDigit (by omega) (by omega)), steps_cons (step_hexDigit (by omega) (by omega)),
    steps_cons (step_hexDigit (by omega) (by omega)), steps_cons (step_last_hexDigit (by omega)), hcode]
  rfl

/-- What is no low surrogate stands alone. -/
theorem addCode_alone {acc : Str} {c : Nat} (hc : c < 0xDC00 ∨ 0xDFFF < c) :
    addCode acc c = c :: acc := by
  cases acc with
  | nil => rfl
  | cons high acc =>
    simp only [addCode]
    rw [if_neg (by omega)]

theorem addCode_pair {acc : Str} {c : Nat} (hlow : 0x10000 ≤ c) (hc : c < 0x110000) :
    addCode (addCode acc (0xD800 + (c - 0x10000) / 1024 % 1024)) (0xDC00 + (c - 0x10000) % 1024)
      = c :: acc := by
  have hhigh : addCode acc (0xD800 + (c - 0x10000) / 1024 % 1024)
      = (0xD800 + (c - 0x10000) / 1024 % 1024) :: acc := addCode_alone (by omega)
  have hsum : 0x10000 + (0xD800 + (c - 0x10000) / 1024 % 1024 - 0xD800) * 1024
      + (0xDC00 + (c - 0x10000) % 1024 - 0xDC00) = c := by omega
  rw [hhigh]
  simp only [addCode]
  rw [if_pos (by omega), hsum]

/-- A printable character stands for itself. -/
theorem step_plain {acc : Str} {c : Nat} (hlow : 32 ≤ c) (hhigh : c ≤ 126) (hquote : c ≠ 34)
    (hback : c ≠ 92) : step limit ⟨stack, .text acc⟩ (Char.ofNat c) = .ok ⟨stack, .text (c :: acc)⟩ := by
  have hto : (Char.ofNat c).toNat = c := by
    rw [Char.toNat_ofNat, if_pos (.inl (by omega))]
  have hne : ∀ d : Char, d.toNat ≠ c → Char.ofNat c ≠ d := by
    rintro d hd rfl
    exact hd hto
  simp only [step, inString]
  rw [if_neg (hne '"' fun h => hquote h.symm), if_neg (hne '\\' fun h => hback h.symm), hto,
    if_neg (by omega)]

theorem steps_escapeCode {acc : Str} {c : Nat} (hc : c < 0x110000) :
    steps limit ⟨stack, .text acc⟩ (escapeCode c) = .ok ⟨stack, .text (addCode acc c)⟩ := by
  unfold escapeCode
  split_ifs with h34 h92 h8 h12 h10 h13 h9 hplain hsmall
  · subst h34; rw [addCode_alone (by omega)]; rfl
  · subst h92; rw [addCode_alone (by omega)]; rfl
  · subst h8; rw [addCode_alone (by omega)]; rfl
  · subst h12; rw [addCode_alone (by omega)]; rfl
  · subst h10; rw [addCode_alone (by omega)]; rfl
  · subst h13; rw [addCode_alone (by omega)]; rfl
  · subst h9; rw [addCode_alone (by omega)]; rfl
  · rw [addCode_alone (by omega), steps_cons (step_plain hplain.1 hplain.2 h34 h92)]
    rfl
  · exact steps_unicodeEscape hsmall
  · rw [steps_append (steps_unicodeEscape (by omega)), steps_unicodeEscape (by omega),
      addCode_pair (by omega) hc, addCode_alone (by omega)]

/-- The string with its pairs of surrogates joined, which is what is read back. -/
def joined (s : Str) : Str := (s.foldl addCode []).reverse

theorem joined_of_lt {s : Str} (hs : ∀ c ∈ s, c < 0xDC00) : joined s = s := by
  have hfold : ∀ acc, s.foldl addCode acc = s.reverse ++ acc := by
    induction s with
    | nil => intro acc; rfl
    | cons c s ih =>
      intro acc
      rw [List.foldl_cons, addCode_alone (.inl (hs c List.mem_cons_self)),
        ih fun c' hc' => hs c' (List.mem_cons_of_mem c hc')]
      simp
  unfold joined
  rw [hfold, List.append_nil, List.reverse_reverse]

theorem steps_escapes {s : Str} (hs : ∀ c ∈ s, c < 0x110000) (acc : Str) :
    steps limit ⟨stack, .text acc⟩ (s.flatMap escapeCode ++ ['"'])
      = .ok (endString stack (s.foldl addCode acc).reverse) := by
  induction s generalizing acc with
  | nil => rfl
  | cons c s ih =>
    rw [List.flatMap_cons, List.append_assoc, steps_append (steps_escapeCode (hs c List.mem_cons_self)),
      List.foldl_cons]
    exact ih (fun c' hc' => hs c' (List.mem_cons_of_mem c hc')) (addCode acc c)

/-! ## Values are read back -/

/-- A string here is a value, not the key of an object. -/
def TakesValue : List Frame → Prop
  | .obj _ :: _ => False
  | _ => True

/-- The text is read as the value `j` wherever a value may stand and `depth` more arrays and objects
may be open. A comma or a new line ends it. -/
def Reads (limit depth : Nat) (text : Text) (j : Value) : Prop :=
  ∀ stack mode, TakesValue stack → mode = .value ∨ mode = .firstItem → stack.length + depth ≤ limit →
    ∃ s, steps limit ⟨stack, mode⟩ text = .ok s ∧
      ∀ c, c = ',' ∨ c = '\n' → step limit s c = afterValue stack j c

theorem Reads.mono {depth depth' : Nat} {text : Text} {j : Value} (h : Reads limit depth text j)
    (hle : depth ≤ depth') : Reads limit depth' text j :=
  fun stack mode hstack hmode hlen => h stack mode hstack hmode (by omega)

theorem step_begin {mode : Mode} (hmode : mode = .value ∨ mode = .firstItem) {c : Char}
    (hspace : isSpace c = false) (hc : c ≠ ']') :
    step limit ⟨stack, mode⟩ c = beginValue limit stack c := by
  rcases hmode with rfl | rfl
  · simp [step, hspace]
  · simp [step, hspace, hc]

theorem reads_quote {s : Str} (hs : ∀ c ∈ s, c < 0x110000) :
    Reads limit 0 (quote s) (.str (joined s)) := by
  intro stack mode hstack hmode hlen
  have hend : endString stack (joined s) = ⟨stack, .done (.str (joined s))⟩ := by
    match stack, hstack with
    | [], _ => rfl
    | .arr _ :: _, _ => rfl
    | .field _ _ :: _, _ => rfl
  refine ⟨⟨stack, .done (.str (joined s))⟩, ?_, fun c _ => rfl⟩
  unfold quote
  rw [steps_cons (step_begin hmode rfl (by decide)), ← hend]
  exact steps_escapes hs []

theorem reads_one : Reads limit 0 ['1'] (.int 1) := by
  intro stack mode hstack hmode hlen
  refine ⟨⟨stack, .number .int ((Num.start false).addBefore 1)⟩, ?_, ?_⟩
  · rw [steps_cons (step_begin hmode rfl (by decide))]
    rfl
  · rintro c (rfl | rfl) <;> rfl

/-- A value at the end of its line. -/
theorem steps_end {s : State} {j : Value}
    (hafter : ∀ c, c = ',' ∨ c = '\n' → step limit s c = afterValue stack j c) (text : Text) :
    steps limit s (newline level ++ text) = steps limit ⟨stack, .done j⟩ text := by
  have hdone : step limit s '\n' = .ok ⟨stack, .done j⟩ := hafter '\n' (.inr rfl)
  have hspaces : ∀ c ∈ List.replicate (2 * level) ' ', isSpace c = true :=
    fun c hc => isSpace_newline c (List.mem_cons_of_mem '\n' hc)
  rw [newline, List.cons_append, steps_cons hdone, steps_append (steps_spaces (by trivial) hspaces)]

/-- The rest of an array after `acc`, up to its end. -/
theorem steps_items {depth : Nat} {texts : List Text} {values : List Value}
    (h : List.Forall₂ (Reads limit depth) texts values) (hne : texts ≠ []) {mode : Mode}
    (hmode : mode = .value ∨ mode = .firstItem) (acc : List Value)
    (hlen : stack.length + 1 + depth ≤ limit) (after : Nat) :
    steps limit ⟨.arr acc :: stack, mode⟩ (separated level texts ++ (newline after ++ [']']))
      = .ok ⟨stack, .done (.arr (acc.reverse ++ values))⟩ := by
  induction h generalizing acc mode with
  | nil => exact absurd rfl hne
  | @cons text value texts values htext h ih =>
    obtain ⟨s, hs, hafter⟩ := htext (.arr acc :: stack) mode trivial hmode hlen
    cases texts with
    | nil =>
      cases h
      simp only [separated]
      rw [steps_append hs, steps_end hafter]
      simp [steps, step, afterValue, isSpace]
    | cons text' texts =>
      have hcomma : step limit s ',' = .ok ⟨.arr (value :: acc) :: stack, .value⟩ :=
        hafter ',' (.inl rfl)
      simp only [separated, List.append_assoc, List.cons_append]
      rw [steps_append hs, steps_cons hcomma, steps_newline (by trivial), ih (by simp) (.inl rfl)]
      simp

theorem reads_list {depth : Nat} {texts : List Text} {values : List Value}
    (h : List.Forall₂ (Reads limit depth) texts values) (hne : texts ≠ []) :
    Reads limit (depth + 1) (listText level texts) (.arr values) := by
  intro stack mode hstack hmode hlen
  have hopen : step limit ⟨stack, mode⟩ '[' = .ok ⟨.arr [] :: stack, .firstItem⟩ := by
    rw [step_begin hmode rfl (by decide)]
    simp [beginValue, push, show stack.length < limit by omega]
  refine ⟨⟨stack, .done (.arr values)⟩, ?_, fun c _ => rfl⟩
  simp only [listText, List.append_assoc]
  rw [steps_cons hopen, steps_newline (by trivial)]
  exact steps_items h hne (.inr rfl) [] (by omega) level

/-- A field of a dictionary is written as its name and its value are. -/
structure FieldReads (limit depth : Nat) (field : Str × Text) (read : Str × Value) : Prop where
  codes : ∀ c ∈ field.1, c < 0x110000
  key : read.1 = joined field.1
  value : Reads limit depth field.2 read.2

theorem steps_key {key : Str} (hkey : ∀ c ∈ key, c < 0x110000) {mode : Mode}
    (hmode : mode = .key ∨ mode = .firstKey) (fields : List (Str × Value)) (text : Text) :
    steps limit ⟨.obj fields :: stack, mode⟩ (quote key ++ ':' :: ' ' :: text)
      = steps limit ⟨.field fields (joined key) :: stack, .value⟩ text := by
  have hopen : step limit ⟨.obj fields :: stack, mode⟩ '"' = .ok ⟨.obj fields :: stack, .text []⟩ := by
    rcases hmode with rfl | rfl <;> rfl
  have hquote : steps limit ⟨.obj fields :: stack, mode⟩ (quote key)
      = .ok ⟨.field fields (joined key) :: stack, .colon⟩ := by
    unfold quote
    rw [steps_cons hopen, steps_escapes hkey []]
    rfl
  have hcolon : step limit ⟨.field fields (joined key) :: stack, .colon⟩ ':'
      = .ok ⟨.field fields (joined key) :: stack, .value⟩ := rfl
  rw [steps_append hquote, steps_cons hcolon, steps_cons (step_space (by trivial) rfl)]

/-- The rest of an object after `acc`, up to its end. -/
theorem steps_fields {depth : Nat} {fields : List (Str × Text)} {values : List (Str × Value)}
    (h : List.Forall₂ (FieldReads limit depth) fields values) (hne : fields ≠ []) {mode : Mode}
    (hmode : mode = .key ∨ mode = .firstKey) (acc : List (Str × Value))
    (hlen : stack.length + 1 + depth ≤ limit) (after : Nat) :
    steps limit ⟨.obj acc :: stack, mode⟩
        (separated level (fields.map fun f => quote f.1 ++ ':' :: ' ' :: f.2) ++
          (newline after ++ ['\x7d']))
      = .ok ⟨stack, .done (.obj (acc.reverse ++ values))⟩ := by
  induction h generalizing acc mode with
  | nil => exact absurd rfl hne
  | @cons field value fields values hfield h ih =>
    obtain ⟨key, j⟩ := value
    obtain ⟨hcodes, rfl, hvalue⟩ := hfield
    obtain ⟨s, hs, hafter⟩ := hvalue (.field acc (joined field.1) :: stack) .value trivial (.inl rfl) hlen
    cases fields with
    | nil =>
      cases h
      simp only [List.map_cons, List.map_nil, separated, List.append_assoc, List.cons_append]
      rw [steps_key hcodes hmode, steps_append hs, steps_end hafter]
      simp [steps, step, afterValue, isSpace]
    | cons field' fields =>
      have hcomma : step limit s ',' = .ok ⟨.obj ((joined field.1, j) :: acc) :: stack, .key⟩ :=
        hafter ',' (.inl rfl)
      simp only [List.map_cons, separated, List.append_assoc, List.cons_append] at ih ⊢
      rw [steps_key hcodes hmode, steps_append hs, steps_cons hcomma, steps_newline (by trivial),
        ih (by simp) (.inl rfl)]
      simp

theorem reads_dict {depth : Nat} {fields : List (Str × Text)} {values : List (Str × Value)}
    (h : List.Forall₂ (FieldReads limit depth) fields values) (hne : fields ≠ []) :
    Reads limit (depth + 1) (dictText level fields) (.obj values) := by
  intro stack mode hstack hmode hlen
  have hopen : step limit ⟨stack, mode⟩ '\x7b' = .ok ⟨.obj [] :: stack, .firstKey⟩ := by
    rw [step_begin hmode rfl (by decide)]
    simp [beginValue, push, show stack.length < limit by omega]
  refine ⟨⟨stack, .done (.obj values)⟩, ?_, fun c _ => rfl⟩
  simp only [dictText, List.append_assoc]
  rw [steps_cons hopen, steps_newline (by trivial)]
  exact steps_fields h hne (.inr rfl) [] (by omega) level

/-- A value and a new line. -/
theorem loads_of_reads {depth : Nat} {text : Text} {j : Value} (h : Reads limit depth text j)
    (hdepth : depth ≤ limit) (hmark : (text ++ ['\n']).head? ≠ some '\uFEFF') :
    loads limit (text ++ ['\n']) = .ok j := by
  obtain ⟨s, hs, hafter⟩ := h [] .value trivial (.inl rfl) (by simpa using hdepth)
  have hend : step limit s '\n' = .ok ⟨[], .done j⟩ := hafter '\n' (.inr rfl)
  unfold loads
  rw [if_neg hmark, steps_append hs, steps_cons hend]
  rfl

end Reading

end WasiPorts.Json
