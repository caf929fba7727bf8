import WasiPorts.Lib.Stream
import WasiPorts.Redis.Aof.Server
import WasiPorts.Redis.Resp

/-!
# The text of an AOF file

An AOF file without RDB preamble is a sequence of commands and of `#TS:` lines. Here it is read byte by byte,
as `loadSingleAppendOnlyFile` reads it.

* `commandReader` — what a round of its loop takes does not depend on what follows.
* `loadCommands_fileText` — the commands of a complete file are loaded.
* `loadCommands_cut_timestamp` — a file that ends inside a `#TS:` line can be continued only with another one.
-/

namespace WasiPorts.Redis.Aof

open WasiPorts.Text WasiPorts.Stream

/-! ## Reading -/

/-- `AOF_ANNOTATION_LINE_MAX_LEN`. -/
def aofAnnotationLineMaxLen : Nat := 1024

/-- The bytes of an argument and two more, which are not looked at. -/
def readBody (len : Nat) (xs : Bytes) : Except Tail (Bytes × Bytes) :=
  match if len = 0 then some ([], xs) else fread len xs with
  | none => .error .short
  | some (argsds, rest) =>
    match fread 2 rest with
    | none => .error .short
    | some (_, rest) => .ok (argsds, rest)

/-- An argument behind its length, which is stored in an `unsigned long`. -/
def readArg (xs : Bytes) : Except Tail (Bytes × Bytes) :=
  match fgets aofAnnotationLineMaxLen xs with
  | none => .error .short
  | some l =>
    if l.text.head? ≠ some 36 then .error .bad
    else readBody (strtol l.text.tail % 2 ^ 32).toNat l.rest

def readArgs : Nat → Bytes → Except Tail (List Bytes × Bytes)
  | 0, xs => .ok ([], xs)
  | argc + 1, xs =>
    match readArg xs with
    | .error tail => .error tail
    | .ok (arg, rest) =>
      match readArgs argc rest with
      | .error tail => .error tail
      | .ok (args, rest) => .ok (arg :: args, rest)

/-- One round of the loop of `loadSingleAppendOnlyFile`: a command, or none for an annotation, and how many bytes it
takes. -/
def readCommand (lookupCommand : List Bytes → Bool) (xs : Bytes) : Except Tail (Option (List Bytes) × Nat) :=
  match fgets aofAnnotationLineMaxLen xs with
  | none => .error .eof
  | some l =>
    if l.text.head? = some 35 then
      -- nothing is read behind a line without its end
      if l.eof then .error .torn else .ok (none, xs.length - l.rest.length)
    else if l.text.head? ≠ some 42 then .error .bad
    -- an unexpected end only if the end of the file was reached
    else if l.text.getD 1 0 = 0 then .error (if l.eof then .short else .bad)
    else
      let argc := atoi l.text.tail
      if argc < 1 then .error .bad
      -- `SIZE_MAX / sizeof(robj *)`
      else if argc > (2 ^ 32 - 1) / 4 then .error .bad
      else
        match readArgs argc.toNat l.rest with
        | .error tail => .error tail
        | .ok (argv, rest) => if lookupCommand argv then .ok (some argv, xs.length - rest.length) else .error .bad

variable {lookupCommand : List Bytes → Bool}

/-! ### What a round takes -/

section Rounds

/-- The two bytes behind an argument are not looked at. -/
theorem readBody_append {s stop : Bytes} (hstop : stop.length = 2) (rest : Bytes) :
    readBody s.length (s ++ (stop ++ rest)) = .ok (s, rest) := by
  have hbody : (if s.length = 0 then some ([], s ++ (stop ++ rest)) else fread s.length (s ++ (stop ++ rest))) =
      some (s, stop ++ rest) := by
    split
    · next hzero =>
        obtain rfl := List.length_eq_zero_iff.mp hzero
        rfl
    · exact fread_some_iff.mpr ⟨rfl, rfl⟩
  rw [readBody, hbody]
  dsimp only
  rw [fread_some_iff.mpr ⟨rfl, hstop⟩]

theorem readBody_short {len : Nat} {xs : Bytes} (h : xs.length < len + 2) : readBody len xs = .error .short := by
  have hstop : ∀ ys : Bytes, ys.length < 2 → fread 2 ys = none := fun ys hys => if_neg (by omega)
  unfold readBody
  split
  · rfl
  · next argsds rest hread =>
      rw [hstop rest]
      split at hread
      · next hzero =>
          obtain ⟨-, rfl⟩ := Prod.mk.inj (Option.some.inj hread)
          omega
      · obtain ⟨rfl, hlen⟩ := fread_some_iff.mp hread
        rw [List.length_append] at h
        omega

theorem readBody_local (len : Nat) : Local (readBody len) := by
  intro xs v rest h
  have hsplit : ∃ stop : Bytes, stop.length = 2 ∧ xs = v ++ (stop ++ rest) ∧ v.length = len := by
    unfold readBody at h
    split at h
    · cases h
    next argsds rest' hbody =>
    split at h
    · cases h
    next stop rest'' hstop =>
    obtain ⟨rfl, rfl⟩ := Prod.mk.inj (Except.ok.inj h)
    obtain ⟨rfl, hlen⟩ := fread_some_iff.mp hstop
    refine ⟨stop, hlen, ?_⟩
    split at hbody
    · next hzero =>
        obtain ⟨rfl, rfl⟩ := Prod.mk.inj (Option.some.inj hbody)
        exact ⟨rfl, hzero.symm⟩
    · exact fread_some_iff.mp hbody
  obtain ⟨stop, hstop, rfl, rfl⟩ := hsplit
  refine ⟨v ++ stop, (List.append_assoc v stop rest).symm, fun ys => ?_⟩
  rw [List.append_assoc]
  exact readBody_append hstop ys

theorem readArg_local : Local readArg := by
  intro xs v rest h
  unfold readArg at h
  split at h
  · cases h
  next l hl =>
  split at h
  · cases h
  next hhead =>
  cases heof : l.eof with
  | true =>
      -- no bytes of the argument are left
      rw [fgets_rest hl heof, readBody_short (by simp)] at h
      cases h
  | false =>
      obtain ⟨used, hused, hread⟩ := readBody_local _ h
      refine ⟨l.text ++ used, ?_, fun ys => ?_⟩
      · rw [List.append_assoc, ← hused, fgets_append hl]
      · rw [List.append_assoc, readArg, fgets_whole (by decide) hl heof]
        dsimp only
        rw [if_neg hhead]
        exact hread ys

theorem readArgs_local (argc : Nat) : Local (readArgs argc) := by
  induction argc with
  | zero =>
      intro xs v rest h
      obtain ⟨rfl, rfl⟩ := Prod.mk.inj (Except.ok.inj h)
      exact ⟨[], rfl, fun ys => rfl⟩
  | succ argc ih =>
      intro xs v rest h
      unfold readArgs at h
      split at h
      · cases h
      next arg rest' harg =>
      split at h
      · cases h
      next args rest'' hargs =>
      obtain ⟨rfl, rfl⟩ := Prod.mk.inj (Except.ok.inj h)
      obtain ⟨used, rfl, hread⟩ := readArg_local harg
      obtain ⟨used', rfl, hread'⟩ := ih hargs
      refine ⟨used ++ used', (List.append_assoc _ _ _).symm, fun ys => ?_⟩
      rw [List.append_assoc, readArgs, hread]
      dsimp only
      rw [hread']

theorem readArgs_ne_eof {argc : Nat} {xs : Bytes} : readArgs argc xs ≠ .error .eof := by
  have hbody : ∀ len ys, readBody len ys ≠ .error .eof := by
    intro len ys
    unfold readBody
    split
    · nofun
    · split <;> nofun
  have harg : ∀ ys, readArg ys ≠ .error .eof := by
    intro ys
    unfold readArg
    split
    · nofun
    · split
      · nofun
      · exact hbody _ _
  induction argc generalizing xs with
  | zero => nofun
  | succ argc ih =>
      unfold readArgs
      split
      · next tail htail =>
          rintro ⟨⟩
          exact harg _ htail
      · split
        · next tail htail =>
            rintro ⟨⟩
            exact ih htail
        · nofun

/-- A command or a whole annotation. -/
theorem readCommand_local {xs : Bytes} {o : Option (List Bytes)} {k : Nat}
    (h : readCommand lookupCommand xs = .ok (o, k)) :
    ∃ used rest, xs = used ++ rest ∧ used.length = k ∧ 0 < k ∧
      ∀ ys, readCommand lookupCommand (used ++ ys) = .ok (o, k) := by
  unfold readCommand at h
  split at h
  · cases h
  next l hl =>
  have happ := congrArg List.length (fgets_append hl)
  have hlt := fgets_rest_lt (by decide) hl
  rw [List.length_append] at happ
  split at h
  · next hhash =>
      split at h
      · cases h
      · next heof =>
          obtain ⟨rfl, rfl⟩ := Prod.mk.inj (Except.ok.inj h)
          refine ⟨l.text, l.rest, (fgets_append hl).symm, by omega, by omega, fun ys => ?_⟩
          rw [readCommand, fgets_whole (by decide) hl (by simpa using heof)]
          dsimp only
          rw [if_pos hhash, if_neg (by simp), List.length_append]
          congr 2
          omega
  · next hhash =>
      split at h
      · cases h
      next hstar =>
      split at h
      · cases h
      next hdigit =>
      dsimp only at h
      split at h
      · cases h
      next hargc =>
      split at h
      · cases h
      next hargc' =>
      split at h
      · cases h
      next argv rest hargs =>
      split at h
      · next hknown =>
          obtain ⟨rfl, rfl⟩ := Prod.mk.inj (Except.ok.inj h)
          cases heof : l.eof with
          | true =>
              -- there is at least one argument, and none can be read
              obtain ⟨n, hn⟩ : ∃ n, (atoi l.text.tail).toNat = n + 1 := Nat.exists_eq_add_one.mpr (by omega)
              rw [fgets_rest hl heof, hn] at hargs
              cases hargs
          | false =>
              obtain ⟨used, hused, hread⟩ := readArgs_local _ hargs
              have hlen := congrArg List.length hused
              rw [List.length_append] at hlen
              refine ⟨l.text ++ used, rest, ?_, ?_, by omega, fun ys => ?_⟩
              · rw [List.append_assoc, ← hused, fgets_append hl]
              · rw [List.length_append]
                omega
              · rw [List.append_assoc, readCommand, fgets_whole (by decide) hl heof]
                dsimp only
                rw [if_neg hhash, if_neg hstar, if_neg hdigit, if_neg hargc, if_neg hargc', hread]
                dsimp only
                rw [if_pos hknown, List.length_append, List.length_append]
                congr 2
                omega
      · cases h

theorem readCommand_eof {xs : Bytes} (h : readCommand lookupCommand xs = .error .eof) : xs = [] := by
  unfold readCommand at h
  split at h
  · next hl => exact fgets_none_iff.mp hl
  next l hl =>
  exfalso
  split at h
  · split at h <;> cases h
  split at h
  · cases h
  split at h
  · split at h <;> cases h
  dsimp only at h
  split at h
  · cases h
  split at h
  · cases h
  split at h
  · next tail htail =>
      obtain rfl := Except.error.inj h
      exact readArgs_ne_eof htail
  · split at h <;> cases h

end Rounds

/-- The loop of `loadSingleAppendOnlyFile` as a reader. -/
def commandReader (lookupCommand : List Bytes → Bool) : Reader UInt8 (Option (List Bytes)) Tail where
  read := readCommand lookupCommand
  eof := .eof
  read_nil := rfl
  eq_nil := readCommand_eof
  pos := by
    intro xs o k h
    obtain ⟨used, rest, -, -, hpos, -⟩ := readCommand_local h
    exact hpos
  le := by
    intro xs o k h
    obtain ⟨used, rest, rfl, rfl, -, -⟩ := readCommand_local h
    simp
  read_take := by
    intro xs o k h ys
    obtain ⟨used, rest, rfl, rfl, -, hread⟩ := readCommand_local h
    rw [List.take_left]
    exact hread ys

/-- The commands that `loadSingleAppendOnlyFile` reads, with the offsets behind them, and where it stops. An
annotation that is not complete is skipped like the others. -/
def loadCommands (lookupCommand : List Bytes → Bool) (pos : Nat) (xs : Bytes) : List (List Bytes × Nat) × Tail :=
  let read := (commandReader lookupCommand).items pos xs
  (read.1.filterMap fun r => r.1.map (·, r.2), if read.2 = .torn then .eof else read.2)

section Loading

variable {xs : Bytes} {k : Nat}

@[simp] theorem loadCommands_nil (pos : Nat) : loadCommands lookupCommand pos [] = ([], .eof) := rfl

theorem loadCommands_error {tail : Tail} (pos : Nat) (h : readCommand lookupCommand xs = .error tail) :
    loadCommands lookupCommand pos xs = ([], if tail = .torn then .eof else tail) := by
  rw [loadCommands, @Reader.items_error _ _ _ (commandReader lookupCommand) xs tail pos h]
  rfl

theorem loadCommands_skip (pos : Nat) (h : readCommand lookupCommand xs = .ok (none, k)) :
    loadCommands lookupCommand pos xs = loadCommands lookupCommand (pos + k) (xs.drop k) := by
  rw [loadCommands, @Reader.items_ok _ _ _ (commandReader lookupCommand) xs none k pos h]
  rfl

theorem loadCommands_ok {argv : List Bytes} (pos : Nat) (h : readCommand lookupCommand xs = .ok (some argv, k)) :
    loadCommands lookupCommand pos xs =
      ((argv, pos + k) :: (loadCommands lookupCommand (pos + k) (xs.drop k)).1,
        (loadCommands lookupCommand (pos + k) (xs.drop k)).2) := by
  rw [loadCommands, @Reader.items_ok _ _ _ (commandReader lookupCommand) xs (some argv) k pos h]
  rfl

end Loading

/-! ## Writing -/

/-- One piece of the file. -/
inductive Item where
  | timestamp (unixtime : Int)
  | command (argv : List Bytes)
  deriving DecidableEq, Repr

namespace Item

/-- The bytes that `genAofTimestampAnnotationIfNeeded` and `catAppendOnlyGenericCommand` print. -/
def text : Item → Bytes
  | timestamp unixtime => numberLine (bytes "#TS:") unixtime
  | command argv => commandText argv

/-- A `time_t`, and arguments that can be read. -/
def Fits : Item → Prop
  | timestamp unixtime => -2 ^ 63 ≤ unixtime ∧ unixtime < 2 ^ 63
  | command argv => Redis.Fits argv

def isCommand : Item → Bool
  | timestamp _ => false
  | command _ => true

end Item

def fileText (items : List Item) : Bytes := items.flatMap Item.text

/-- The commands among the items, with the offsets behind them. -/
def entries (pos : Nat) : List Item → List (List Bytes × Nat)
  | [] => []
  | .timestamp unixtime :: items => entries (pos + (Item.timestamp unixtime).text.length) items
  | .command argv :: items =>
    (argv, pos + (commandText argv).length) :: entries (pos + (commandText argv).length) items

@[simp] theorem fileText_nil : fileText [] = [] := rfl

@[simp] theorem fileText_cons (item : Item) (items : List Item) :
    fileText (item :: items) = item.text ++ fileText items := rfl

@[simp] theorem fileText_append (items more : List Item) :
    fileText (items ++ more) = fileText items ++ fileText more :=
  List.flatMap_append

/-! ## Reading what was written -/

section Args

/-- There is a newline at the end of the line only, and the line fits the buffer. -/
theorem numberLine_line {start : Bytes} {z : Int} (hstart : ∀ c ∈ start, c ≠ 10) (hlen : start.length ≤ 4)
    (hlow : -2 ^ 63 ≤ z) (hhigh : z < 2 ^ 63) :
    ∃ line, numberLine start z = line ++ [10] ∧ (∀ c ∈ line, c ≠ 10) ∧ line.length ≤ 25 := by
  have hdecimal := length_decimal_le hlow hhigh
  refine ⟨start ++ (decimal z ++ [13]), by simp [numberLine, crlf], ?_, ?_⟩
  · rintro c hc rfl
    simp only [List.mem_append, List.mem_singleton] at hc
    rcases hc with hc | hc | hc
    · exact hstart 10 hc rfl
    · rcases mem_decimal hc with hc | hc <;> exact absurd hc (by decide)
    · exact absurd hc (by decide)
  · simp
    omega

theorem fgets_numberLine {start : Bytes} {z : Int} (hstart : ∀ c ∈ start, c ≠ 10) (hlen : start.length ≤ 4)
    (hlow : -2 ^ 63 ≤ z) (hhigh : z < 2 ^ 63) (rest : Bytes) :
    fgets aofAnnotationLineMaxLen (numberLine start z ++ rest) = some ⟨numberLine start z, rest, false⟩ := by
  obtain ⟨line, heq, hline, hfits⟩ := numberLine_line hstart hlen hlow hhigh
  rw [heq, List.append_assoc]
  exact fgets_line rest hline (by rw [aofAnnotationLineMaxLen]; omega)

/-- What is left of the line in front of a cut. -/
theorem fgets_torn {start : Bytes} {z : Int} (hstart : ∀ c ∈ start, c ≠ 10) (hlen : start.length ≤ 4)
    (hlow : -2 ^ 63 ≤ z) (hhigh : z < 2 ^ 63) {n : Nat} (hpos : 0 < n) (hn : n < (numberLine start z).length) :
    fgets aofAnnotationLineMaxLen ((numberLine start z).take n) = some ⟨(numberLine start z).take n, [], true⟩ := by
  obtain ⟨line, heq, hline, hfits⟩ := numberLine_line hstart hlen hlow hhigh
  rw [heq, List.length_append, List.length_singleton] at hn
  rw [heq, List.take_append_of_le_length (by omega)]
  apply fgets_eof
  · exact fun c hc => hline c (List.mem_of_mem_take hc)
  · rw [ne_eq, ← List.length_eq_zero_iff, List.length_take]
    omega
  · rw [List.length_take, aofAnnotationLineMaxLen]
    omega

/-- The digits end where the line does. -/
theorem head_crlf (rest : Bytes) : ∀ b ∈ (crlf ++ rest).head?, isDigit b = false := by
  intro b hb
  obtain rfl : 13 = b := by simpa [crlf] using hb
  rfl

theorem strtol_length {s : Bytes} (hs : s.length < 2 ^ 31) :
    (strtol (decimal s.length ++ crlf) % 2 ^ 32).toNat = s.length := by
  have hread := @strtol_decimal s.length (by omega) (by omega) (crlf ++ []) (head_crlf [])
  rw [List.append_nil] at hread
  rw [hread]
  omega

theorem dollar_ne_newline : ∀ c ∈ ([36] : Bytes), c ≠ 10 := by simp

theorem readArg_bulk {s : Bytes} (hs : s.length < 2 ^ 31) (rest : Bytes) :
    readArg (bulk s ++ rest) = .ok (s, rest) := by
  have hline := @fgets_numberLine [36] s.length dollar_ne_newline (by simp) (by omega) (by omega) (s ++ (crlf ++ rest))
  rw [bulk, List.append_assoc, List.append_assoc, readArg, hline]
  dsimp only
  have hlen : (strtol (numberLine [36] s.length).tail % 2 ^ 32).toNat = s.length := strtol_length hs
  rw [if_neg (by simp [numberLine]), hlen]
  exact readBody_append rfl rest

theorem readArgs_bulks {argv : List Bytes} (hargs : ∀ s ∈ argv, s.length < 2 ^ 31) (rest : Bytes) :
    readArgs argv.length (argv.flatMap bulk ++ rest) = .ok (argv, rest) := by
  induction argv with
  | nil => rfl
  | cons s argv ih =>
      have harg := readArg_bulk (hargs s List.mem_cons_self) (argv.flatMap bulk ++ rest)
      rw [List.length_cons, List.flatMap_cons, List.append_assoc, readArgs, harg]
      dsimp only
      rw [ih fun s' hs' => hargs s' (List.mem_cons_of_mem s hs')]

/-- Reading an argument that was cut fails at the end of the file. -/
theorem readArg_torn {s : Bytes} (hs : s.length < 2 ^ 31) {n : Nat} (hn : n < (bulk s).length) :
    readArg ((bulk s).take n) = .error .short := by
  rcases Nat.eq_zero_or_pos n with rfl | hpos
  · rfl
  have hlow : -2 ^ 63 ≤ (s.length : Int) := by omega
  have hhigh : (s.length : Int) < 2 ^ 63 := by omega
  rw [bulk] at hn ⊢
  by_cases hheader : n < (numberLine [36] s.length).length
  · -- nothing follows the line
    have hhead : ((numberLine [36] s.length).take n).head? = some 36 := by
      obtain ⟨m, rfl⟩ := Nat.exists_eq_add_one.mpr hpos
      rfl
    rw [List.take_append_of_le_length (by omega), readArg,
      fgets_torn dollar_ne_newline (by simp) hlow hhigh hpos hheader]
    dsimp only
    rw [if_neg (by simp [hhead])]
    exact readBody_short (by simp)
  · -- the bytes or the two behind them are missing
    have hlen : (strtol (numberLine [36] s.length).tail % 2 ^ 32).toNat = s.length := strtol_length hs
    rw [List.take_append, List.take_of_length_le (by omega), readArg,
      fgets_numberLine dollar_ne_newline (by simp) hlow hhigh]
    dsimp only
    rw [if_neg (by simp [numberLine]), hlen]
    apply readBody_short
    have hcrlf : (s ++ crlf).length = s.length + 2 := by simp [crlf]
    rw [List.length_append] at hn
    rw [List.length_take]
    omega

theorem readArgs_torn {argv : List Bytes} (hargs : ∀ s ∈ argv, s.length < 2 ^ 31) {n : Nat}
    (hn : n < (argv.flatMap bulk).length) : readArgs argv.length ((argv.flatMap bulk).take n) = .error .short := by
  induction argv generalizing n with
  | nil => exact absurd hn (Nat.not_lt_zero n)
  | cons s argv ih =>
      have hs := hargs s List.mem_cons_self
      rw [List.flatMap_cons, List.length_append] at hn
      rw [List.flatMap_cons, List.length_cons]
      by_cases hfirst : n < (bulk s).length
      · rw [List.take_append_of_le_length (by omega), readArgs, readArg_torn hs hfirst]
      · rw [List.take_append, List.take_of_length_le (by omega), readArgs, readArg_bulk hs]
        dsimp only
        rw [ih (fun s' hs' => hargs s' (List.mem_cons_of_mem s hs')) (by omega)]

end Args

section Items

theorem hash_ne_newline : ∀ c ∈ bytes "#TS:", c ≠ 10 := by
  have hbytes : bytes "#TS:" = [35, 84, 83, 58] := rfl
  simp [hbytes]

theorem star_ne_newline : ∀ c ∈ ([42] : Bytes), c ≠ 10 := by simp

theorem readCommand_timestamp {unixtime : Int} (h : (Item.timestamp unixtime).Fits) (xs : Bytes) :
    readCommand lookupCommand ((Item.timestamp unixtime).text ++ xs) =
      .ok (none, (Item.timestamp unixtime).text.length) := by
  have hline := @fgets_numberLine (bytes "#TS:") unixtime hash_ne_newline (by decide) h.1 h.2 xs
  have hhead : (numberLine (bytes "#TS:") unixtime).head? = some 35 := rfl
  rw [Item.text, readCommand, hline]
  dsimp only
  rw [if_pos hhead, if_neg (by simp), List.length_append, Nat.add_sub_cancel]

/-- A `#TS:` line that was cut is a `#TS:` line without its end. -/
theorem readCommand_torn_timestamp {unixtime : Int} (h : (Item.timestamp unixtime).Fits) {n : Nat} (hpos : 0 < n)
    (hn : n < (Item.timestamp unixtime).text.length) :
    readCommand lookupCommand ((Item.timestamp unixtime).text.take n) = .error .torn := by
  have hhead : ((numberLine (bytes "#TS:") unixtime).take n).head? = some 35 := by
    obtain ⟨m, rfl⟩ := Nat.exists_eq_add_one.mpr hpos
    rfl
  rw [Item.text, readCommand, fgets_torn hash_ne_newline (by decide) h.1 h.2 hpos hn]
  dsimp only
  rw [if_pos hhead, if_pos rfl]

theorem decimal_pos {v : Nat} (hv : 0 < v) :
    ∃ c rest, decimal v = c :: rest ∧ (49 ≤ c.toNat ∧ c.toNat ≤ 57) ∧ rest.all isDigit = true ∧
      v = valueFrom (c.toNat - 48) rest := by
  have hdecimal : decimal v = digits v := by
    rw [decimal, if_neg (by omega), Int.natAbs_natCast]
  rw [hdecimal]
  exact digits_pos hv

theorem argc_ne_zero {argc : Nat} (h : 0 < argc) : (numberLine [42] argc).getD 1 0 ≠ 0 := by
  obtain ⟨c, rest, hdecimal, ⟨hlow, -⟩, -⟩ := decimal_pos h
  simp only [numberLine, hdecimal, List.cons_append, List.nil_append, List.getD_cons_succ, List.getD_cons_zero]
  rintro rfl
  exact absurd hlow (by decide)

/-- What a cut leaves of the digits of a number is a positive number that is not larger. -/
theorem atoi_take {v n : Nat} (hv : 0 < v) (hle : v ≤ 2 ^ 30 - 1) (hn : 0 < n) :
    ∃ m : Nat, atoi ((decimal v ++ crlf).take n) = m ∧ 0 < m ∧ m ≤ v := by
  obtain ⟨c, rest, hdecimal, ⟨hlow, hhigh⟩, hall, hval⟩ := decimal_pos hv
  obtain ⟨k, rfl⟩ := Nat.exists_eq_add_one.mpr hn
  have hdigit : isDigit c = true := (isDigit_iff c).mpr (by omega)
  have hsign : c ≠ 45 ∧ c ≠ 43 := by
    constructor <;> rintro rfl <;> exact absurd hdigit (by decide)
  have hrest : ((rest ++ crlf).take k).takeWhile isDigit = rest.take k := by
    rw [← List.take_takeWhile, List.takeWhile_append_of_pos (by simpa using hall)]
    simp [crlf, isDigit]
  have hnumber : number ((decimal v ++ crlf).take (k + 1)) = valueFrom (c.toNat - 48) (rest.take k) := by
    rw [hdecimal, List.cons_append, List.take_succ_cons, number, List.dropWhile_cons, isSpace_of_isDigit hdigit]
    simp only [Bool.false_eq_true, if_false, if_neg hsign.1, if_neg hsign.2]
    rw [List.takeWhile_cons_of_pos hdigit, hrest]
    simp [digitsValue, valueFrom]
  have hlower := le_valueFrom (c.toNat - 48) (rest.take k)
  have hupper : valueFrom (c.toNat - 48) (rest.take k) ≤ v := by
    have hle' := le_valueFrom (valueFrom (c.toNat - 48) (rest.take k)) (rest.drop k)
    rw [valueFrom, valueFrom, ← List.foldl_append, List.take_append_drop] at hle'
    exact hle'.trans_eq hval.symm
  refine ⟨_, ?_, by omega, hupper⟩
  rw [atoi, hnumber]
  exact Int.bmod_eq_of_le (by omega) (by omega)

theorem atoi_argc {argc : Nat} (h : argc ≤ 2 ^ 30 - 1) : atoi (numberLine [42] argc).tail = argc := by
  have hread := @atoi_decimal argc (by omega) (by omega) (crlf ++ []) (head_crlf [])
  rwa [List.append_nil] at hread

theorem readCommand_command {argv : List Bytes} (h : Fits argv) (hknown : lookupCommand argv = true) (xs : Bytes) :
    readCommand lookupCommand (commandText argv ++ xs) = .ok (some argv, (commandText argv).length) := by
  have hargc := h.argc_le
  have hpos := h.argc_pos
  have hline := @fgets_numberLine [42] argv.length star_ne_newline (by simp) (by omega) (by omega)
    (argv.flatMap bulk ++ xs)
  have hsize : (commandText argv ++ xs).length - xs.length = (commandText argv).length := by simp
  rw [readCommand]
  conv_lhs => rw [commandText, List.append_assoc, hline]
  dsimp only
  rw [if_neg (by simp [numberLine]), if_neg (by simp [numberLine]), if_neg (argc_ne_zero hpos), atoi_argc hargc,
    if_neg (by omega), if_neg (by omega), Int.toNat_natCast, readArgs_bulks h.args]
  dsimp only
  rw [if_pos hknown, ← List.append_assoc, ← commandText, hsize]

/-- A command that was cut ends unexpectedly, whatever it was. -/
theorem readCommand_torn_command {argv : List Bytes} (h : Fits argv) {n : Nat} (hpos : 0 < n)
    (hn : n < (commandText argv).length) : readCommand lookupCommand ((commandText argv).take n) = .error .short := by
  have hargc := h.argc_le
  have hargc' := h.argc_pos
  have hlow : -2 ^ 63 ≤ (argv.length : Int) := by omega
  have hhigh : (argv.length : Int) < 2 ^ 63 := by omega
  rw [commandText] at hn ⊢
  by_cases hheader : n < (numberLine [42] argv.length).length
  · -- the number of arguments was cut
    have hhead : ((numberLine [42] argv.length).take n).head? = some 42 := by
      obtain ⟨m, rfl⟩ := Nat.exists_eq_add_one.mpr hpos
      rfl
    rw [List.take_append_of_le_length (by omega), readCommand,
      fgets_torn star_ne_newline (by simp) hlow hhigh hpos hheader]
    dsimp only
    rw [if_neg (by simp [hhead]), if_neg (by simp [hhead])]
    split
    · rfl
    · next hdigit =>
        obtain ⟨k, rfl⟩ : ∃ k, n = k + 2 := by
          refine Nat.exists_eq_add_of_le' (Nat.lt_of_le_of_ne hpos ?_)
          rintro rfl
          exact hdigit rfl
        have htail : ((numberLine [42] argv.length).take (k + 2)).tail = (decimal argv.length ++ crlf).take (k + 1) :=
          rfl
        obtain ⟨m, hm, hm', hle⟩ := @atoi_take argv.length (k + 1) (by omega) (by omega) (by omega)
        obtain ⟨m, rfl⟩ := Nat.exists_eq_add_one.mpr hm'
        rw [htail, hm, if_neg (by omega), if_neg (by omega)]
        rfl
  · -- an argument was cut
    rw [List.length_append] at hn
    rw [List.take_append, List.take_of_length_le (by omega), readCommand,
      fgets_numberLine star_ne_newline (by simp) hlow hhigh]
    dsimp only
    rw [if_neg (by simp [numberLine]), if_neg (by simp [numberLine]), if_neg (argc_ne_zero hargc'), atoi_argc hargc,
      if_neg (by omega), if_neg (by omega), Int.toNat_natCast, readArgs_torn h.args (by omega)]

theorem loadCommands_timestamp {unixtime : Int} (h : (Item.timestamp unixtime).Fits) (pos : Nat) (xs : Bytes) :
    loadCommands lookupCommand pos ((Item.timestamp unixtime).text ++ xs) =
      loadCommands lookupCommand (pos + (Item.timestamp unixtime).text.length) xs := by
  rw [loadCommands_skip pos (readCommand_timestamp h xs), List.drop_left]

theorem loadCommands_command {argv : List Bytes} (h : Fits argv) (hknown : lookupCommand argv = true) (pos : Nat)
    (xs : Bytes) :
    loadCommands lookupCommand pos (commandText argv ++ xs) =
      ((argv, pos + (commandText argv).length) ::
        (loadCommands lookupCommand (pos + (commandText argv).length) xs).1,
        (loadCommands lookupCommand (pos + (commandText argv).length) xs).2) := by
  rw [loadCommands_ok pos (readCommand_command h hknown xs), List.drop_left]

end Items

/-! ## Files -/

section Files

variable {items more : List Item}

theorem loadCommands_append (hfits : ∀ item ∈ items, item.Fits)
    (hknown : ∀ argv, .command argv ∈ items → lookupCommand argv = true) (pos : Nat) (xs : Bytes) :
    loadCommands lookupCommand pos (fileText items ++ xs) =
      (entries pos items ++ (loadCommands lookupCommand (pos + (fileText items).length) xs).1,
        (loadCommands lookupCommand (pos + (fileText items).length) xs).2) := by
  induction items generalizing pos with
  | nil => rfl
  | cons item items ih =>
      have hrest := ih (fun i hi => hfits i (List.mem_cons_of_mem item hi))
        (fun argv hi => hknown argv (List.mem_cons_of_mem item hi))
      have hitem := hfits item List.mem_cons_self
      rw [fileText_cons, List.append_assoc, List.length_append, ← Nat.add_assoc]
      cases item with
      | timestamp unixtime =>
          rw [loadCommands_timestamp hitem, hrest]
          rfl
      | command argv =>
          rw [Item.text, loadCommands_command hitem (hknown argv List.mem_cons_self), hrest]
          rfl

/-- **Loading what was written.** The commands of a complete file are loaded in their order, with the offsets
behind them. -/
theorem loadCommands_fileText (hfits : ∀ item ∈ items, item.Fits)
    (hknown : ∀ argv, .command argv ∈ items → lookupCommand argv = true) (pos : Nat) :
    loadCommands lookupCommand pos (fileText items) = (entries pos items, .eof) := by
  have hload := loadCommands_append hfits hknown pos []
  rw [List.append_nil] at hload
  rw [hload, loadCommands_nil, List.append_nil]

/-! ### Files that are continued -/

/-- The first item is a command. -/
def startsWithCommand (items : List Item) : Bool := items.head?.any Item.isCommand

/-- A line that is appended to a `#TS:` line that was cut is a part of it. -/
theorem loadCommands_timestamp_line {unixtime : Int} (h : (Item.timestamp unixtime).Fits) {n : Nat} (hpos : 0 < n)
    (hn : n < (Item.timestamp unixtime).text.length) {start : Bytes} {z : Int} (hstart : ∀ c ∈ start, c ≠ 10)
    (hlen : start.length ≤ 4) (hlow : -2 ^ 63 ≤ z) (hhigh : z < 2 ^ 63) (pos : Nat) (rest : Bytes) :
    loadCommands lookupCommand pos ((Item.timestamp unixtime).text.take n ++ (numberLine start z ++ rest)) =
      loadCommands lookupCommand (pos + (n + (numberLine start z).length)) rest := by
  obtain ⟨ts, heq, hts, hfits⟩ := numberLine_line hash_ne_newline (by decide) h.1 h.2
  obtain ⟨line, heq', hline, hfits'⟩ := numberLine_line hstart hlen hlow hhigh
  have htake : (Item.timestamp unixtime).text.take n = ts.take n := by
    rw [Item.text, heq, List.length_append, List.length_singleton] at hn
    rw [Item.text, heq, List.take_append_of_le_length (by omega)]
  have hlength : (ts.take n).length = n := by
    rw [← htake, List.length_take]
    omega
  have hhead : (ts.take n ++ line ++ [10]).head? = some 35 := by
    obtain ⟨m, rfl⟩ := Nat.exists_eq_add_one.mpr hpos
    rw [← htake]
    rfl
  have hread := @fgets_line aofAnnotationLineMaxLen (ts.take n ++ line) rest
    (fun c hc => (List.mem_append.mp hc).elim (fun hc => hts c (List.mem_of_mem_take hc)) (hline c))
    (by rw [List.length_append, List.length_take, aofAnnotationLineMaxLen]; omega)
  have hsize : (ts.take n ++ line ++ 10 :: rest).length - rest.length = n + (numberLine start z).length := by
    rw [heq', List.length_append, List.length_append, List.length_append, hlength]
    simp
    omega
  have htext : ts.take n ++ (numberLine start z ++ rest) = ts.take n ++ line ++ 10 :: rest := by simp [heq']
  have hround : readCommand lookupCommand (ts.take n ++ line ++ 10 :: rest) =
      .ok (none, n + (numberLine start z).length) := by
    rw [readCommand, hread]
    dsimp only
    rw [if_pos hhead, if_neg (by simp), hsize]
  have hdrop : (ts.take n ++ line ++ 10 :: rest).drop (n + (numberLine start z).length) = rest := by
    rw [← htext, ← List.append_assoc]
    exact List.drop_left' (by rw [List.length_append, hlength])
  rw [htake, htext, loadCommands_skip pos hround, hdrop]

/-- An argument is no command. -/
theorem loadCommands_bulk {s : Bytes} (hs : s.length < 2 ^ 31) (pos : Nat) (xs : Bytes) :
    loadCommands lookupCommand pos (bulk s ++ xs) = ([], .bad) := by
  have hline := @fgets_numberLine [36] s.length dollar_ne_newline (by simp) (by omega) (by omega) (s ++ crlf ++ xs)
  have hround : readCommand lookupCommand (bulk s ++ xs) = .error .bad := by
    rw [bulk, List.append_assoc, readCommand, hline]
    dsimp only
    rw [if_neg (by simp [numberLine]), if_pos (by simp [numberLine])]
  exact loadCommands_error pos hround

/-- **A file that ends inside a `#TS:` line** is taken for complete, and is not cut. It can be continued with
another such line only: with a command, it cannot be loaded any more. -/
theorem loadCommands_cut_timestamp {unixtime : Int} {n : Nat} (hpos : 0 < n)
    (hn : n < (Item.timestamp unixtime).text.length)
    (hfits : ∀ item ∈ items ++ .timestamp unixtime :: more, item.Fits)
    (hknown : ∀ argv, .command argv ∈ items ++ more → lookupCommand argv = true) :
    loadCommands lookupCommand 0 (fileText items ++ (Item.timestamp unixtime).text.take n ++ fileText more) =
      if startsWithCommand more then (entries 0 items, .bad)
      else (entries 0 items ++ entries ((fileText items).length + n) more, .eof) := by
  have hmore : ∀ i ∈ more, i.Fits := fun i hi => hfits i (by simp [hi])
  have hts : (Item.timestamp unixtime).Fits := hfits _ (by simp)
  rw [List.append_assoc, loadCommands_append (fun i hi => hfits i (List.mem_append_left _ hi))
    (fun argv hi => hknown argv (List.mem_append_left more hi)), Nat.zero_add]
  cases more with
  | nil =>
      rw [fileText_nil, List.append_nil, loadCommands_error _ (readCommand_torn_timestamp hts hpos hn)]
      rfl
  | cons item more =>
      have hitem := hmore item List.mem_cons_self
      cases item with
      | timestamp unixtime' =>
          have htext : fileText (.timestamp unixtime' :: more) =
              numberLine (bytes "#TS:") unixtime' ++ fileText more := rfl
          rw [htext, loadCommands_timestamp_line hts hpos hn hash_ne_newline (by decide) hitem.1 hitem.2,
            loadCommands_fileText (fun i hi => hmore i (List.mem_cons_of_mem _ hi))
              (fun argv hi => hknown argv (by simp [hi])), ← Nat.add_assoc]
          rfl
      | command argv =>
          -- the arguments of the command are left
          have hargc := Fits.argc_le hitem
          have htext : fileText (.command argv :: more) =
              numberLine [42] argv.length ++ (argv.flatMap bulk ++ fileText more) := by
            simp [Item.text, commandText]
          rw [htext, loadCommands_timestamp_line hts hpos hn star_ne_newline (by simp) (by omega) (by omega)]
          cases argv with
          | nil => exact absurd (Fits.argc_pos hitem) (Nat.lt_irrefl 0)
          | cons s argv =>
              rw [List.flatMap_cons, List.append_assoc, loadCommands_bulk (Fits.args hitem s List.mem_cons_self),
                List.append_nil]
              rfl

/-- The line `#TS:5` without its end. -/
theorem loadCommands_cut_timestamp_command :
    loadCommands (fun _ => true) 0
        (fileText [.command [[71]]] ++ (Item.timestamp 5).text.take 5 ++ fileText [.command [[98]]]) =
      ([([[71]], 11)], .bad) := by
  have hfits : ∀ item ∈ [.command [[71]]] ++ .timestamp 5 :: [.command [[98]]], Item.Fits item := by
    simp [Item.Fits, fits_iff]
  exact @loadCommands_cut_timestamp (fun _ => true) [.command [[71]]] [.command [[98]]] 5 5 (by decide) (by decide)
    hfits (fun _ _ => rfl)

end Files

end WasiPorts.Redis.Aof
