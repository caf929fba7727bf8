import WasiPorts.Redis.Aof.TextFormat
import WasiPorts.Redis.Aof.Truncated

/-!
# Files of bytes that were cut

An INCR file as the server prints it, transactions and `#TS:` lines included, cut at any byte, as `readAof` loads it.

* `readAof_lines_take` — what is executed, whether the end is unexpected, and where the file is cut.
* `truncated_lines_continue` — what is left of the file loads to the same dataset and can be continued, unless the
  cut was inside a command of an open transaction.
-/

namespace WasiPorts.Redis.Aof

open WasiPorts.Stream WasiPorts.Text

variable {lk : LookupCommand} {δ : Type}

/-! ## Printed files -/

/-- A record, and the time at which it is printed. -/
abbrev PrintedRec (lk : LookupCommand) (δ : Type) : Type := Rec (TextCommand lk) δ × Int

namespace PrintedRec

def text (l : PrintedRec lk δ) : List (Cell lk δ) := Aof.text l.2 l.1

/-- No RDB preamble; a `time_t`. -/
structure Ok (l : PrintedRec lk δ) : Prop where
  noBase : ∀ d u, l.1 ≠ .base d u
  time : (Item.timestamp l.2).Fits

theorem Ok.prints {l : PrintedRec lk δ} (h : l.Ok) : Stream.Prints (recordReader lk δ) text Prod.fst l :=
  fun ys => text_prints h.time h.noBase ys

end PrintedRec

/-- The file. -/
def fileCells (lines : List (PrintedRec lk δ)) : List (Cell lk δ) := lines.flatMap PrintedRec.text

/-- The records that end in front of the offset `n`, each with the offset behind it. -/
def recordsBefore (lines : List (PrintedRec lk δ)) (n : Nat) : List (Rec (TextCommand lk) δ × Nat) :=
  (ends PrintedRec.text Prod.fst 0 lines).filter (·.2 ≤ n)

def Rec.isTimestamp {A : Type} : Rec A δ → Bool
  | .timestamp => true
  | _ => false

/-- The offset `n` is inside a command. -/
def insideCommand (lines : List (PrintedRec lk δ)) (n : Nat) : Bool :=
  (cutItem PrintedRec.text lines n).any fun l => !l.1.isTimestamp

/-- A `MULTI` inside a transaction. -/
def nests {A : Type} (inside : Bool) : List (Rec A δ) → Bool
  | [] => false
  | r :: rs => (inside && r.isMulti) || nests (nextInside inside r) rs

/-- What is executed of the records `rs`: an open transaction is not. -/
def executed {A : Type} (rs : List (Rec A δ × Nat)) : List (Rec A δ × Nat) :=
  if insideMulti (rs.map (·.1)) then beforeMulti rs else rs

/-- The offset behind the last record that is not a `#TS:` line. -/
def lastEnd {A : Type} (rs : List (Rec A δ × Nat)) : Nat := ((upToValid rs).getLast?.map (·.2)).getD 0

/-! ## Reading what is in front of the cut -/

section Reading

variable {lines more : List (PrintedRec lk δ)}

theorem recordsBefore_eq (h : ∀ l ∈ lines, l.Ok) (n : Nat) :
    recordsBefore lines n = ends PrintedRec.text Prod.fst 0 (complete PrintedRec.text lines n) := by
  have hends := @ends_complete _ _ _ PrintedRec.text Prod.fst lines (fun l hl => (h l hl).prints.pos) 0 n
  rw [Nat.zero_add] at hends
  exact hends.symm

theorem map_recordsBefore_begins (h : ∀ l ∈ lines, l.Ok) (n : Nat) :
    (recordsBefore lines n).map (·.1) <+: lines.map Prod.fst := by
  rw [recordsBefore_eq h, map_ends]
  exact (complete_begins lines n).map Prod.fst

theorem head_fileCells_take (h : ∀ l ∈ lines, l.Ok) (n : Nat) :
    ∀ x ∈ ((fileCells lines).take n).head?, x.byte ≠ 82 := by
  intro x hx
  cases lines with
  | nil => simp [fileCells] at hx
  | cons l lines =>
      obtain ⟨y, ys, htext, hy⟩ := @head_text _ _ l.2 l.1 (h l List.mem_cons_self).noBase
      rw [fileCells, List.flatMap_cons, PrintedRec.text, htext] at hx
      cases n with
      | zero => cases hx
      | succ n =>
          obtain rfl : y = x := Option.some.inj hx
          exact hy

/-- The records in front of the cut, and what was cut. -/
theorem parse_fileCells_take (h : ∀ l ∈ lines, l.Ok) (n : Nat) :
    AofFormat.parse ((fileCells lines).take n) =
      (recordsBefore lines n, ((cutItem PrintedRec.text lines n).map fun l => tornTail l.1).getD .eof) := by
  have htorn : ∀ l ∈ lines, ∀ m, 0 < m → m < (PrintedRec.text l).length →
      (recordReader lk δ).read ((PrintedRec.text l).take m) = .error (tornTail l.1) :=
    fun l hl m hpos hm => text_torn (h l hl).time (h l hl).noBase hpos hm
  show parseText ((fileCells lines).take n) = _
  rw [parseText_of_head (head_fileCells_take h n), recordsBefore_eq h]
  exact items_flatMap_take (fun l hl => (h l hl).prints) htorn 0 n

/-- The end is unexpected inside a command. -/
theorem tornTail_cut (h : ∀ l ∈ lines, l.Ok) (n : Nat) :
    ((cutItem PrintedRec.text lines n).map fun l => tornTail l.1).getD .eof = .short ↔
      insideCommand lines n = true := by
  unfold insideCommand
  cases hcut : cutItem PrintedRec.text lines n with
  | none => simp
  | some l =>
      have hbase := (h l (mem_of_cutItem hcut)).noBase
      obtain ⟨r, time⟩ := l
      cases r with
      | base d u => exact absurd rfl (hbase d u)
      | _ => simp [tornTail, Rec.isTimestamp]

theorem tornTail_whole {n : Nat} (hn : insideCommand lines n = false) :
    ((cutItem PrintedRec.text lines n).map fun l => tornTail l.1).getD .eof = .eof ∨
      ((cutItem PrintedRec.text lines n).map fun l => tornTail l.1).getD .eof = .torn := by
  unfold insideCommand at hn
  cases hcut : cutItem PrintedRec.text lines n with
  | none => exact .inl rfl
  | some l =>
      rw [hcut] at hn
      obtain ⟨r, time⟩ := l
      cases r with
      | timestamp => exact .inr rfl
      | _ => simp [Rec.isTimestamp] at hn

/-- Records that are appended to a complete file. -/
theorem parse_append_lines {xs : List (Cell lk δ)} (hmore : ∀ l ∈ more, l.Ok)
    (h : (AofFormat.parse xs).2 = .eof) :
    AofFormat.parse (xs ++ fileCells more) =
      ((AofFormat.parse xs).1 ++ ends PrintedRec.text Prod.fst xs.length more, .eof) := by
  induction more generalizing xs with
  | nil =>
      rw [fileCells, List.flatMap_nil, List.append_nil, ends, List.append_nil, ← h]
  | cons l more ih =>
      have hl := hmore l List.mem_cons_self
      have hone : AofFormat.parse (xs ++ PrintedRec.text l) = _ := parseText_append hl.time h hl.noBase
      have hrest := @ih (xs ++ PrintedRec.text l) (fun l' hl' => hmore l' (List.mem_cons_of_mem l hl')) (by rw [hone])
      rw [fileCells, List.flatMap_cons, ← List.append_assoc]
      rw [fileCells] at hrest
      rw [hrest, hone, List.append_assoc, List.length_append]
      rfl

end Reading

/-! ## Transactions -/

section Transactions

variable {A : Type}

/-- Where a `MULTI` stands, no transaction is open. -/
theorem outside_of_nests {rs front : List (Rec A δ)} {inside : Bool} (h : nests inside rs = false)
    (hfront : front ++ [.multi] <+: rs) : front.foldl nextInside inside = false := by
  induction front generalizing inside rs with
  | nil =>
      obtain ⟨suf, rfl⟩ := hfront
      simpa [nests, Rec.isMulti] using (Bool.or_eq_false_iff.mp h).1
  | cons r front ih =>
      obtain ⟨suf, rfl⟩ := hfront
      exact ih (Bool.or_eq_false_iff.mp h).2 (List.prefix_append _ suf)

theorem outside_beforeMulti {rs : List (Rec A δ × Nat)} (hnest : nests false (rs.map (·.1)) = false)
    (h : insideMulti (rs.map (·.1)) = true) : insideMulti ((beforeMulti rs).map (·.1)) = false := by
  obtain ⟨r, suf, hsplit, hr, -⟩ := beforeMulti_split h
  refine outside_of_nests hnest ⟨suf.map (·.1), ?_⟩
  nth_rewrite 2 [hsplit]
  rw [List.map_append, List.map_cons, hr, List.append_assoc]
  rfl

theorem nests_front {rs front : List (Rec A δ)} {inside : Bool} (h : nests inside rs = false)
    (hfront : front <+: rs) : nests inside front = false := by
  induction front generalizing inside rs with
  | nil => rfl
  | cons r front ih =>
      obtain ⟨suf, rfl⟩ := hfront
      obtain ⟨hr, hrest⟩ := Bool.or_eq_false_iff.mp h
      exact Bool.or_eq_false_iff.mpr ⟨hr, ih hrest (List.prefix_append front suf)⟩

theorem executed_begins (rs : List (Rec A δ × Nat)) : executed rs <+: rs := by
  unfold executed
  split
  · exact (List.dropLast_prefix _).trans (List.rdropWhile_prefix _ _)
  · exact List.prefix_rfl

theorem outside_executed {rs : List (Rec A δ × Nat)} (hnest : nests false (rs.map (·.1)) = false) :
    insideMulti ((executed rs).map (·.1)) = false := by
  unfold executed
  split
  · next h => exact outside_beforeMulti hnest h
  · next h => simpa using h

theorem replay_executed [Commands A δ] {rs : List (Rec A δ × Nat)} (hnest : nests false (rs.map (·.1)) = false)
    (d : δ) : (replay (rs.map (·.1)) d).data = (replay ((executed rs).map (·.1)) d).data := by
  unfold executed
  split
  · next h => exact replay_beforeMulti (outside_beforeMulti hnest h) h d
  · rfl

end Transactions

/-! ## A transaction

The dataset records the commands executed. -/

instance : Commands (TextCommand lk) (List (Nat × List Bytes)) where
  empty := []
  apply db argv d := d ++ [(db, argv.1)]

/-- One command in a transaction, behind an annotation. -/
def transactionLines : List (PrintedRec knowsAll (List (Nat × List Bytes))) :=
  [(.timestamp, 5), (.select 3, 5), (.multi, 5), (.command ⟨[[71]], by decide +kernel⟩ 3 0, 5), (.exec, 5)]

theorem transactionLines_ok : ∀ l ∈ transactionLines, l.Ok := by
  have htime : (Item.timestamp 5).Fits := by simp [Item.Fits]
  simp only [transactionLines, List.mem_cons, List.not_mem_nil, or_false]
  rintro l (rfl | rfl | rfl | rfl | rfl) <;> exact ⟨by simp, htime⟩

/-! ## Loading a file that was cut -/

section Loading

variable [Commands (TextCommand lk) δ] {lines : List (PrintedRec lk δ)}

/-- **A file that was cut.** What is executed are the commands in front of the cut, without those of an open
transaction. The end is unexpected exactly if it is inside a command or a transaction. -/
theorem readAof_lines_take (h : ∀ l ∈ lines, l.Ok) (hnest : nests false (lines.map Prod.fst) = false) (lt : Bool)
    (d : δ) (n : Nat) :
    let rs := recordsBefore lines n
    let data := (replay ((executed rs).map (·.1)) d).data
    readAof lt ((fileCells lines).take n) d =
      if (fileCells lines).take n = [] then (.empty, d, none)
      else if insideCommand lines n then unexpectedEof lt (lastEnd rs) data
      else if insideMulti (rs.map (·.1)) then unexpectedEof lt (lastEnd (executed rs)) data
      else (.ok, data, none) := by
  dsimp only
  have hdata := replay_executed (nests_front hnest (map_recordsBefore_begins h n)) d
  unfold readAof
  split
  · rfl
  rw [parse_fileCells_take h n]
  dsimp only
  cases hinside : insideCommand lines n with
  | true =>
      rw [(tornTail_cut h n).mpr hinside, if_pos rfl]
      dsimp only
      rw [valid_upTo, hdata]
      rfl
  | false =>
      rw [if_neg Bool.false_ne_true]
      -- the end of what is complete, inside a transaction or not
      have hqueue := replay_isSome ((recordsBefore lines n).map (·.1)) d
      have hend : endOfFile lt (valid (recordsBefore lines n)).beforeMulti
            (replay ((recordsBefore lines n).map (·.1)) d) =
          if insideMulti ((recordsBefore lines n).map (·.1)) then
            unexpectedEof lt (lastEnd (executed (recordsBefore lines n)))
              (replay ((executed (recordsBefore lines n)).map (·.1)) d).data
          else (.ok, (replay ((executed (recordsBefore lines n)).map (·.1)) d).data, none) := by
        rw [endOfFile, ← hqueue, ← hdata]
        split
        · next hnone => rw [if_neg (by simp [hnone])]
        · next hsome =>
            rw [if_pos (Option.isSome_iff_ne_none.mpr hsome), valid_beforeMulti, valid_upTo]
            rw [Option.isSome_iff_ne_none.mpr hsome] at hqueue
            rw [executed, if_pos hqueue.symm]
            rfl
      -- a `#TS:` line that was cut is answered like the end of the file
      rcases tornTail_whole hinside with heof | htorn
      · rw [heof]
        exact hend
      · rw [htorn]
        exact hend

/-- A cut between the queued command and its `EXEC`. -/
theorem readAof_lines_take_queued :
    readAof true ((fileCells transactionLines).take 56) [] = (.truncated, [], some 30) :=
  (readAof_lines_take transactionLines_ok (by decide +kernel) true [] 56).trans (by decide +kernel)

omit [Commands (TextCommand lk) δ] in
/-- Without RDB preambles, only annotations are left out. -/
theorem timestamps_of_quiet (h : ∀ l ∈ lines, l.Ok) {rs : List (Rec (TextCommand lk) δ × Nat)}
    (hrs : rs.map (·.1) <+: lines.map Prod.fst) : ∀ r ∈ rs.rtakeWhile (·.1.quiet), r.1 = .timestamp := by
  intro r hr
  have hquiet := List.mem_rtakeWhile_imp hr
  have hmem := (List.rtakeWhile_suffix _ rs).subset hr
  obtain ⟨l, hl, heq⟩ := List.mem_map.mp (hrs.subset (List.mem_map_of_mem hmem))
  have hbase := (h l hl).noBase
  obtain ⟨r, e⟩ := r
  cases r with
  | timestamp => rfl
  | base d u => exact absurd heq (hbase d u)
  | _ => cases hquiet

omit [Commands (TextCommand lk) δ] in
/-- A cut behind the records `rs`. -/
theorem parse_left (h : ∀ l ∈ lines, l.Ok) {n : Nat} {rs : List (Rec (TextCommand lk) δ × Nat)}
    (hrs : rs <+: recordsBefore lines n) :
    AofFormat.parse (((fileCells lines).take n).take (lastEnd rs)) = (upToValid rs, .eof) := by
  have hprefix : rs <+: (AofFormat.parse ((fileCells lines).take n)).1 := by
    rw [parse_fileCells_take h n]
    exact hrs
  have heq := parse_cut hprefix
  rwa [valid_upTo] at heq

/-- Where the file is cut, if it is. -/
theorem readAof_lines_cut (h : ∀ l ∈ lines, l.Ok) (hnest : nests false (lines.map Prod.fst) = false) {d : δ} {n : Nat}
    (htrunc : (readAof true ((fileCells lines).take n) d).1 = .truncated) :
    readAof true ((fileCells lines).take n) d =
      (.truncated, (replay ((executed (recordsBefore lines n)).map (·.1)) d).data,
        some (lastEnd (if insideCommand lines n then recordsBefore lines n
          else executed (recordsBefore lines n)))) := by
  have hread := readAof_lines_take h hnest true d n
  dsimp only at hread
  rw [hread] at htrunc ⊢
  split at htrunc
  · cases htrunc
  next hne =>
  rw [if_neg hne]
  split at htrunc
  · next hinside =>
      rw [if_pos hinside, if_pos hinside]
      rfl
  next hinside =>
  rw [if_neg hinside, if_neg hinside]
  split at htrunc
  · next hmulti =>
      rw [if_pos hmulti]
      rfl
  · cases htrunc

/-- An open transaction that is left in the file is found again. -/
theorem loadContents_left_open (h : ∀ l ∈ lines, l.Ok) {n : Nat}
    (hmulti : insideMulti ((recordsBefore lines n).map (·.1)) = true) (d : δ) :
    loadContents [((fileCells lines).take n).take (lastEnd (recordsBefore lines n))] d = none := by
  refine Option.eq_none_iff_forall_not_mem.mpr fun d' hload => ?_
  obtain ⟨-, hqueue, -⟩ := loadContents_singleton.mp hload
  -- what is cut off are annotations, so that the `MULTI` is still there
  have hquiet := timestamps_of_quiet h (map_recordsBefore_begins h n)
  have hopen := replay_isSome ((recordsBefore lines n).map (·.1)) d
  rw [recs, parse_left h (List.prefix_refl _)] at hqueue
  rw [replay_upToValid hquiet, hqueue, hmulti] at hopen
  cases hopen

/-- What is left outside of a transaction goes on with what is appended. -/
theorem loadContents_left (h : ∀ l ∈ lines, l.Ok) (hnest : nests false (lines.map Prod.fst) = false) (n : Nat) (d : δ)
    {more : List (PrintedRec lk δ)} (hmore : ∀ l ∈ more, l.Ok) (hwhole : insideMulti (more.map Prod.fst) = false) :
    loadContents [((fileCells lines).take n).take (lastEnd (executed (recordsBefore lines n))) ++ fileCells more] d =
      some (replay ((executed (recordsBefore lines n)).map (·.1) ++ more.map Prod.fst) d).data := by
  have hbegins := map_recordsBefore_begins h n
  have hexecuted := executed_begins (recordsBefore lines n)
  have hquiet := timestamps_of_quiet h ((hexecuted.map _).trans hbegins)
  have hparse := parse_left h hexecuted
  have hfile := @parse_append_lines _ _ more _ hmore (congrArg Prod.snd hparse)
  have hrecs : recs (((fileCells lines).take n).take (lastEnd (executed (recordsBefore lines n))) ++ fileCells more) =
      (upToValid (executed (recordsBefore lines n))).map (·.1) ++ more.map Prod.fst := by
    rw [recs, hfile, hparse, List.map_append, map_ends]
  -- annotations at the end of what is left make no difference
  have hreplay : replay ((executed (recordsBefore lines n)).map (·.1) ++ more.map Prod.fst) d =
      replay ((upToValid (executed (recordsBefore lines n))).map (·.1) ++ more.map Prod.fst) d := by
    have hsame := replay_upToValid hquiet d
    unfold replay at hsame ⊢
    rw [List.foldl_append, List.foldl_append, hsame]
  -- what is left is outside of a transaction, and so is the end of what is appended
  have hqueue : (replay ((executed (recordsBefore lines n)).map (·.1) ++ more.map Prod.fst) d).queue = none := by
    have hfront := replay_isSome ((executed (recordsBefore lines n)).map (·.1)) d
    have hopen := foldl_feed_isSome (more.map Prod.fst) (replay ((executed (recordsBefore lines n)).map (·.1)) d)
    rw [hfront, outside_executed (nests_front hnest hbegins), ← insideMulti, hwhole, Option.isSome_eq_false_iff,
      Option.isNone_iff_eq_none] at hopen
    rw [replay, List.foldl_append]
    exact hopen
  refine loadContents_singleton.mpr ⟨.inl (by rw [hfile]), ?_, ?_⟩
  · rw [hrecs, ← hreplay, hqueue]
  · rw [hrecs, ← hreplay]

/-- **What is left of a file that was cut** is not cut again, and what is appended to it is executed behind the
commands that were: unless the file ended inside a command of a transaction. -/
theorem truncated_lines_continue (h : ∀ l ∈ lines, l.Ok) (hnest : nests false (lines.map Prod.fst) = false) (d : δ)
    (n : Nat) (htrunc : (readAof true ((fileCells lines).take n) d).1 = .truncated) :
    let rs := recordsBefore lines n
    let res := readAof true ((fileCells lines).take n) d
    ∃ k, res.2.2 = some k ∧
      if insideCommand lines n && insideMulti (rs.map (·.1)) then
        ∀ d', loadContents [((fileCells lines).take n).take k] d' = none
      else
        res.2.1 = (replay ((executed rs).map (·.1)) d).data ∧
          AofFormat.parse (((fileCells lines).take n).take k) = (upToValid (executed rs), .eof) ∧
          ∀ more : List (PrintedRec lk δ), (∀ l ∈ more, l.Ok) → insideMulti (more.map Prod.fst) = false →
            loadContents [((fileCells lines).take n).take k ++ fileCells more] d =
              some (replay ((executed rs).map (·.1) ++ more.map Prod.fst) d).data := by
  dsimp only
  rw [readAof_lines_cut h hnest htrunc]
  refine ⟨_, rfl, ?_⟩
  by_cases hopen : (insideCommand lines n && insideMulti ((recordsBefore lines n).map (·.1))) = true
  · obtain ⟨hinside, hmulti⟩ := Bool.and_eq_true_iff.mp hopen
    rw [if_pos hopen, if_pos hinside]
    exact loadContents_left_open h hmulti
  · -- outside of a transaction, everything is executed
    have hcut : (if insideCommand lines n then recordsBefore lines n else executed (recordsBefore lines n)) =
        executed (recordsBefore lines n) := by
      split
      · next hinside =>
          rw [executed, if_neg fun hmulti => hopen (Bool.and_eq_true_iff.mpr ⟨hinside, hmulti⟩)]
      · rfl
    rw [if_neg hopen, hcut]
    exact ⟨rfl, parse_left h (executed_begins _), fun more hmore hwhole => loadContents_left h hnest n d hmore hwhole⟩

/-- The transaction is not executed; the command that is appended is. -/
theorem truncated_lines_continue_queued :
    ∃ k, (readAof true ((fileCells transactionLines).take 56) []).2.2 = some k ∧
      loadContents [((fileCells transactionLines).take 56).take k ++
        fileCells [(.select 2, 6), (.command ⟨[[72]], by decide +kernel⟩ 2 0, 6)]] [] = some [(2, [[72]])] := by
  have htrunc : (readAof true ((fileCells transactionLines).take 56) []).1 = .truncated := by
    rw [readAof_lines_take transactionLines_ok (by decide +kernel) true [] 56]
    decide +kernel
  have hmore : ∀ l ∈ ([(.select 2, 6), (.command ⟨[[72]], by decide +kernel⟩ 2 0, 6)] :
      List (PrintedRec knowsAll (List (Nat × List Bytes)))), l.Ok := by
    have htime : (Item.timestamp 6).Fits := by simp [Item.Fits]
    simp only [List.mem_cons, List.not_mem_nil, or_false]
    rintro l (rfl | rfl) <;> exact ⟨by simp, htime⟩
  obtain ⟨k, hk, hleft⟩ := truncated_lines_continue transactionLines_ok (by decide +kernel) [] 56 htrunc
  rw [if_neg (by decide +kernel)] at hleft
  exact ⟨k, hk, (hleft.2.2 _ hmore (by decide +kernel)).trans (by decide +kernel)⟩

end Loading

end WasiPorts.Redis.Aof
