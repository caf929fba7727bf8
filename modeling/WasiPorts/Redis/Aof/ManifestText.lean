import WasiPorts.Redis.Aof.WellFormed
import WasiPorts.Redis.Sds

/-!
# The manifest file as text

`getAofManifestAsString` prints the manifest, one line for each file, and
`aofLoadManifestFromFile` reads it back. Elsewhere a manifest file is the list of its entries; here it
is the bytes of the file.

* `load_format` — the bytes of a list of entries load to what the list loads to.
* `load_getAofManifestAsString_iff` — a manifest is read back exactly if no name is empty, or has a
  single quote without a byte for which the name is put into double quotes.
* `load_wellFormed` — whatever the file has in it, a manifest that is accepted is in order.
-/

namespace WasiPorts.Redis.Aof

open WasiPorts.Text

/-! ## Printing -/

/-- `AOF_FILE_TYPE_BASE`, `AOF_FILE_TYPE_HIST` and `AOF_FILE_TYPE_INCR`. -/
def AofFileType.char : AofFileType → UInt8
  | .base => 98
  | .hist => 104
  | .incr => 105

/-- `aofInfoFormat`. -/
def aofInfoFormat (buf : Bytes) (ai : AofInfo Bytes) : Bytes :=
  let filenameRepr := if sdsneedsrepr ai.fileName then some (sdscatrepr [] ai.fileName) else none
  buf ++ (bytes "file " ++ cString (filenameRepr.getD ai.fileName) ++ bytes " seq " ++ decimal ai.fileSeq ++
    bytes " type " ++ [ai.fileType.char] ++ bytes "\n")

/-- `getAofManifestAsString`. -/
def getAofManifestAsString (am : AofManifest Bytes) : Bytes :=
  let buf := match am.baseAofInfo with
    | some ai => aofInfoFormat [] ai
    | none => []
  let buf := am.historyAofList.foldl aofInfoFormat buf
  am.incrAofList.foldl aofInfoFormat buf

/-! ## Reading -/

/-- `MANIFEST_MAX_LINE`. -/
def manifestMaxLine : Nat := 1024

/-- `sdstrim(s, " \t\r\n")`. The `strchr` in it also finds the end of the set, so that NUL bytes
are trimmed as well. -/
def sdstrim (s : Bytes) : Bytes :=
  let trimmed := fun b : UInt8 => b = 32 || b = 9 || b = 13 || b = 10 || b = 0
  (s.dropWhile trimmed).rdropWhile trimmed

/-- `pathIsBaseName`. -/
def pathIsBaseName (path : Bytes) : Bool :=
  !(cString path).contains 47 && !(cString path).contains 92

/-- An `aofInfo` while its line is read: what is not set is null or 0. -/
structure RawInfo where
  fileName : Option Bytes
  fileSeq : Int
  fileType : UInt8
  deriving DecidableEq, Repr

/-- `aofInfoCreate`. -/
def RawInfo.create : RawInfo := ⟨none, 0, 0⟩

/-- One pair of arguments. Pairs with another key are skipped. -/
def RawInfo.setField (ai : RawInfo) (key value : Bytes) : Except String RawInfo :=
  if sameIgnoringCase key (bytes "file") then
    if pathIsBaseName (cString value) then .ok { ai with fileName := some (cString value) }
    else .error "File can't be a path, just a filename"
  else if sameIgnoringCase key (bytes "seq") then .ok { ai with fileSeq := atoll (cString value) }
  else if sameIgnoringCase key (bytes "type") then .ok { ai with fileType := value.headD 0 }
  else .ok ai

def RawInfo.setFields (ai : RawInfo) : List Bytes → Except String RawInfo
  | key :: value :: argv =>
    match ai.setField key value with
    | .error err => .error err
    | .ok ai => ai.setFields argv
  | _ => .ok ai

/-- Why the manifest is refused: the message, and the line it is about. -/
structure ManifestError where
  err : String
  line : Option Bytes
  deriving DecidableEq, Repr

/-- One line that is no comment. -/
def readEntry (buf : Bytes) : Except ManifestError RawInfo :=
  if !(cString buf).contains 10 then
    .error ⟨"The AOF manifest file contains too long line", none⟩
  else
    let line := sdstrim (cString buf)
    if line = [] then .error ⟨"Invalid AOF manifest file format", some line⟩
    else
      match sdssplitargs line with
      | none => .error ⟨"Invalid AOF manifest file format", some line⟩
      | some argv =>
        if argv.length < 6 ∨ argv.length % 2 = 1 then
          .error ⟨"Invalid AOF manifest file format", some line⟩
        else
          match RawInfo.create.setFields argv with
          | .error err => .error ⟨err, some line⟩
          | .ok ai =>
            if ai.fileName = none ∨ ai.fileSeq = 0 ∨ ai.fileType = 0 then
              .error ⟨"Invalid AOF manifest file format", some line⟩
            else .ok ai

/-- The entry goes into the list of its type. The second component is `maxseq`. -/
def addEntry (am : AofManifest Bytes) (maxseq : Int) (ai : RawInfo) :
    Except String (AofManifest Bytes × Int) :=
  let name := ai.fileName.getD []
  if ai.fileType = 98 then
    if am.baseAofInfo.isSome then .error "Found duplicate base file information"
    else
      .ok ({ am with baseAofInfo := some ⟨name, ai.fileSeq, .base⟩, currBaseFileSeq := ai.fileSeq },
        maxseq)
  else if ai.fileType = 104 then
    .ok ({ am with historyAofList := am.historyAofList ++ [⟨name, ai.fileSeq, .hist⟩] }, maxseq)
  else if ai.fileType = 105 then
    if ai.fileSeq ≤ maxseq then .error "Found a non-monotonic sequence number"
    else
      .ok ({ am with
          incrAofList := am.incrAofList ++ [⟨name, ai.fileSeq, .incr⟩]
          currIncrFileSeq := ai.fileSeq }, ai.fileSeq)
  else .error "Unknown AOF file type"

/-- The loop of `aofLoadManifestFromFile`. Each round reads at least one byte, so that the length of
the file bounds their number. -/
def loadLoop : Nat → AofManifest Bytes → Int → Nat → Bytes → Except ManifestError (AofManifest Bytes)
  | 0, am, _, _, _ => .ok am
  | n + 1, am, maxseq, linenum, text =>
    match fgets (manifestMaxLine + 1) text with
    | none => if linenum = 0 then .error ⟨"Found an empty AOF manifest", none⟩ else .ok am
    | some l =>
      if l.text.head? = some 35 then loadLoop n am maxseq (linenum + 1) l.rest
      else
        match readEntry l.text with
        | .error e => .error e
        | .ok ai =>
          match addEntry am maxseq ai with
          | .error err => .error ⟨err, some (sdstrim (cString l.text))⟩
          | .ok (am, maxseq) => loadLoop n am maxseq (linenum + 1) l.rest

/-- `aofLoadManifestFromFile`, of a file that can be opened and read. On an error the server
exits. -/
def aofLoadManifestFromFile (text : Bytes) : Except ManifestError (AofManifest Bytes) :=
  loadLoop (text.length + 1) .create 0 0 text

/-! ## One line -/

/-- The name as it is printed. -/
def nameText (name : Bytes) : Bytes := if sdsneedsrepr name then sdscatrepr [] name else cString name

/-- The arguments on the line of an entry. -/
def entryTexts (ai : AofInfo Bytes) : List Bytes :=
  [bytes "file", nameText ai.fileName, bytes "seq", decimal ai.fileSeq, bytes "type", [ai.fileType.char]]

theorem aofInfoFormat_eq (buf : Bytes) (ai : AofInfo Bytes) :
    aofInfoFormat buf ai = buf ++ (joinArgs (entryTexts ai) ++ [10]) := by
  have hname : cString ((if sdsneedsrepr ai.fileName then some (sdscatrepr [] ai.fileName) else none).getD
      ai.fileName) = nameText ai.fileName := by
    unfold nameText
    split
    · refine cString_of_ne ?_
      rintro b hb rfl
      exact absurd (isPrint_sdscatrepr hb) (by decide)
    · rfl
  have hseq : bytes " seq " = 32 :: (bytes "seq" ++ [32]) := rfl
  have htype : bytes " type " = 32 :: (bytes "type" ++ [32]) := rfl
  have hfile : bytes "file " = bytes "file" ++ [32] := rfl
  have hnl : bytes "\n" = [10] := rfl
  unfold aofInfoFormat
  dsimp only
  rw [hname, hseq, htype, hfile, hnl, entryTexts]
  simp only [joinArgs_cons, joinArgs_singleton]
  simp

/-- What is accepted as a file name. -/
structure BaseName (name : Bytes) : Prop where
  nul : 0 ∉ name
  slash : 47 ∉ name
  backslash : 92 ∉ name

/-- `sdssplitargs` finds the name again: there is something to find, and a single quote in it does not
lead it astray. -/
def Readable (name : Bytes) : Prop := name ≠ [] ∧ (39 ∈ name → sdsneedsrepr name = true)

/-- An entry as a line can give it. -/
structure ValidInfo (ai : AofInfo Bytes) : Prop where
  name : BaseName ai.fileName
  seq : -2 ^ 63 ≤ ai.fileSeq ∧ ai.fileSeq < 2 ^ 63

/-- An entry whose line can be read. -/
structure FitsLine (ai : AofInfo Bytes) : Prop extends ValidInfo ai where
  short : (aofInfoFormat [] ai).length ≤ manifestMaxLine

theorem isArg_nameText {name : Bytes} (h : BaseName name) (hread : Readable name) :
    IsArg (nameText name) name := by
  unfold nameText
  split
  · exact isArg_quoted name
  · next hrepr =>
      have hquote : 39 ∉ name := fun hmem => hrepr (hread.2 hmem)
      rw [cString_of_ne fun b hb hz => h.nul (hz ▸ hb)]
      exact isArg_bare hread.1 (by simpa using hrepr) hquote

/-- Small letters, digits, the minus sign and the dot. -/
def wordByte (b : UInt8) : Bool := isDigit b || b = 45 || b = 46 || (97 ≤ b && b ≤ 122)

theorem wordByte_plain : ∀ b : UInt8, wordByte b = true → b ≠ 39 ∧
    (b = 92 || b = 34 || b = 10 || b = 13 || b = 9 || b = 7 || b = 8 || !isPrint b || isSpace b) = false := by
  decide +kernel

theorem isArg_word {s : Bytes} (hne : s ≠ []) (hs : s.all wordByte = true) : IsArg s s := by
  rw [List.all_eq_true] at hs
  refine isArg_bare hne ?_ ?_
  · exact List.any_eq_false.mpr fun b hb => by simpa using (wordByte_plain b (hs b hb)).2
  · intro hmem
    exact (wordByte_plain 39 (hs 39 hmem)).1 rfl

theorem decimal_all (z : Int) : (decimal z).all wordByte = true := by
  rw [List.all_eq_true]
  intro b hb
  rcases mem_decimal hb with rfl | hb
  · rfl
  · simp [wordByte, hb]

/-- What follows the name on the line. -/
theorem entryTexts_fields (ai : AofInfo Bytes) :
    List.Forall₂ IsArg [bytes "seq", decimal ai.fileSeq, bytes "type", [ai.fileType.char]]
      [bytes "seq", decimal ai.fileSeq, bytes "type", [ai.fileType.char]] := by
  have htype : IsArg [ai.fileType.char] [ai.fileType.char] := by
    cases ai.fileType <;> exact isArg_word (by decide) (by decide)
  refine .cons (isArg_word (by decide) (by decide)) (.cons (isArg_word (decimal_ne_nil _) (decimal_all _)) ?_)
  exact .cons (isArg_word (by decide) (by decide)) (.cons htype .nil)

theorem entryTexts_args {ai : AofInfo Bytes} {value : Bytes} (h : IsArg (nameText ai.fileName) value) :
    List.Forall₂ IsArg (entryTexts ai)
      [bytes "file", value, bytes "seq", decimal ai.fileSeq, bytes "type", [ai.fileType.char]] :=
  .cons (isArg_word (by decide) (by decide)) (.cons h (entryTexts_fields ai))

/-! ### Trimming -/

theorem isPrint_nameText {name : Bytes} {b : UInt8} (h : b ∈ nameText name) : isPrint b = true := by
  unfold nameText at h
  split at h
  · exact isPrint_sdscatrepr h
  · next hrepr =>
      have hmem : b ∈ name := (List.takeWhile_prefix _).subset h
      exact (mem_bare (by simpa using hrepr) hmem).1

/-- The line of an entry is printable up to its newline. -/
theorem isPrint_entryTexts {ai : AofInfo Bytes} {b : UInt8} (h : b ∈ joinArgs (entryTexts ai)) :
    isPrint b = true := by
  have hword : ∀ s : Bytes, s.all isPrint = true → b ∈ s → isPrint b = true :=
    fun s hs hb => List.all_eq_true.mp hs b hb
  have hprint : ∀ b : UInt8, wordByte b = true → isPrint b = true := by decide +kernel
  rcases mem_joinArgs h with rfl | ⟨t, ht, hb⟩
  · rfl
  · simp only [entryTexts, List.mem_cons, List.not_mem_nil, or_false] at ht
    rcases ht with rfl | rfl | rfl | rfl | rfl | rfl
    · exact hword _ (by decide) hb
    · exact isPrint_nameText hb
    · exact hword _ (by decide) hb
    · exact hprint b (List.all_eq_true.mp (decimal_all _) b hb)
    · exact hword _ (by decide) hb
    · refine hword _ ?_ hb
      cases ai.fileType <;> rfl

theorem entryTexts_plain {ai : AofInfo Bytes} {b : UInt8} (h : b ∈ joinArgs (entryTexts ai)) : b ≠ 0 ∧ b ≠ 10 := by
  have hprint := isPrint_entryTexts h
  constructor <;> rintro rfl <;> exact absurd hprint (by decide)

/-- Only the newline is trimmed. -/
theorem sdstrim_line {line : Bytes} {c d : UInt8} {cs ds : Bytes} (hhead : line = c :: cs) (hlast : line = ds ++ [d])
    (hc : c ≠ 32 ∧ c ≠ 9 ∧ c ≠ 13 ∧ c ≠ 10 ∧ c ≠ 0) (hd : d ≠ 32 ∧ d ≠ 9 ∧ d ≠ 13 ∧ d ≠ 10 ∧ d ≠ 0) :
    sdstrim (line ++ [10]) = line := by
  have hdrop : ∀ p : UInt8 → Bool, p c = false → (line ++ [10]).dropWhile p = line ++ [10] := by
    intro p hp
    rw [hhead, List.cons_append, List.dropWhile_cons, hp]
    rfl
  unfold sdstrim
  dsimp only
  rw [hdrop _ (by simp [hc]), List.rdropWhile_concat, hlast, List.rdropWhile_concat]
  simp [hd]

theorem entryTexts_trim (ai : AofInfo Bytes) :
    sdstrim (joinArgs (entryTexts ai) ++ [10]) = joinArgs (entryTexts ai) := by
  have hsplit : joinArgs (entryTexts ai) = 102 :: (joinArgs (entryTexts ai)).tail := by
    rw [entryTexts, joinArgs_cons]
    rfl
  have hds : joinArgs (entryTexts ai) = (bytes "file" ++ 32 :: (nameText ai.fileName ++ 32 :: (bytes "seq" ++
      32 :: (decimal ai.fileSeq ++ 32 :: (bytes "type" ++ [32]))))) ++ [ai.fileType.char] := by
    simp [entryTexts, joinArgs_cons]
  refine sdstrim_line hsplit hds (by decide) ?_
  cases ai.fileType <;> decide

theorem entryTexts_cString (ai : AofInfo Bytes) :
    cString (joinArgs (entryTexts ai) ++ [10]) = joinArgs (entryTexts ai) ++ [10] := by
  refine cString_of_ne ?_
  intro b hb
  rcases List.mem_append.mp hb with hb | hb
  · exact (entryTexts_plain hb).1
  · obtain rfl := List.mem_singleton.mp hb
    decide

/-! ### Reading it back -/

/-- The line of an entry has the fields that its arguments have. -/
theorem readEntry_args {ai : AofInfo Bytes} {value : Bytes} (hname : IsArg (nameText ai.fileName) value)
    (hvalue : BaseName value) (hseq : -2 ^ 63 ≤ ai.fileSeq ∧ ai.fileSeq < 2 ^ 63) :
    readEntry (joinArgs (entryTexts ai) ++ [10]) =
      if ai.fileSeq = 0 then
        .error ⟨"Invalid AOF manifest file format", some (joinArgs (entryTexts ai))⟩
      else .ok ⟨some value, ai.fileSeq, ai.fileType.char⟩ := by
  have hargv : sdssplitargs (joinArgs (entryTexts ai)) =
      some [bytes "file", value, bytes "seq", decimal ai.fileSeq, bytes "type", [ai.fileType.char]] :=
    sdssplitargs_args (entryTexts_args hname) fun b hb => (entryTexts_plain hb).1
  have hvalueString : cString value = value := cString_of_ne fun b hb hz => hvalue.nul (hz ▸ hb)
  have hbase : pathIsBaseName value = true := by
    simp [pathIsBaseName, hvalueString, hvalue.slash, hvalue.backslash]
  have hseqString : atoll (cString (decimal ai.fileSeq)) = ai.fileSeq := by
    rw [cString_of_ne]
    · have hend : ∀ b ∈ ([] : Bytes).head?, isDigit b = false := by simp
      simpa using atoll_decimal hseq.1 hseq.2 hend
    · rintro b hb rfl
      rcases mem_decimal hb with hb | hb
      · exact absurd hb (by decide)
      · exact absurd hb (by decide)
  have hfields : RawInfo.create.setFields
      [bytes "file", value, bytes "seq", decimal ai.fileSeq, bytes "type", [ai.fileType.char]] =
      .ok ⟨some value, ai.fileSeq, ai.fileType.char⟩ := by
    have hfile : sameIgnoringCase (bytes "file") (bytes "file") = true := by decide
    have hseq' : sameIgnoringCase (bytes "seq") (bytes "file") = false ∧
        sameIgnoringCase (bytes "seq") (bytes "seq") = true := by decide
    have htype : sameIgnoringCase (bytes "type") (bytes "file") = false ∧
        sameIgnoringCase (bytes "type") (bytes "seq") = false ∧
        sameIgnoringCase (bytes "type") (bytes "type") = true := by decide
    simp [RawInfo.setFields, RawInfo.setField, hfile, hseq', htype, hvalueString, hbase, hseqString,
      RawInfo.create]
  have htype : ai.fileType.char ≠ 0 := by cases ai.fileType <;> decide
  have hne : joinArgs (entryTexts ai) ≠ [] := by
    simp [entryTexts, joinArgs_cons]
  unfold readEntry
  rw [entryTexts_cString, entryTexts_trim]
  simp [hne, hargv, hfields, htype]

/-! ### Names that are not read back -/

/-- The name is printed without double quotes although it has a single quote. -/
def Misquoted (name : Bytes) : Prop := 39 ∈ name ∧ sdsneedsrepr name = false

theorem not_readable {name : Bytes} (hread : ¬ Readable name) : name = [] ∨ Misquoted name := by
  by_cases hnil : name = []
  · exact .inl hnil
  · have hquote : ¬ (39 ∈ name → sdsneedsrepr name = true) := fun h => hread ⟨hnil, h⟩
    rw [Classical.not_imp, Bool.not_eq_true] at hquote
    exact .inr hquote

theorem Misquoted.nameText {name : Bytes} (h : Misquoted name) : nameText name = name := by
  unfold Aof.nameText
  rw [if_neg (by simp [h.2]), cString_of_ne]
  rintro b hb rfl
  exact absurd (mem_bare h.2 hb).1 (by decide)

/-- A name with a single quote that is printed without double quotes cannot be read back: `sdssplitargs`
takes the quotes away, if the last byte is one, or gives up. -/
theorem nameText_misquoted {name : Bytes} (h : BaseName name) (hbad : Misquoted name) :
    (name.getLast? = some 39 ∧
      ∃ value, IsArg (nameText name) value ∧ value.length < name.length ∧ ∀ b ∈ value, b ∈ name) ∨
    ∀ rest, 39 ∉ rest → 92 ∉ rest → AtBlank rest → tokenLoop .none [] (nameText name ++ rest) = none := by
  obtain ⟨hquote, hbare⟩ := id hbad
  rw [hbad.nameText]
  -- up to the first single quote, and to the next one if there is one
  obtain ⟨u, v, rfl, hu⟩ := List.eq_append_cons_of_mem hquote
  have hbare' : sdsneedsrepr u = false := by
    unfold sdsneedsrepr at hbare ⊢
    rw [List.any_append, Bool.or_eq_false_iff] at hbare
    exact hbare.1
  have hv : 92 ∉ v := fun hmem => h.backslash (by simp [hmem])
  have hopen : ∀ rest, tokenLoop .none [] (u ++ 39 :: v ++ rest) = tokenLoop .single u (v ++ rest) := by
    intro rest
    rw [List.append_assoc, tokenLoop_bare hbare' hu, List.nil_append, List.cons_append, tokenLoop.eq_def]
    simp
  by_cases hmem : 39 ∈ v
  · obtain ⟨w, x, rfl, hw⟩ := List.eq_append_cons_of_mem hmem
    have hw' : 92 ∉ w := fun hmem => hv (by simp [hmem])
    have hclose : ∀ rest, tokenLoop .none [] (u ++ 39 :: (w ++ 39 :: x) ++ rest) = closeQuote (u ++ w) (x ++ rest) := by
      intro rest
      rw [hopen, List.append_assoc, tokenLoop_single hw hw', List.cons_append, tokenLoop_single_close]
    cases x with
    | nil =>
        refine .inl ⟨by simp [List.getLast?_append, List.getLast?_cons], u ++ w, ⟨?_, ?_⟩, by simp, ?_⟩
        · cases u with
          | nil => exact ⟨39, _, rfl, rfl⟩
          | cons c cs => exact ⟨c, _, rfl, (mem_bare hbare' List.mem_cons_self).2.1⟩
        · intro rest hrest
          exact ⟨rest, by rw [hclose, List.nil_append, closeQuote_blank hrest], rfl⟩
        · intro b hb
          simp only [List.mem_append, List.mem_cons] at hb ⊢
          tauto
    | cons c x =>
        right
        intro rest _ _ _
        have hc : isSpace c = false := (mem_bare hbare (by simp)).2.1
        rw [hclose, List.cons_append, closeQuote, hc]
        rfl
  · right
    intro rest hquote' hback' _
    have hend : 39 ∉ v ++ rest ∧ 92 ∉ v ++ rest := by simp [hmem, hv, hquote', hback']
    have hsingle := tokenLoop_single hend.1 hend.2 u []
    rw [List.append_nil] at hsingle
    rw [hopen, hsingle]
    rfl

theorem splitLoop_none {text value cs : Bytes} {c : UInt8} (harg : IsArg text value) (hc : isSpace c = false)
    (hnone : tokenLoop .none [] (c :: cs) = none) (n : Nat) :
    splitLoop (n + 2) (text ++ 32 :: c :: cs) = none := by
  obtain ⟨⟨t, ts, rfl, ht⟩, htoken⟩ := harg
  obtain ⟨rest', hread, hdrop⟩ := htoken _ (.space (c :: cs))
  have hskip : (32 :: c :: cs).dropWhile isSpace = c :: cs := by
    rw [List.dropWhile_cons, List.dropWhile_cons, hc]
    rfl
  rw [hskip] at hdrop
  have hline : (t :: ts ++ 32 :: c :: cs).dropWhile isSpace = t :: (ts ++ 32 :: c :: cs) := by
    rw [List.cons_append, List.dropWhile_cons, ht]
    rfl
  rw [splitLoop, hline]
  rw [List.cons_append] at hread
  simp only [hread]
  rw [splitLoop, hdrop]
  simp only [hnone]
  rfl

theorem sdssplitargs_misquoted {ai : AofInfo Bytes} (hbad : Misquoted ai.fileName)
    (hnone : ∀ rest, 39 ∉ rest → 92 ∉ rest → AtBlank rest →
      tokenLoop .none [] (nameText ai.fileName ++ rest) = none) :
    sdssplitargs (joinArgs (entryTexts ai)) = none := by
  have hkeys : ∀ b ∈ joinArgs [bytes "seq", decimal ai.fileSeq, bytes "type", [ai.fileType.char]], b ≠ 39 ∧ b ≠ 92 := by
    intro b hb
    rcases mem_joinArgs hb with rfl | ⟨t, ht, hb⟩
    · decide
    · have hword : t.all wordByte = true := by
        simp only [List.mem_cons, List.not_mem_nil, or_false] at ht
        rcases ht with rfl | rfl | rfl | rfl
        · decide
        · exact decimal_all _
        · decide
        · cases ai.fileType <;> decide
      have hplain : ∀ b : UInt8, wordByte b = true → b ≠ 39 ∧ b ≠ 92 := by decide +kernel
      exact hplain b (List.all_eq_true.mp hword b hb)
  obtain ⟨c, cs, hname, hc⟩ : ∃ c cs, nameText ai.fileName = c :: cs ∧ isSpace c = false := by
    obtain ⟨c, cs, hcons⟩ := List.exists_cons_of_ne_nil (List.ne_nil_of_mem hbad.1)
    exact ⟨c, cs, hbad.nameText.trans hcons, (mem_bare hbad.2 (by simp [hcons])).2.1⟩
  have hfile : IsArg (bytes "file") (bytes "file") := isArg_word (by decide) (by decide)
  have htoken := hnone (32 :: joinArgs [bytes "seq", decimal ai.fileSeq, bytes "type", [ai.fileType.char]])
    (by simpa using fun h => (hkeys 39 h).1 rfl) (by simpa using fun h => (hkeys 92 h).2 rfl) (.space _)
  rw [hname, List.cons_append] at htoken
  have hline : joinArgs (entryTexts ai) = bytes "file" ++ 32 :: c :: (cs ++
      32 :: joinArgs [bytes "seq", decimal ai.fileSeq, bytes "type", [ai.fileType.char]]) := by
    rw [entryTexts, joinArgs_cons, joinArgs_cons, hname, List.cons_append]
  have hlen : ∃ n, (joinArgs (entryTexts ai)).length = n + 2 := by
    rw [hline]
    exact ⟨_, by simp; rfl⟩
  obtain ⟨n, hn⟩ := hlen
  rw [sdssplitargs, cString_of_ne fun b hb => (entryTexts_plain hb).1, hn, hline]
  exact splitLoop_none hfile hc htoken n

/-- An empty name leaves two blanks behind each other, and an argument is missing. -/
theorem sdssplitargs_nameless {ai : AofInfo Bytes} (hnil : ai.fileName = []) :
    sdssplitargs (joinArgs (entryTexts ai)) =
      some [bytes "file", bytes "seq", decimal ai.fileSeq, bytes "type", [ai.fileType.char]] := by
  have hname : nameText ai.fileName = [] := by
    rw [hnil]
    rfl
  have hline : joinArgs (entryTexts ai) = bytes "file" ++ 32 :: 32 :: joinArgs
      [bytes "seq", decimal ai.fileSeq, bytes "type", [ai.fileType.char]] := by
    rw [entryTexts, joinArgs_cons, joinArgs_cons, hname, List.nil_append]
  have hargs : List.Forall₂ IsArg [bytes "seq", decimal ai.fileSeq, bytes "type", [ai.fileType.char]]
      [bytes "seq", decimal ai.fileSeq, bytes "type", [ai.fileType.char]] := entryTexts_fields ai
  rw [sdssplitargs, cString_of_ne fun b hb => (entryTexts_plain hb).1, hline]
  exact splitLoop_blanks (isArg_word (by decide) (by decide)) hargs

theorem readEntry_refused {ai : AofInfo Bytes} {argv : Option (List Bytes)}
    (hsplit : sdssplitargs (joinArgs (entryTexts ai)) = argv) (hfew : ∀ args ∈ argv, args.length < 6) :
    (readEntry (joinArgs (entryTexts ai) ++ [10])).toOption = none := by
  unfold readEntry
  rw [entryTexts_cString, entryTexts_trim]
  dsimp only
  rw [hsplit]
  split_ifs
  · rfl
  · rfl
  · cases argv with
    | none => rfl
    | some args =>
        dsimp only
        rw [if_pos (.inl (hfew args rfl))]
        rfl

/-- The line of an entry whose name is not read back: it is refused, or it has a shorter name. -/
theorem readEntry_unreadable {ai : AofInfo Bytes} (h : ValidInfo ai) (hread : ¬ Readable ai.fileName) :
    (readEntry (joinArgs (entryTexts ai) ++ [10])).toOption = none ∨ ai.fileName.getLast? = some 39 ∧
      ∃ value, readEntry (joinArgs (entryTexts ai) ++ [10]) = .ok ⟨some value, ai.fileSeq, ai.fileType.char⟩ ∧
        value.length < ai.fileName.length := by
  rcases not_readable hread with hnil | hbad
  · left
    refine readEntry_refused (sdssplitargs_nameless hnil) fun args hargs => ?_
    rw [← Option.mem_some_iff.mp hargs]
    exact Nat.lt_succ_self 5
  · rcases nameText_misquoted h.name hbad with ⟨hlast, value, harg, hlen, hmem⟩ | hnone
    · have hvalue : BaseName value :=
        ⟨fun hb => h.name.nul (hmem _ hb), fun hb => h.name.slash (hmem _ hb), fun hb => h.name.backslash (hmem _ hb)⟩
      rw [readEntry_args harg hvalue h.seq]
      split
      · exact .inl rfl
      · exact .inr ⟨hlast, value, rfl, hlen⟩
    · exact .inl (readEntry_refused (sdssplitargs_misquoted hbad hnone) nofun)

/-! ## The file -/

/-- The manifest is printed line by line. -/
theorem getAofManifestAsString_eq (am : AofManifest Bytes) :
    getAofManifestAsString am = am.lines.flatMap (aofInfoFormat []) := by
  have hfold : ∀ (ais : List (AofInfo Bytes)) (buf : Bytes),
      ais.foldl aofInfoFormat buf = buf ++ ais.flatMap (aofInfoFormat []) := by
    intro ais
    induction ais with
    | nil => simp
    | cons ai ais ih =>
        intro buf
        rw [List.foldl_cons, ih, aofInfoFormat_eq, List.flatMap_cons, aofInfoFormat_eq, List.append_assoc]
        rfl
  unfold getAofManifestAsString AofManifest.lines
  dsimp only
  rw [hfold, hfold]
  cases am.baseAofInfo with
  | none => simp
  | some ai => simp

/-- One line of the file. -/
theorem loadLoop_line {ai : AofInfo Bytes} (h : FitsLine ai) (n : Nat) (am : AofManifest Bytes) (maxseq : Int)
    (linenum : Nat) (rest : Bytes) :
    loadLoop (n + 1) am maxseq linenum (aofInfoFormat [] ai ++ rest) =
      match readEntry (joinArgs (entryTexts ai) ++ [10]) with
      | .error e => .error e
      | .ok ai' =>
        match addEntry am maxseq ai' with
        | .error err => .error ⟨err, some (joinArgs (entryTexts ai))⟩
        | .ok (am, maxseq) => loadLoop n am maxseq (linenum + 1) rest := by
  have hread : fgets (manifestMaxLine + 1) (aofInfoFormat [] ai ++ rest) =
      some ⟨joinArgs (entryTexts ai) ++ [10], rest, false⟩ := by
    have hlen := h.short
    rw [aofInfoFormat_eq, List.nil_append, List.length_append, List.length_singleton] at hlen
    rw [aofInfoFormat_eq, List.nil_append, List.append_assoc]
    exact fgets_line rest (fun b hb => (entryTexts_plain hb).2) (by omega)
  have hhead : (joinArgs (entryTexts ai) ++ [10]).head? ≠ some 35 := by
    rw [entryTexts, joinArgs_cons]
    simp only [show bytes "file" = [102, 105, 108, 101] from rfl, List.cons_append, List.head?_cons]
    decide
  rw [loadLoop, hread]
  simp only [if_neg hhead, entryTexts_cString, entryTexts_trim]

/-- What was read goes into the manifest as `loadLine` puts it there. -/
theorem addEntry_loadLine (f : Bytes → String) (am : AofManifest Bytes) (ai : AofInfo Bytes) (hseq : ai.fileSeq ≠ 0) :
    match addEntry am am.currIncrFileSeq ⟨some ai.fileName, ai.fileSeq, ai.fileType.char⟩ with
    | .ok (am', maxseq) => loadLine (am.map f) (ai.map f) = some (am'.map f) ∧ maxseq = am'.currIncrFileSeq
    | .error _ => loadLine (am.map f) (ai.map f) = none := by
  obtain ⟨name, seq, type⟩ := ai
  obtain ⟨base, hist, incr, curBase, curIncr, dirty⟩ := am
  have hseq' : seq ≠ 0 := hseq
  cases type with
  | base =>
      cases base with
      | none => simp [addEntry, AofFileType.char, loadLine, AofInfo.map, AofManifest.map, hseq']
      | some ai => simp [addEntry, AofFileType.char, loadLine, AofInfo.map, AofManifest.map, hseq']
  | hist => simp [addEntry, AofFileType.char, loadLine, AofInfo.map, AofManifest.map, hseq']
  | incr =>
      by_cases hle : seq ≤ curIncr
      · simp [addEntry, AofFileType.char, loadLine, AofInfo.map, AofManifest.map, hseq', hle]
      · simp [addEntry, AofFileType.char, loadLine, AofInfo.map, AofManifest.map, hseq', hle]

theorem loadLoop_format (f : Bytes → String) {ais : List (AofInfo Bytes)}
    (h : ∀ ai ∈ ais, FitsLine ai ∧ Readable ai.fileName) {n linenum : Nat} (hn : ais.length < n)
    (hline : linenum ≠ 0 ∨ ais ≠ []) (am : AofManifest Bytes) :
    (loadLoop n am am.currIncrFileSeq linenum (ais.flatMap (aofInfoFormat []))).toOption.map (·.map f) =
      (ais.map (·.map f)).foldlM loadLine (am.map f) := by
  induction ais generalizing n linenum am with
  | nil =>
      obtain ⟨m, rfl⟩ : ∃ m, n = m + 1 := ⟨n - 1, by simp at hn; omega⟩
      have hline' : linenum ≠ 0 := by simpa using hline
      rw [List.flatMap_nil, loadLoop, fgets_none_iff.mpr rfl]
      simp only [if_neg hline']
      rfl
  | cons ai ais ih =>
      obtain ⟨m, rfl⟩ : ∃ m, n = m + 1 := ⟨n - 1, by simp at hn; omega⟩
      obtain ⟨hfit, hread⟩ := h ai List.mem_cons_self
      rw [List.flatMap_cons, loadLoop_line hfit, readEntry_args (isArg_nameText hfit.name hread) hfit.name hfit.seq,
        List.map_cons, List.foldlM_cons]
      by_cases hseq : ai.fileSeq = 0
      · have hnone : loadLine (am.map f) (ai.map f) = none := by
          unfold loadLine
          exact if_pos hseq
        rw [if_pos hseq, hnone]
        rfl
      · rw [if_neg hseq]
        have hadd := addEntry_loadLine f am ai hseq
        dsimp only
        cases hres : addEntry am am.currIncrFileSeq ⟨some ai.fileName, ai.fileSeq, ai.fileType.char⟩ with
        | error err =>
            rw [hres] at hadd
            dsimp only at hadd
            rw [hadd]
            rfl
        | ok res =>
            obtain ⟨am', maxseq⟩ := res
            rw [hres] at hadd
            obtain ⟨hload, rfl⟩ := hadd
            rw [hload]
            exact ih (fun b hb => h b (List.mem_cons_of_mem ai hb)) (by simpa using hn) (.inl (by omega)) am'

theorem length_flatMap_format (ais : List (AofInfo Bytes)) : ais.length ≤ (ais.flatMap (aofInfoFormat [])).length := by
  induction ais with
  | nil => simp
  | cons ai ais ih =>
      rw [List.flatMap_cons, List.length_append, aofInfoFormat_eq]
      simp only [List.length_append, List.length_cons, List.length_nil]
      omega

/-- **Refinement.** Entries that are printed load to what the list of entries loads to, also where both are
refused; `f` gives the names that are compared. -/
theorem load_format (f : Bytes → String) (ais : List (AofInfo Bytes))
    (h : ∀ ai ∈ ais, FitsLine ai ∧ Readable ai.fileName) :
    (aofLoadManifestFromFile (ais.flatMap (aofInfoFormat []))).toOption.map (·.map f) =
      loadManifest (ais.map (·.map f)) := by
  unfold loadManifest
  by_cases hnil : ais = []
  · subst hnil
    rfl
  · have hlen := length_flatMap_format ais
    rw [if_neg (by simpa using hnil), aofLoadManifestFromFile]
    exact loadLoop_format f h (by omega) (.inr hnil) .create

/-- A name with one character for each byte. -/
def latin1 (name : Bytes) : String := String.ofList (name.map fun b => Char.ofNat b.toNat)

def twoBases : List (AofInfo Bytes) := [⟨bytes "a b.aof", 1, .base⟩, ⟨bytes "c.aof", 2, .base⟩]

/-- A manifest with two BASE files is refused, as the list of its lines is. -/
theorem load_format_two_bases :
    (aofLoadManifestFromFile (twoBases.flatMap (aofInfoFormat []))).toOption.map (·.map latin1) =
      loadManifest (twoBases.map (·.map latin1)) :=
  load_format latin1 twoBases (by
    intro ai hai
    simp only [twoBases, List.mem_cons, List.not_mem_nil, or_false] at hai
    rcases hai with rfl | rfl
    · exact ⟨⟨⟨⟨by decide, by decide, by decide⟩, by decide⟩, by decide⟩, by decide, by decide⟩
    · exact ⟨⟨⟨⟨by decide, by decide, by decide⟩, by decide⟩, by decide⟩, by decide, by decide⟩)

/-! ## Reading back what was printed -/

theorem latin1_injective : Function.Injective latin1 := by
  have hbyte : ∀ b : UInt8, (Char.ofNat b.toNat).toNat.toUInt8 = b := by decide +kernel
  have hinj : Function.Injective fun b : UInt8 => Char.ofNat b.toNat := by
    intro a b hab
    rw [← hbyte a, ← hbyte b]
    exact congrArg (fun c : Char => c.toNat.toUInt8) hab
  intro xs ys h
  exact List.map_injective_iff.mpr hinj (String.ofList_injective h)

theorem AofInfo.map_injective {N N' : Type} {f : N → N'} (hf : Function.Injective f) :
    Function.Injective (AofInfo.map f) := by
  rintro ⟨name, seq, type⟩ ⟨name', seq', type'⟩ h
  simp only [AofInfo.map, AofInfo.mk.injEq] at h
  obtain ⟨hname, rfl, rfl⟩ := h
  rw [hf hname]

theorem AofManifest.map_injective {N N' : Type} {f : N → N'} (hf : Function.Injective f) :
    Function.Injective (AofManifest.map f) := by
  have hinfo : Function.Injective (AofInfo.map f) := AofInfo.map_injective hf
  rintro ⟨base, hist, incr, curBase, curIncr, dirty⟩ ⟨base', hist', incr', curBase', curIncr', dirty'⟩ h
  simp only [AofManifest.map, AofManifest.mk.injEq] at h
  obtain ⟨hbase, hhist, hincr, rfl, rfl, rfl⟩ := h
  rw [Option.map_injective hinfo hbase, List.map_injective_iff.mpr hinfo hhist,
    List.map_injective_iff.mpr hinfo hincr]

theorem lines_map {N N' : Type} (f : N → N') (am : AofManifest N) : (am.map f).lines = am.lines.map (·.map f) := by
  obtain ⟨base, hist, incr, curBase, curIncr, dirty⟩ := am
  cases base <;> simp [AofManifest.map, AofManifest.lines]

theorem load_getAofManifestAsString {am : AofManifest Bytes} (hord : Ordered (am.map latin1)) (hne : am.lines ≠ [])
    (h : ∀ ai ∈ am.lines, FitsLine ai ∧ Readable ai.fileName) :
    aofLoadManifestFromFile (getAofManifestAsString am) = .ok { am with dirty := false } := by
  have hne' : (am.map latin1).lines ≠ [] := by simpa [lines_map] using hne
  have hlines := loadManifest_lines hord hne'
  rw [loadManifest, if_neg hne', lines_map] at hlines
  have hlen := length_flatMap_format am.lines
  have hload : (aofLoadManifestFromFile (getAofManifestAsString am)).toOption.map (·.map latin1) =
      (am.lines.map (·.map latin1)).foldlM loadLine .create := by
    rw [getAofManifestAsString_eq, aofLoadManifestFromFile]
    exact loadLoop_format latin1 h (by omega) (.inr hne) .create
  rw [hlines] at hload
  cases hres : aofLoadManifestFromFile (getAofManifestAsString am) with
  | error e =>
      rw [hres] at hload
      cases hload
  | ok am' =>
      rw [hres] at hload
      have heq : am'.map latin1 = { am with dirty := false }.map latin1 := Option.some.inj hload
      rw [AofManifest.map_injective latin1_injective heq]

/-- The bytes of all names. -/
def nameBytes (am : AofManifest Bytes) : Nat := (am.names.map List.length).sum

/-- A line gives a name that is no longer than the one it was printed for. -/
theorem readEntry_length {ai : AofInfo Bytes} (h : FitsLine ai) {ai' : RawInfo}
    (hres : readEntry (joinArgs (entryTexts ai) ++ [10]) = .ok ai') :
    ∃ value, ai' = ⟨some value, ai.fileSeq, ai.fileType.char⟩ ∧ value.length ≤ ai.fileName.length ∧
      (¬ Readable ai.fileName → value.length < ai.fileName.length) := by
  by_cases hread : Readable ai.fileName
  · rw [readEntry_args (isArg_nameText h.name hread) h.name h.seq] at hres
    split at hres
    · cases hres
    · cases hres
      exact ⟨_, rfl, Nat.le_refl _, fun hn => absurd hread hn⟩
  · rcases readEntry_unreadable h.toValidInfo hread with hnone | ⟨-, value, heq, hlt⟩
    · rw [hres] at hnone
      cases hnone
    · rw [hres] at heq
      cases heq
      exact ⟨value, rfl, Nat.le_of_lt hlt, fun _ => hlt⟩

theorem addEntry_nameBytes {am am' : AofManifest Bytes} {maxseq maxseq' seq : Int} {value : Bytes} {c : UInt8}
    (h : addEntry am maxseq ⟨some value, seq, c⟩ = .ok (am', maxseq')) :
    nameBytes am' = nameBytes am + value.length := by
  obtain ⟨base, hist, incr, curBase, curIncr, dirty⟩ := am
  unfold addEntry at h
  dsimp only at h
  split_ifs at h with hb hsome hh hi hle
  · cases h
    obtain rfl : base = none := by simpa using hsome
    simp [nameBytes, AofManifest.names, AofManifest.lines]
    omega
  · cases h
    simp [nameBytes, AofManifest.names, AofManifest.lines]
    omega
  · cases h
    simp [nameBytes, AofManifest.names, AofManifest.lines]
    omega

/-- The names only get shorter on the way through the file. -/
theorem loadLoop_nameBytes {ais : List (AofInfo Bytes)} (h : ∀ ai ∈ ais, FitsLine ai) {n linenum : Nat}
    {maxseq : Int} {am am' : AofManifest Bytes} (hn : ais.length < n)
    (hres : loadLoop n am maxseq linenum (ais.flatMap (aofInfoFormat [])) = .ok am') :
    nameBytes am' ≤ nameBytes am + (ais.map (·.fileName.length)).sum ∧
      ((∃ ai ∈ ais, ¬ Readable ai.fileName) →
        nameBytes am' < nameBytes am + (ais.map (·.fileName.length)).sum) := by
  induction ais generalizing n linenum maxseq am with
  | nil =>
      obtain ⟨m, rfl⟩ : ∃ m, n = m + 1 := ⟨n - 1, by simp at hn; omega⟩
      rw [List.flatMap_nil, loadLoop, fgets_none_iff.mpr rfl] at hres
      dsimp only at hres
      split at hres
      · cases hres
      · cases hres
        simp
  | cons ai ais ih =>
      obtain ⟨m, rfl⟩ : ∃ m, n = m + 1 := ⟨n - 1, by simp at hn; omega⟩
      have hfit := h ai List.mem_cons_self
      rw [List.flatMap_cons, loadLoop_line hfit] at hres
      cases hread : readEntry (joinArgs (entryTexts ai) ++ [10]) with
      | error e =>
          rw [hread] at hres
          cases hres
      | ok ai' =>
          obtain ⟨value, rfl, hle, hlt⟩ := readEntry_length hfit hread
          rw [hread] at hres
          dsimp only at hres
          cases hadd : addEntry am maxseq ⟨some value, ai.fileSeq, ai.fileType.char⟩ with
          | error err =>
              rw [hadd] at hres
              cases hres
          | ok res =>
              obtain ⟨am₁, maxseq₁⟩ := res
              rw [hadd] at hres
              have hbytes := addEntry_nameBytes hadd
              obtain ⟨hsum, hsum'⟩ := ih (fun b hb => h b (List.mem_cons_of_mem ai hb)) (by simpa using hn) hres
              simp only [List.map_cons, List.sum_cons, List.mem_cons, exists_eq_or_imp]
              refine ⟨by omega, ?_⟩
              rintro (hbad | hbad)
              · have := hlt hbad
                omega
              · have := hsum' hbad
                omega

/-- Every line of a file that is accepted has been read. -/
theorem loadLoop_read {ais : List (AofInfo Bytes)} (h : ∀ ai ∈ ais, FitsLine ai) {n linenum : Nat}
    {maxseq : Int} {am am' : AofManifest Bytes} (hn : ais.length < n)
    (hres : loadLoop n am maxseq linenum (ais.flatMap (aofInfoFormat [])) = .ok am') :
    ∀ ai ∈ ais, (readEntry (joinArgs (entryTexts ai) ++ [10])).toOption ≠ none := by
  induction ais generalizing n linenum maxseq am with
  | nil => exact List.forall_mem_nil _
  | cons ai ais ih =>
      obtain ⟨m, rfl⟩ : ∃ m, n = m + 1 := ⟨n - 1, by simp at hn; omega⟩
      rw [List.flatMap_cons, loadLoop_line (h ai List.mem_cons_self)] at hres
      have hrest : ∀ b ∈ ais, FitsLine b := fun b hb => h b (List.mem_cons_of_mem ai hb)
      cases hread : readEntry (joinArgs (entryTexts ai) ++ [10]) with
      | error e =>
          rw [hread] at hres
          cases hres
      | ok raw =>
          rw [hread] at hres
          dsimp only at hres
          split at hres
          · cases hres
          · rw [List.forall_mem_cons, hread]
            exact ⟨nofun, ih hrest (by simpa using hn) hres⟩

/-- A manifest is refused if a name cannot be read back, and does not end in a single quote. -/
theorem load_refused {am : AofManifest Bytes} (hfit : ∀ ai ∈ am.lines, FitsLine ai)
    (hbad : ∃ ai ∈ am.lines, ¬ Readable ai.fileName ∧ ai.fileName.getLast? ≠ some 39) :
    ∃ err, aofLoadManifestFromFile (getAofManifestAsString am) = .error err := by
  obtain ⟨ai, hai, hread, hlast⟩ := hbad
  cases hres : aofLoadManifestFromFile (getAofManifestAsString am) with
  | error err => exact ⟨err, rfl⟩
  | ok am' =>
      have hlen := length_flatMap_format am.lines
      rw [getAofManifestAsString_eq, aofLoadManifestFromFile] at hres
      rcases readEntry_unreadable (hfit ai hai).toValidInfo hread with hnone | ⟨hend, -⟩
      · exact absurd hnone (loadLoop_read hfit (by omega) hres ai hai)
      · exact absurd hend hlast

/-- A manifest in order whose lines fit is read back exactly if its names are. -/
theorem load_getAofManifestAsString_iff {am : AofManifest Bytes} (hord : Ordered (am.map latin1))
    (hne : am.lines ≠ []) (hfit : ∀ ai ∈ am.lines, FitsLine ai) :
    aofLoadManifestFromFile (getAofManifestAsString am) = .ok { am with dirty := false } ↔
      ∀ name ∈ am.names, Readable name := by
  constructor
  · intro hres name hname
    by_contra hread
    obtain ⟨ai, hai, rfl⟩ := List.mem_map.mp hname
    have hlen := length_flatMap_format am.lines
    rw [getAofManifestAsString_eq, aofLoadManifestFromFile] at hres
    have hlt := (loadLoop_nameBytes hfit (by omega) hres).2 ⟨ai, hai, hread⟩
    have hsame : nameBytes { am with dirty := false } = (am.lines.map (·.fileName.length)).sum := by
      unfold nameBytes AofManifest.names
      rw [List.map_map]
      rfl
    rw [hsame] at hlt
    simp [nameBytes, AofManifest.names, AofManifest.lines, AofManifest.create] at hlt
  · intro hread
    exact load_getAofManifestAsString hord hne fun ai hai => ⟨hfit ai hai, hread _ (List.mem_map_of_mem hai)⟩

/-! ## Whatever the file has in it -/

theorem baseName_cString {value : Bytes} (h : pathIsBaseName (cString value) = true) : BaseName (cString value) := by
  have hzero : ∀ b ∈ cString value, b ≠ 0 := by
    intro b hb
    simpa using List.mem_takeWhile_imp hb
  have hslash : 47 ∉ cString value ∧ 92 ∉ cString value := by
    simpa [pathIsBaseName, cString_of_ne hzero] using h
  exact ⟨fun hb => hzero 0 hb rfl, hslash.1, hslash.2⟩

/-- The name, if there is one, is a base name, and the number fits into `long long`. -/
structure RawInfo.Valid (ai : RawInfo) : Prop where
  name : ∀ name ∈ ai.fileName, BaseName name
  seq : -2 ^ 63 ≤ ai.fileSeq ∧ ai.fileSeq < 2 ^ 63

theorem setField_valid {key value : Bytes} {ai ai' : RawInfo} (h : ai.setField key value = .ok ai')
    (hvalid : ai.Valid) : ai'.Valid := by
  unfold RawInfo.setField at h
  split_ifs at h with hfile hbase hseq htype
  · cases h
    refine ⟨?_, hvalid.seq⟩
    rintro name ⟨⟩
    exact baseName_cString hbase
  · cases h
    refine ⟨hvalid.name, ?_⟩
    have hlow := Int.le_bmod (x := number (cString value)) (m := 2 ^ 64) (by decide)
    have hhigh := Int.bmod_lt (x := number (cString value)) (m := 2 ^ 64) (by decide)
    show -2 ^ 63 ≤ (number (cString value)).bmod (2 ^ 64) ∧ (number (cString value)).bmod (2 ^ 64) < 2 ^ 63
    omega
  · cases h
    exact ⟨hvalid.name, hvalid.seq⟩
  · cases h
    exact hvalid

/-- The arguments of a line set what they may. -/
theorem setFields_valid {argv : List Bytes} {ai ai' : RawInfo} (h : ai.setFields argv = .ok ai')
    (hvalid : ai.Valid) : ai'.Valid := by
  induction ai, argv using RawInfo.setFields.induct with
  | case1 ai key value argv err hfield =>
      rw [RawInfo.setFields, hfield] at h
      cases h
  | case2 ai key value argv ai₁ hfield ih =>
      rw [RawInfo.setFields, hfield] at h
      exact ih h (setField_valid hfield hvalid)
  | case3 ai argv hargv =>
      rw [RawInfo.setFields] at h
      · cases h
        exact hvalid
      · exact hargv

theorem readEntry_ok {buf : Bytes} {ai : RawInfo} (h : readEntry buf = .ok ai) :
    ∃ name, ai.fileName = some name ∧ ai.Valid ∧ ai.fileSeq ≠ 0 := by
  unfold readEntry at h
  dsimp only at h
  split at h
  · cases h
  · split at h
    · cases h
    · split at h
      · cases h
      · split at h
        · cases h
        · split at h
          · cases h
          · next ai' hfields =>
              split at h
              · cases h
              · next hset =>
                  cases h
                  simp only [not_or] at hset
                  obtain ⟨name, hname⟩ := Option.ne_none_iff_exists'.mp hset.1
                  have hvalid : RawInfo.create.Valid := ⟨nofun, by decide⟩
                  exact ⟨name, hname, setFields_valid hfields hvalid, hset.2.1⟩

theorem addEntry_ok {am am' : AofManifest Bytes} {maxseq : Int} {ai : RawInfo} {name : Bytes}
    (hname : ai.fileName = some name) (hseq : ai.fileSeq ≠ 0) (hord : Ordered (am.map latin1))
    (h : addEntry am am.currIncrFileSeq ai = .ok (am', maxseq)) :
    Ordered (am'.map latin1) ∧ maxseq = am'.currIncrFileSeq ∧ am'.dirty = am.dirty ∧
      ∀ b ∈ am'.lines, b ∈ am.lines ∨ b.fileName = name ∧ b.fileSeq = ai.fileSeq := by
  obtain ⟨name', seq, c⟩ := ai
  obtain rfl : name' = some name := hname
  -- only the three types are accepted
  obtain ⟨type, rfl⟩ : ∃ type : AofFileType, c = type.char := by
    unfold addEntry at h
    dsimp only at h
    split_ifs at h with hb _ hh hi
    · exact ⟨.base, hb⟩
    · exact ⟨.hist, hh⟩
    · exact ⟨.incr, hi⟩
  have hload := addEntry_loadLine latin1 am ⟨name, seq, type⟩ hseq
  rw [h] at hload
  obtain ⟨hline, hmax⟩ := hload
  obtain ⟨hord', hperm, hdirty⟩ := loadLine_some hord hline
  refine ⟨hord', hmax, hdirty, ?_⟩
  intro b hb
  rw [lines_map, lines_map, ← List.map_singleton, ← List.map_append] at hperm
  obtain ⟨b', hb', heq⟩ := List.mem_map.mp (hperm.subset (List.mem_map_of_mem hb))
  obtain rfl := AofInfo.map_injective latin1_injective heq
  rcases List.mem_append.mp hb' with hold | hnew
  · exact .inl hold
  · obtain rfl := List.mem_singleton.mp hnew
    exact .inr ⟨rfl, rfl⟩

theorem loadLoop_ok {n linenum : Nat} {text : Bytes} {am am' : AofManifest Bytes}
    (hord : Ordered (am.map latin1)) (hdirty : am.dirty = false) (hvalid : ∀ ai ∈ am.lines, ValidInfo ai)
    (h : loadLoop n am am.currIncrFileSeq linenum text = .ok am') :
    Ordered (am'.map latin1) ∧ am'.dirty = false ∧ ∀ ai ∈ am'.lines, ValidInfo ai := by
  induction n generalizing am linenum text with
  | zero =>
      cases h
      exact ⟨hord, hdirty, hvalid⟩
  | succ n ih =>
      unfold loadLoop at h
      split at h
      · split at h
        · cases h
        · cases h
          exact ⟨hord, hdirty, hvalid⟩
      · split at h
        · exact ih hord hdirty hvalid h
        · split at h
          · cases h
          · next ai hread =>
              obtain ⟨name, hname, hfields, hseq⟩ := readEntry_ok hread
              split at h
              · cases h
              · next am₁ maxseq hadd =>
                  obtain ⟨hord₁, rfl, hdirty₁, hlines₁⟩ := addEntry_ok hname hseq hord hadd
                  refine ih hord₁ (hdirty₁.trans hdirty) ?_ h
                  intro b hb
                  rcases hlines₁ b hb with hold | ⟨rfl, hsame⟩
                  · exact hvalid b hold
                  · exact ⟨hfields.name _ hname, hsame ▸ hfields.seq⟩

/-- Whatever bytes the file has, a manifest that is accepted is in order, and its names are base names. -/
theorem load_wellFormed {text : Bytes} {am : AofManifest Bytes} (h : aofLoadManifestFromFile text = .ok am) :
    Ordered (am.map latin1) ∧ am.dirty = false ∧ ∀ ai ∈ am.lines, ValidInfo ai := by
  have hcreate : Ordered ((AofManifest.create : AofManifest Bytes).map latin1) := ordered_create
  have hvalid : ∀ ai ∈ (AofManifest.create : AofManifest Bytes).lines, ValidInfo ai := by
    simp [AofManifest.lines, AofManifest.create]
  exact loadLoop_ok hcreate rfl hvalid h

/-- **What is accepted.** Whatever bytes the manifest file has: if it is accepted, the manifest is in order, its
names are base names, and if it has entries and their lines are not too long, then written out again it
is read back as it is, exactly if no name is empty, or has a single quote without a byte that calls for
double quotes. -/
theorem accepted_manifest_rereads_iff {text : Bytes} {am : AofManifest Bytes}
    (h : aofLoadManifestFromFile text = .ok am) :
    Ordered (am.map latin1) ∧ (∀ ai ∈ am.lines, ValidInfo ai) ∧
      (am.lines ≠ [] → (∀ ai ∈ am.lines, (aofInfoFormat [] ai).length ≤ manifestMaxLine) →
        (aofLoadManifestFromFile (getAofManifestAsString am) = .ok am ↔ ∀ name ∈ am.names, Readable name)) := by
  obtain ⟨hord, hdirty, hvalid⟩ := load_wellFormed h
  refine ⟨hord, hvalid, ?_⟩
  intro hne hshort
  have hclean : { am with dirty := false } = am := by rw [← hdirty]
  have hiff := load_getAofManifestAsString_iff hord hne fun ai hai => ⟨hvalid ai hai, hshort ai hai⟩
  rw [hclean] at hiff
  exact hiff

/-- A file with a comment, blanks, and keys in capital letters and in another order. -/
def foreignManifest : Bytes := bytes "# by hand\n  TYPE i Seq 7 file \"it's.aof\" user me\t\r\n"

def foreignEntries : AofManifest Bytes := ⟨none, [], [⟨bytes "it's.aof", 7, .incr⟩], 0, 7, false⟩

/-- The name is accepted in double quotes, but it is not written in double quotes. -/
theorem accepted_manifest_rereads_foreign :
    aofLoadManifestFromFile (getAofManifestAsString foreignEntries) ≠ .ok foreignEntries := by
  have hiff := (accepted_manifest_rereads_iff
    (show aofLoadManifestFromFile foreignManifest = .ok foreignEntries by decide)).2.2 (by decide) (by
      intro ai hai
      obtain rfl := List.mem_singleton.mp hai
      decide)
  rw [Ne, hiff]
  intro hread
  exact absurd ((hread (bytes "it's.aof") (by decide)).2 (by decide)) (by decide)

/-! ## Names with a common beginning -/

/-- What is appended in small letters, digits and dots does not matter. -/
theorem readable_append {name suffix : Bytes} (hne : suffix ≠ []) (h : suffix.all wordByte = true) :
    Readable (name ++ suffix) ↔ (39 ∈ name → sdsneedsrepr name = true) := by
  rw [List.all_eq_true] at h
  have hquote : 39 ∉ suffix := fun hmem => (wordByte_plain 39 (h 39 hmem)).1 rfl
  have hrepr : sdsneedsrepr suffix = false :=
    List.any_eq_false.mpr fun b hb => by simpa using (wordByte_plain b (h b hb)).2
  unfold Readable
  rw [List.mem_append, sdsneedsrepr, List.any_append]
  unfold sdsneedsrepr at hrepr
  simp [hne, hquote, hrepr, sdsneedsrepr]

end WasiPorts.Redis.Aof
