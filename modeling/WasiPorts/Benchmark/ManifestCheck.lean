import WasiPorts.Benchmark.AotCache
import WasiPorts.Lib.Json

/-!
# The check of the manifest

The `try` of `wasmtime-llvm-aot.py` on any content of a folder: the manifest is read, decoded, parsed,
subscripted and compared, and each of these raises exceptions of its own. Only `OSError`, `ValueError`
and `KeyError` are turned into a compilation.

A manifest that is missing or damaged so that it is no JSON is therefore replaced, and the next run
finds a hit. But a text that is JSON and no object raises a `TypeError` when it is subscripted, and one
that is nested too deeply a `RecursionError`; the script then dies, and the manifest stays as it is
(`recovers_iff_readable`).
-/

namespace WasiPorts.Benchmark

open WasiPorts.Json

/-! ## Python -/

inductive PyError where
  | osError
  | valueError
  | keyError
  | typeError
  | recursionError
  deriving DecidableEq, Repr

/-- `except (OSError, ValueError, KeyError)`. -/
def PyError.caught : PyError → Bool
  | .osError | .valueError | .keyError => true
  | .typeError | .recursionError => false

def Ascii (s : Str) : Prop := ∀ c ∈ s, c < 128

instance (s : Str) : Decidable (Ascii s) := inferInstanceAs (Decidable (∀ c ∈ s, c < 128))

/-- What the script uses of the interpreter. -/
structure Python where
  /-- `digest` of a file with this content, in hexadecimal digits. -/
  digest : Bytes → Str
  digest_ascii : ∀ bytes, Ascii (digest bytes)
  /-- The arrays and objects that `json.loads` can have open. -/
  limit : Nat
  limit_ge : 3 ≤ limit

/-- The code points of a literal. -/
def codes (s : String) : Str := s.toList.map Char.toNat

def encode (text : Text) : Bytes := text.flatMap String.utf8EncodeChar

def decode (bytes : Bytes) : Option Text := bytes.toByteArray.utf8Decode?.map Array.toList

/-- `read_text`; a `UnicodeDecodeError` is a `ValueError`. That it turns `\r` into `\n` makes no
difference to the parser. -/
def readText : Option Bytes → Except PyError Text
  | none => .error .osError
  | some bytes =>
    match decode bytes with
    | none => .error .valueError
    | some text => .ok text

/-- `json.loads`; a `JSONDecodeError` is a `ValueError`. -/
def jsonLoads (limit : Nat) (text : Text) : Except PyError Value :=
  match loads limit text with
  | .ok j => .ok j
  | .error .valueError => .error .valueError
  | .error .recursionError => .error .recursionError

/-- The field of a dictionary, the last one of its name. -/
def field (fields : List (Str × Value)) (key : Str) : Option Value := fields.reverse.lookup key

/-- `saved[key]`. -/
def subscript (saved : Value) (key : Str) : Except PyError Value :=
  match saved with
  | .obj fields =>
    match field fields key with
    | some j => .ok j
    | none => .error .keyError
  | _ => .error .typeError

/-- `==` with a string. -/
def eqStr (j : Value) (s : Str) : Bool :=
  match j with
  | .str t => t = s
  | _ => false

/-- `==` with a list of strings. -/
def eqStrs (j : Value) (l : List Str) : Bool :=
  match j with
  | .arr items => items.length = l.length && (items.zip l).all fun p => eqStr p.1 p.2
  | _ => false

/-- `== 1`, which is also true of `True` and of the floats that round to it. -/
def eqOne : Value → Bool
  | .int n => n = 1
  | .bool b => b
  | .float m e =>
    let num : Int := m * 10 ^ e.toNat
    let den : Int := 10 ^ (-e).toNat
    (2 ^ 54 - 1) * den ≤ 2 ^ 54 * num && 2 ^ 53 * num ≤ (2 ^ 53 + 1) * den
  | _ => false

/-- `saved['identity'] == identity`: the same names with equal values. -/
def eqIdentity (j : Value) (identity : Identity Str) : Bool :=
  match j with
  | .obj fields =>
    (fields.map Prod.fst).dedup.length = 4
      && (field fields (codes "format")).any eqOne
      && (field fields (codes "runtime_sha256")).any (eqStr · identity.runtimeSha256)
      && (field fields (codes "input_sha256")).any (eqStr · identity.inputSha256)
      && (field fields (codes "flags")).any (eqStrs · (identity.flags.map codes))
  | _ => false

/-! ## The script -/

/-- The arguments of a run. -/
structure Input where
  runtime : Bytes
  source : Bytes
  /-- `str(source)`. -/
  path : Str
  path_codes : ∀ c ∈ path, c < 0x110000

/-- The files of the folder. -/
structure Stored where
  manifest : Option Bytes
  artifact : Option Bytes

/-- The end of a run whose compiler and writes succeed. -/
inductive Outcome where
  | hit
  | compiled (after : Stored)
  | aborted (error : PyError)

section Script

variable (py : Python)

def Python.identity (input : Input) : Identity Str :=
  ⟨1, py.digest input.runtime, py.digest input.source, flags⟩

/-- `digest(artifact)`. -/
def Python.digestFile : Option Bytes → Except PyError Str
  | none => .error .osError
  | some bytes => .ok (py.digest bytes)

/-- `json.loads(manifest.read_text())`. -/
def Python.load (manifest : Option Bytes) : Except PyError Value := do
  let text ← readText manifest
  jsonLoads py.limit text

/-- `valid`, for the manifest that was loaded; the second comparison is made only after the first. -/
def valid (input : Input) (artifact : Option Bytes) (saved : Value) : Except PyError Bool := do
  let identity ← subscript saved (codes "identity")
  if eqIdentity identity (py.identity input) then
    let aot ← subscript saved (codes "aot_sha256")
    let digest ← py.digestFile artifact
    return eqStr aot digest
  else return false

/-- The body of the `try`. -/
def check (input : Input) (stored : Stored) : Except PyError Bool := do
  let saved ← py.load stored.manifest
  valid py input stored.artifact saved

/-- `json.dumps(dict(identity=…, aot_sha256=…, source=…), indent=2) + '\n'`. -/
def manifestText (input : Input) (output : Bytes) : Text :=
  dictText 0 [
    (codes "identity", dictText 1 [
      (codes "format", ['1']),
      (codes "runtime_sha256", quote (py.digest input.runtime)),
      (codes "input_sha256", quote (py.digest input.source)),
      (codes "flags", listText 2 (flags.map fun flag => quote (codes flag)))]),
    (codes "aot_sha256", quote (py.digest output)),
    (codes "source", quote input.path)] ++ ['\n']

/-- The compiler wrote `output`, which is renamed over the artifact. -/
def compile (input : Input) (output : Bytes) : Outcome :=
  .compiled ⟨some (encode (manifestText py input output)), some output⟩

def run (input : Input) (output : Bytes) (stored : Stored) : Outcome :=
  match check py input stored with
  | .ok true => .hit
  | .ok false => compile py input output
  | .error e => if e.caught then compile py input output else .aborted e

/-! ## Recovery -/

/-- The manifest is an object with the identity of the run and the digest of the artifact. -/
def Matches (input : Input) (stored : Stored) : Prop :=
  ∃ bytes text fields identity aot artifact,
    stored.manifest = some bytes ∧ decode bytes = some text ∧ loads py.limit text = .ok (.obj fields) ∧
    field fields (codes "identity") = some identity ∧ eqIdentity identity (py.identity input) = true ∧
    field fields (codes "aot_sha256") = some aot ∧ stored.artifact = some artifact ∧
    eqStr aot (py.digest artifact) = true

/-- A run finds a hit that is one, or leaves what the next run finds to be a hit. -/
def Recovers (input : Input) (output : Bytes) (stored : Stored) : Prop :=
  match run py input output stored with
  | .hit => Matches py input stored
  | .compiled after => ∀ output', run py input output' after = .hit
  | .aborted _ => False

/-- There is no manifest, or it is no text, no JSON, or an object. -/
def Readable (limit : Nat) : Option Bytes → Prop
  | none => True
  | some bytes =>
    match decode bytes with
    | none => True
    | some text =>
      match loads limit text with
      | .error e => e = .valueError
      | .ok (.obj _) => True
      | .ok _ => False

/-! ## What the check finds -/

theorem decode_encode (text : Text) : decode (encode text) = some text := by
  have hbytes : (encode text).toByteArray = text.utf8Encode := rfl
  unfold decode
  rw [hbytes, List.utf8Decode?_utf8Encode]
  rfl

variable {py} {input : Input} {stored : Stored} {output : Bytes}

theorem load_undecodable {bytes : Bytes} (h : decode bytes = none) :
    py.load (some bytes) = .error .valueError := by
  unfold Python.load
  simp only [readText, h]
  rfl

theorem load_text {bytes : Bytes} {text : Text} (h : decode bytes = some text) :
    py.load (some bytes) = jsonLoads py.limit text := by
  unfold Python.load
  simp only [readText, h]
  rfl

theorem jsonLoads_ok {limit : Nat} {text : Text} {saved : Value} :
    jsonLoads limit text = .ok saved ↔ loads limit text = .ok saved := by
  unfold jsonLoads
  split <;> simp [*]

theorem loads_of_load {manifest : Option Bytes} {saved : Value} (h : py.load manifest = .ok saved) :
    ∃ bytes text, manifest = some bytes ∧ decode bytes = some text ∧
      loads py.limit text = .ok saved := by
  cases manifest with
  | none => cases h
  | some bytes =>
    cases hdecode : decode bytes with
    | none =>
      rw [load_undecodable hdecode] at h
      cases h
    | some text =>
      rw [load_text hdecode] at h
      exact ⟨bytes, text, rfl, hdecode, jsonLoads_ok.mp h⟩

/-- A readable manifest loads as an object, or fails with what is caught. -/
theorem load_of_readable {manifest : Option Bytes} (h : Readable py.limit manifest) :
    (∃ e, py.load manifest = .error e ∧ e.caught = true) ∨ ∃ fields, py.load manifest = .ok (.obj fields) := by
  cases manifest with
  | none => exact .inl ⟨.osError, rfl, rfl⟩
  | some bytes =>
    unfold Readable at h
    cases hdecode : decode bytes with
    | none => exact .inl ⟨.valueError, load_undecodable hdecode, rfl⟩
    | some text =>
      simp only [hdecode] at h
      rw [load_text hdecode]
      unfold jsonLoads
      split at h
      next e hloads =>
        subst h
        rw [hloads]
        exact .inl ⟨.valueError, rfl, rfl⟩
      next fields hloads =>
        rw [hloads]
        exact .inr ⟨fields, rfl⟩
      next => cases h

/-- Any other manifest is nested too deeply, or is no object. -/
theorem load_of_not_readable {manifest : Option Bytes} (h : ¬ Readable py.limit manifest) :
    py.load manifest = .error .recursionError ∨
      ∃ saved, py.load manifest = .ok saved ∧ ∀ fields, saved ≠ .obj fields := by
  cases manifest with
  | none => exact absurd trivial h
  | some bytes =>
    unfold Readable at h
    cases hdecode : decode bytes with
    | none => simp [hdecode] at h
    | some text =>
      simp only [hdecode] at h
      rw [load_text hdecode]
      unfold jsonLoads
      split at h
      next e hloads =>
        cases e with
        | valueError => exact absurd rfl h
        | recursionError =>
          rw [hloads]
          exact .inl rfl
      next => exact absurd trivial h
      next saved hobj hloads =>
        rw [hloads]
        exact .inr ⟨saved, rfl, hobj⟩

theorem check_of_load_error {e : PyError} (h : py.load stored.manifest = .error e) :
    check py input stored = .error e := by
  unfold check
  rw [h]
  rfl

theorem check_of_load {saved : Value} (h : py.load stored.manifest = .ok saved) :
    check py input stored = valid py input stored.artifact saved := by
  unfold check
  rw [h]
  rfl

theorem valid_of_not_obj {artifact : Option Bytes} {saved : Value} (h : ∀ fields, saved ≠ .obj fields) :
    valid py input artifact saved = .error .typeError := by
  unfold valid subscript
  split
  next fields => exact absurd rfl (h fields)
  next => rfl

/-- The look-ups and comparisons on an object, written out. -/
theorem valid_obj {artifact : Option Bytes} {fields : List (Str × Value)} :
    valid py input artifact (.obj fields) =
      match field fields (codes "identity") with
      | none => .error .keyError
      | some identity =>
        if eqIdentity identity (py.identity input) then
          match field fields (codes "aot_sha256"), artifact with
          | none, _ => .error .keyError
          | some _, none => .error .osError
          | some aot, some bytes => .ok (eqStr aot (py.digest bytes))
        else .ok false := by
  unfold valid
  simp only [subscript]
  cases field fields (codes "identity") with
  | none => rfl
  | some identity =>
    simp only [bind, Except.bind]
    split
    next => cases field fields (codes "aot_sha256") <;> cases artifact <;> rfl
    next => rfl

theorem caught_of_valid_obj {artifact : Option Bytes} {fields : List (Str × Value)} {e : PyError}
    (h : valid py input artifact (.obj fields) = .error e) : e.caught = true := by
  rw [valid_obj] at h
  split at h
  next => cases h; rfl
  next identity hidentity =>
    split at h
    next heq =>
      split at h
      next => cases h; rfl
      next => cases h; rfl
      next => cases h
    next => cases h

theorem matches_of_check (h : check py input stored = .ok true) : Matches py input stored := by
  cases hload : py.load stored.manifest with
  | error e =>
    rw [check_of_load_error hload] at h
    cases h
  | ok saved =>
    rw [check_of_load hload] at h
    obtain ⟨bytes, text, hmanifest, hdecode, hloads⟩ := loads_of_load hload
    by_cases hobj : ∀ fields, saved ≠ .obj fields
    · rw [valid_of_not_obj hobj] at h
      cases h
    · push Not at hobj
      obtain ⟨fields, rfl⟩ := hobj
      rw [valid_obj] at h
      split at h
      next => cases h
      next identity hidentity =>
        split at h
        next heq =>
          split at h
          next => cases h
          next => cases h
          next aot artifact haot hartifact =>
            injection h with h
            exact ⟨bytes, text, fields, identity, aot, artifact, hmanifest, hdecode, hloads,
              hidentity, heq, haot, hartifact, h⟩
        next => cases h

/-! ## What a run leaves -/

/-- The fields of the identity, as they are read back. -/
def identityFields (py : Python) (input : Input) : List (Str × Value) :=
  [(codes "format", .int 1), (codes "runtime_sha256", .str (py.digest input.runtime)),
    (codes "input_sha256", .str (py.digest input.source)),
    (codes "flags", .arr (flags.map fun flag => .str (codes flag)))]

/-- The fields of the manifest, as they are read back. -/
def manifestFields (py : Python) (input : Input) (output : Bytes) : List (Str × Value) :=
  [(codes "identity", .obj (identityFields py input)), (codes "aot_sha256", .str (py.digest output)),
    (codes "source", .str (joined input.path))]

theorem joined_ascii {s : Str} (h : Ascii s) : joined s = s :=
  joined_of_lt fun c hc => lt_trans (h c hc) (by decide)

theorem reads_ascii {limit : Nat} {s : Str} (h : Ascii s) : Reads limit 0 (quote s) (.str s) := by
  have hreads : Reads limit 0 (quote s) (.str (joined s)) :=
    reads_quote fun c hc => lt_trans (h c hc) (by decide)
  rwa [joined_ascii h] at hreads

theorem fieldReads_ascii {limit depth : Nat} {name : String} (hname : Ascii (codes name)) {text : Text}
    {j : Value} (h : Reads limit depth text j) :
    FieldReads limit depth (codes name, text) (codes name, j) :=
  ⟨fun c hc => lt_trans (hname c hc) (by decide), (joined_ascii hname).symm, h⟩

theorem reads_flags {limit : Nat} :
    Reads limit 1 (listText 2 (flags.map fun flag => quote (codes flag)))
      (.arr (flags.map fun flag => .str (codes flag))) := by
  have hflags : ∀ flag ∈ flags, Ascii (codes flag) := by decide
  apply reads_list
  · rw [List.forall₂_map_left_iff, List.forall₂_map_right_iff, List.forall₂_same]
    exact fun flag hflag => reads_ascii (hflags flag hflag)
  · simp [flags]

theorem reads_identity :
    Reads py.limit 2 (dictText 1 [
      (codes "format", ['1']),
      (codes "runtime_sha256", quote (py.digest input.runtime)),
      (codes "input_sha256", quote (py.digest input.source)),
      (codes "flags", listText 2 (flags.map fun flag => quote (codes flag)))])
    (.obj (identityFields py input)) := by
  have hdigest : ∀ bytes, Reads py.limit 1 (quote (py.digest bytes)) (.str (py.digest bytes)) :=
    fun bytes => (reads_ascii (py.digest_ascii bytes)).mono (by omega)
  apply reads_dict
  · refine .cons (fieldReads_ascii (by decide) (reads_one.mono (by omega))) ?_
    refine .cons (fieldReads_ascii (by decide) (hdigest _)) ?_
    refine .cons (fieldReads_ascii (by decide) (hdigest _)) ?_
    exact .cons (fieldReads_ascii (by decide) reads_flags) .nil
  · simp

theorem loads_manifestText :
    loads py.limit (manifestText py input output) = .ok (.obj (manifestFields py input output)) := by
  have hpath : Reads py.limit 0 (quote input.path) (.str (joined input.path)) :=
    reads_quote input.path_codes
  refine loads_of_reads (?_ : Reads py.limit 3 _ _) py.limit_ge ?_
  · apply reads_dict
    · refine .cons (fieldReads_ascii (by decide) reads_identity) ?_
      refine .cons (fieldReads_ascii (by decide) ((reads_ascii (py.digest_ascii _)).mono (by omega))) ?_
      exact .cons (fieldReads_ascii (by decide) (hpath.mono (by omega))) .nil
    · simp
  · simp [dictText]

theorem eqIdentity_identityFields :
    eqIdentity (.obj (identityFields py input)) (py.identity input) = true := by
  have hkeys : ((identityFields py input).map Prod.fst).dedup.length = 4 := by
    have hnames : (identityFields py input).map Prod.fst
        = [codes "format", codes "runtime_sha256", codes "input_sha256", codes "flags"] := rfl
    rw [hnames]
    decide
  have hformat : field (identityFields py input) (codes "format") = some (.int 1) := rfl
  have hruntime : field (identityFields py input) (codes "runtime_sha256")
      = some (.str (py.digest input.runtime)) := rfl
  have hinput : field (identityFields py input) (codes "input_sha256")
      = some (.str (py.digest input.source)) := rfl
  have hflags : field (identityFields py input) (codes "flags")
      = some (.arr (flags.map fun flag => .str (codes flag))) := rfl
  have heq : eqStrs (.arr (flags.map fun flag => .str (codes flag))) (flags.map codes) = true := by
    decide
  simp only [eqIdentity, hkeys, hformat, hruntime, hinput, hflags, Option.any_some]
  simp [eqOne, eqStr, Python.identity, heq]

/-- The run after a compilation finds what it left. -/
theorem check_compiled :
    check py input ⟨some (encode (manifestText py input output)), some output⟩ = .ok true := by
  have hload : py.load (some (encode (manifestText py input output)))
      = .ok (.obj (manifestFields py input output)) := by
    rw [load_text (decode_encode _)]
    exact jsonLoads_ok.mpr loads_manifestText
  have hcheck : check py input ⟨some (encode (manifestText py input output)), some output⟩
      = valid py input (some output) (.obj (manifestFields py input output)) := check_of_load hload
  have hidentity : field (manifestFields py input output) (codes "identity")
      = some (.obj (identityFields py input)) := rfl
  have haot : field (manifestFields py input output) (codes "aot_sha256")
      = some (.str (py.digest output)) := rfl
  rw [hcheck, valid_obj, hidentity, haot]
  simp [eqIdentity_identityFields, eqStr]

/-! ## The main result -/

theorem run_compiled (output' : Bytes) :
    run py input output' ⟨some (encode (manifestText py input output)), some output⟩ = .hit := by
  unfold run
  rw [check_compiled]

theorem recovers_of_compile (h : run py input output stored = compile py input output) :
    Recovers py input output stored := by
  unfold Recovers
  rw [h]
  simp only [compile]
  intro output'
  exact run_compiled output'

theorem recovers_of_hit (h : check py input stored = .ok true) : Recovers py input output stored := by
  have hrun : run py input output stored = .hit := by
    unfold run
    rw [h]
  unfold Recovers
  rw [hrun]
  exact matches_of_check h

/-- A run recovers if the exception of its check is caught. -/
theorem recovers_iff_caught :
    Recovers py input output stored ↔ ∀ e, check py input stored = .error e → e.caught = true := by
  cases hcheck : check py input stored with
  | ok b =>
    refine iff_of_true ?_ (by simp)
    cases b with
    | true => exact recovers_of_hit hcheck
    | false =>
      apply recovers_of_compile
      unfold run
      rw [hcheck]
  | error e =>
    cases hcaught : e.caught with
    | true =>
      refine iff_of_true ?_ (by simpa using hcaught)
      apply recovers_of_compile
      unfold run
      rw [hcheck]
      simp only [hcaught, if_true]
    | false =>
      refine iff_of_false ?_ (by simpa using hcaught)
      unfold Recovers run
      rw [hcheck]
      simp only [hcaught, Bool.false_eq_true, if_false, not_false_eq_true]

/-- Whatever is stored, a run recovers from it exactly when the manifest is missing, is no text, is no
JSON, or is an object. -/
theorem recovers_iff_readable (py : Python) (input : Input) (output : Bytes) (stored : Stored) :
    Recovers py input output stored ↔ Readable py.limit stored.manifest := by
  rw [recovers_iff_caught]
  constructor
  · intro h
    by_contra hread
    rcases load_of_not_readable hread with hload | ⟨saved, hload, hobj⟩
    · exact absurd (h _ (check_of_load_error hload)) (by decide)
    · have hcheck : check py input stored = .error .typeError := by
        rw [check_of_load hload, valid_of_not_obj hobj]
      exact absurd (h _ hcheck) (by decide)
  · intro hread e he
    rcases load_of_readable hread with ⟨e', hload, hcaught⟩ | ⟨fields, hload⟩
    · rw [check_of_load_error hload] at he
      cases he
      exact hcaught
    · rw [check_of_load hload] at he
      exact caught_of_valid_obj he

/-- All files of the run are empty, so one digest is enough. -/
def emptyPython : Python where
  digest := fun _ => codes "e3b0c44298fc1c149afbf4c8996fb92427ae41e4649b934ca495991b7852b855"
  digest_ascii := fun _ => by decide
  limit := 1000
  limit_ge := by decide

def emptyInput : Input := ⟨[], [], codes "/app.wasm", by decide⟩

/-- The manifest is the two bytes `[]`, and the run dies with a `TypeError`. -/
theorem list_manifest_aborts :
    run emptyPython emptyInput [] ⟨some [91, 93], none⟩ = .aborted .typeError ∧
      ¬ Recovers emptyPython emptyInput [] ⟨some [91, 93], none⟩ := by
  have hdecode : decode [91, 93] = some ['[', ']'] := decode_encode ['[', ']']
  have hload : emptyPython.load (some [91, 93]) = .ok (.arr []) := by
    rw [load_text hdecode]
    rfl
  have hcheck : check emptyPython emptyInput ⟨some [91, 93], none⟩ = .error .typeError := by
    rw [check_of_load hload]
    rfl
  constructor
  · unfold run
    rw [hcheck]
    rfl
  · rw [recovers_iff_caught]
    intro h
    exact absurd (h _ hcheck) (by decide)

end Script

end WasiPorts.Benchmark
