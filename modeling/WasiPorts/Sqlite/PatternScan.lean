import Mathlib.Data.List.Basic
import WasiPorts.Lib.Socket

/-!
# The scan of `patternCompare`

After a wildcard, `patternCompare` jumps to the next byte at which the rest of the pattern can start.
The native build does this by `strcspn`, the WASM build by a loop that compares each byte with the
first two slots of `zStop`.

A pointer is the rest of the memory it points into, and a read behind its end gives `none`. A
NUL-terminated string is `str ++ 0 :: rest`; that `rest` may be empty says that the scan does not
read behind the terminator.

* `scan_eq_strcspn` — the loop advances by what `strcspn` returns.
* `wasm_scan_same_candidates` — so the loop around it tries the same positions.
-/

namespace WasiPorts.Sqlite

/-! ## The code -/

/-- `char zStop[3]`; `char` is signed on this target. -/
structure ZStop where
  first : Int8
  second : Int8
  third : Int8
  deriving DecidableEq, Repr

/-- What `patternCompare` stores: two bytes and a zero, or one byte and a zero. -/
def ZStop.Filled (z : ZStop) : Prop := z.first ≠ 0 ∧ (z.third = 0 ∨ z.second = 0)

instance (z : ZStop) : Decidable z.Filled := inferInstanceAs (Decidable (_ ∧ _))

def ZStop.chars (z : ZStop) : List Int8 := [z.first, z.second, z.third]

/-- The characters of the string that `p` points to. -/
def cString (p : List Int8) : List Int8 := p.takeWhile (· ≠ 0)

/-- `strcspn`: the length of the longest initial segment of `s` without characters of `reject`. -/
def strcspn (s reject : List Int8) : Nat := ((cString s).takeWhile (· ∉ cString reject)).length

/-- `while( *zString && *zString!=(u8)zStop[0] && *zString!=(u8)zStop[1] ) zString++;` -/
def scan (zStop : ZStop) : List Byte → Option (List Byte)
  | [] => none
  | c :: zString =>
    if c ≠ 0 ∧ c ≠ zStop.first.toUInt8 ∧ c ≠ zStop.second.toUInt8 then scan zStop zString
    else some (c :: zString)

/-- `zString += strcspn((const char*)zString, zStop);` -/
def advanceStrcspn (zStop : ZStop) (zString : List Byte) : Option (List Byte) :=
  some (zString.drop (strcspn (zString.map UInt8.toInt8) zStop.chars))

/-- The loop around the scan: the positions at which the rest of the pattern is tried. `goesOn`
says whether the loop goes on after the result of `patternCompare` there. -/
def wildcardLoop (advance : List Byte → Option (List Byte)) (goesOn : List Byte → Bool) :
    Nat → List Byte → Option (List (List Byte))
  | 0, _ => none
  | fuel + 1, zString =>
    match advance zString with
    | none | some [] => none
    | some (c :: zString) =>
      if c = 0 then some []
      else if goesOn zString then (wildcardLoop advance goesOn fuel zString).map (zString :: ·)
      else some [zString]

/-! ## Where the scan stops -/

variable {zStop : ZStop} {str : List Byte}

/-- The bytes at which both scans stop, apart from the terminator. -/
def ZStop.Stops (zStop : ZStop) (c : Byte) : Prop :=
  c = zStop.first.toUInt8 ∨ c = zStop.second.toUInt8

instance (c : Byte) : Decidable (zStop.Stops c) := inferInstanceAs (Decidable (_ ∨ _))

/-- The casts between `char` and `u8` do not lose anything. -/
theorem toInt8_eq_iff (c : Byte) (x : Int8) : c.toInt8 = x ↔ c = x.toUInt8 := by
  constructor
  · rintro rfl
    rfl
  · rintro rfl
    rfl

/-- A byte of the string is in the stop set exactly if it is one of the two slots. -/
theorem toInt8_mem_cString (hz : zStop.Filled) {c : Byte} (hc : c ≠ 0) :
    c.toInt8 ∈ cString zStop.chars ↔ zStop.Stops c := by
  obtain ⟨hfirst, hend⟩ := hz
  have hc' : c.toInt8 ≠ 0 := fun h => hc ((toInt8_eq_iff c 0).mp h)
  unfold ZStop.Stops
  rw [← toInt8_eq_iff, ← toInt8_eq_iff]
  by_cases hsecond : zStop.second = 0
  · simp [cString, ZStop.chars, hfirst, hsecond, hc']
  · have hthird : zStop.third = 0 := hend.resolve_right hsecond
    simp [cString, ZStop.chars, hfirst, hsecond, hthird]

theorem cString_map (hstr : 0 ∉ str) (rest : List Byte) :
    cString ((str ++ 0 :: rest).map UInt8.toInt8) = str.map UInt8.toInt8 := by
  induction str with
  | nil => rfl
  | cons c str ih =>
      rw [List.mem_cons, not_or] at hstr
      have hc : c.toInt8 ≠ 0 := fun h => hstr.1 ((toInt8_eq_iff c 0).mp h).symm
      have hrest := ih hstr.2
      simp only [cString, List.cons_append, List.map_cons] at hrest ⊢
      rw [List.takeWhile_cons_of_pos (by simp [hc]), hrest]

/-- How far both scans go. -/
def stopIndex (zStop : ZStop) (str : List Byte) : Nat := str.findIdx fun c => zStop.Stops c

theorem stopIndex_le (zStop : ZStop) (str : List Byte) : stopIndex zStop str ≤ str.length :=
  List.findIdx_le_length

theorem strcspn_eq (hz : zStop.Filled) (hstr : 0 ∉ str) (rest : List Byte) :
    strcspn ((str ++ 0 :: rest).map UInt8.toInt8) zStop.chars = stopIndex zStop str := by
  unfold strcspn
  rw [cString_map hstr]
  induction str with
  | nil => rfl
  | cons c str ih =>
      rw [List.mem_cons, not_or] at hstr
      have hmem := toInt8_mem_cString hz (Ne.symm hstr.1)
      rw [List.map_cons, stopIndex, List.findIdx_cons]
      by_cases hstop : zStop.Stops c
      · rw [List.takeWhile_cons_of_neg (by simpa using hmem.mpr hstop)]
        simp [hstop]
      · rw [List.takeWhile_cons_of_pos (by simpa using mt hmem.mp hstop), List.length_cons,
          ih hstr.2]
        simp [hstop, stopIndex]

theorem scan_eq (hstr : 0 ∉ str) (rest : List Byte) :
    scan zStop (str ++ 0 :: rest) = some ((str ++ 0 :: rest).drop (stopIndex zStop str)) := by
  induction str with
  | nil => simp [scan, stopIndex]
  | cons c str ih =>
      rw [List.mem_cons, not_or] at hstr
      have hc : c ≠ 0 := Ne.symm hstr.1
      rw [List.cons_append, scan]
      by_cases hstop : zStop.Stops c
      · have hgo : ¬ (c ≠ 0 ∧ c ≠ zStop.first.toUInt8 ∧ c ≠ zStop.second.toUInt8) := by
          rintro ⟨-, h1, h2⟩
          exact hstop.elim h1 h2
        rw [if_neg hgo]
        simp [stopIndex, hstop, List.findIdx_cons]
      · have hgo : c ≠ 0 ∧ c ≠ zStop.first.toUInt8 ∧ c ≠ zStop.second.toUInt8 :=
          ⟨hc, fun h => hstop (.inl h), fun h => hstop (.inr h)⟩
        rw [if_pos hgo, ih hstr.2]
        simp [stopIndex, hstop, List.findIdx_cons]

/-- On a string, the loop advances by what `strcspn` returns. -/
theorem scan_eq_strcspn (hz : zStop.Filled) (hstr : 0 ∉ str) (rest : List Byte) :
    scan zStop (str ++ 0 :: rest) = advanceStrcspn zStop (str ++ 0 :: rest) := by
  rw [scan_eq hstr rest, advanceStrcspn, strcspn_eq hz hstr rest]

/-! ## The loop around the scan -/

/-- Both loops try the same positions, and they end. -/
theorem wildcardLoop_same (hz : zStop.Filled) (hstr : 0 ∉ str) (rest : List Byte)
    (goesOn : List Byte → Bool) {fuel : Nat} (hfuel : str.length < fuel) :
    ∃ tried, wildcardLoop (scan zStop) goesOn fuel (str ++ 0 :: rest) = some tried ∧
      wildcardLoop (advanceStrcspn zStop) goesOn fuel (str ++ 0 :: rest) = some tried := by
  induction fuel generalizing str with
  | zero => exact absurd hfuel (Nat.not_lt_zero _)
  | succ fuel ih =>
      have hle := stopIndex_le zStop str
      rw [wildcardLoop, wildcardLoop, ← scan_eq_strcspn hz hstr, scan_eq hstr,
        List.drop_append_of_le_length hle]
      have hsub : ∀ x ∈ str.drop (stopIndex zStop str), x ∈ str := fun x => List.mem_of_mem_drop
      have hlen : (str.drop (stopIndex zStop str)).length ≤ str.length := by simp
      cases hdrop : str.drop (stopIndex zStop str) with
      | nil =>
          exact ⟨[], rfl, rfl⟩
      | cons c str' =>
          rw [hdrop] at hsub hlen
          have hc : c ≠ 0 := fun h => hstr (h ▸ hsub c List.mem_cons_self)
          have hstr' : 0 ∉ str' := fun h => hstr (hsub 0 (List.mem_cons_of_mem c h))
          rw [List.length_cons] at hlen
          obtain ⟨tried, hwasm, hnative⟩ := ih hstr' (by omega)
          simp only [List.cons_append, if_neg hc, hwasm, hnative]
          split
          · exact ⟨_, rfl, rfl⟩
          · exact ⟨_, rfl, rfl⟩

/-- **The loop is `strcspn`.** It stops at the first byte of the string that is in the stop set, or
at the terminator, and the loop around it tries the same positions in the same order. -/
theorem wasm_scan_same_candidates (zStop : ZStop) (str rest : List Byte) (hz : zStop.Filled)
    (hstr : 0 ∉ str) :
    (∃ k ≤ str.length, scan zStop (str ++ 0 :: rest) = some ((str ++ 0 :: rest).drop k) ∧
      k = strcspn ((str ++ 0 :: rest).map UInt8.toInt8) zStop.chars ∧
      (∀ i < k, ∀ c, str[i]? = some c → c.toInt8 ∉ cString zStop.chars) ∧
      (k = str.length ∨ ∃ c, str[k]? = some c ∧ c.toInt8 ∈ cString zStop.chars)) ∧
    ∀ goesOn fuel, str.length < fuel →
      ∃ tried, wildcardLoop (scan zStop) goesOn fuel (str ++ 0 :: rest) = some tried ∧
        wildcardLoop (advanceStrcspn zStop) goesOn fuel (str ++ 0 :: rest) = some tried := by
  have hmem : ∀ {i : Nat} {c : Byte}, str[i]? = some c →
      (c.toInt8 ∈ cString zStop.chars ↔ zStop.Stops c) := by
    intro i c hc
    apply toInt8_mem_cString hz
    rintro rfl
    exact hstr (List.mem_of_getElem? hc)
  refine ⟨⟨stopIndex zStop str, stopIndex_le zStop str, scan_eq hstr rest,
    (strcspn_eq hz hstr rest).symm, ?_, ?_⟩, fun goesOn fuel hfuel =>
      wildcardLoop_same hz hstr rest goesOn hfuel⟩
  · intro i hi c hc
    rw [hmem hc]
    have hnot := List.not_of_lt_findIdx hi
    obtain ⟨hlt, hget⟩ := List.getElem?_eq_some_iff.mp hc
    rw [hget] at hnot
    simpa using hnot
  · rcases Nat.eq_or_lt_of_le (stopIndex_le zStop str) with heq | hlt
    · exact .inl heq
    · have hget := List.getElem?_eq_getElem hlt
      refine .inr ⟨_, hget, (hmem hget).mpr ?_⟩
      exact of_decide_eq_true (List.findIdx_getElem (w := hlt))

/-- The two cases of `a`. -/
def stopBothCases : ZStop := ⟨65, 97, 0⟩

/-- `xa`, a byte above 127, and `A`. -/
def sampleText : List Byte := [120, 97, 192, 65]

theorem sample_same_candidates :
    (∃ k ≤ sampleText.length,
      scan stopBothCases (sampleText ++ 0 :: []) = some ((sampleText ++ 0 :: []).drop k) ∧
      k = strcspn ((sampleText ++ 0 :: []).map UInt8.toInt8) stopBothCases.chars ∧
      (∀ i < k, ∀ c, sampleText[i]? = some c → c.toInt8 ∉ cString stopBothCases.chars) ∧
      (k = sampleText.length ∨
        ∃ c, sampleText[k]? = some c ∧ c.toInt8 ∈ cString stopBothCases.chars)) ∧
    ∀ goesOn fuel, sampleText.length < fuel →
      ∃ tried, wildcardLoop (scan stopBothCases) goesOn fuel (sampleText ++ 0 :: []) = some tried ∧
        wildcardLoop (advanceStrcspn stopBothCases) goesOn fuel (sampleText ++ 0 :: []) =
          some tried :=
  wasm_scan_same_candidates stopBothCases sampleText [] (by decide) (by decide)

example : wildcardLoop (scan stopBothCases) (fun _ => true) 5 (sampleText ++ 0 :: []) =
    some [[192, 65, 0], [0]] := by
  decide

end WasiPorts.Sqlite
