import Mathlib

/-!
# `mkstemp` for WASI

`mkstemp_common`, which the stubs of Redis and of nginx share: the last six characters of the template
are replaced by the low base-36 digits of a counter, until `open` with `O_EXCL` creates a file.

The counter has 32 bits and six digits hold fewer values, so the names of a call repeat only if the
counter goes round: `names_nodup` shows that the 999999 attempts of a call are too few for that, from
whatever value the counter starts.

* `tryNames_spec` — what a call has tried, and what it has done.
* `mkstemp_never_reuses` — names, new files, failures and their causes, and two calls in a row.
-/

namespace WasiPorts.Stubs

/-! ## The code -/

abbrev Name := List Char

/-- `alnum`. -/
def alnum : List Char :=
  ['0', '1', '2', '3', '4', '5', '6', '7', '8', '9', 'a', 'b', 'c', 'd', 'e', 'f', 'g', 'h', 'i',
    'j', 'k', 'l', 'm', 'n', 'o', 'p', 'q', 'r', 's', 't', 'u', 'v', 'w', 'x', 'y', 'z']

/-- The last `k` digits of `n`, from `xs[k - 1]` down to `xs[0]`. -/
def digits : Nat → Nat → Name
  | 0, _ => []
  | k + 1, n => digits k (n / 36) ++ [alnum.getD (n % 36) '0']

inductive Errno where
  | einval
  | eexist
  /-- Any other error of `open`. -/
  | other (code : Nat)
  deriving DecidableEq, Repr

/-- `open` with `O_CREAT | O_EXCL`. The host may refuse it for a reason of its own. -/
def openExcl (refused : Option Nat) (files : Name → Bool) (t : Name) :
    Except Errno Unit × (Name → Bool) :=
  match refused with
  | some code => (.error (.other code), files)
  | none =>
    if files t then (.error .eexist, files)
    else (.ok (), fun name => decide (name = t) || files name)

/-- The variables of a call: the template, the static counter, the files there are, and, as history,
the names tried. -/
structure Attempts where
  t : Name
  counter : UInt32
  files : Name → Bool
  tried : List Name

/-- The loop of `mkstemp_common`; `refused i` is what the host does at attempt `i`. -/
def tryNames (refused : Nat → Option Nat) (stem : Name) :
    Nat → Attempts → Except Errno Unit × Attempts
  | 0, s => (.error .eexist, s)
  | left + 1, s =>
    let counter := s.counter + 1
    let t := stem ++ digits 6 counter.toNat
    let (r, files) := openExcl (refused s.tried.length) s.files t
    let s := ⟨t, counter, files, s.tried ++ [t]⟩
    match r with
    | .ok () => (.ok (), s)
    | .error .eexist => tryNames refused stem left s
    | .error e => (.error e, s)

def maxAttempts : Nat := 999999

/-- `mkstemp_common`. -/
def mkstempCommon (refused : Nat → Option Nat) (t : Name) (counter : UInt32) (files : Name → Bool) :
    Except Errno Unit × Attempts :=
  if t.length < 6 then (.error .einval, ⟨t, counter, files, []⟩)
  else tryNames refused (t.take (t.length - 6)) maxAttempts ⟨t, counter, files, []⟩

/-! ## Digits -/

theorem alnum_inj {i j : Nat} (hi : i < 36) (hj : j < 36) (h : alnum.getD i '0' = alnum.getD j '0') :
    i = j := by
  have hnodup : alnum.Nodup := by decide
  rw [List.getD_eq_getElem alnum '0' hi, List.getD_eq_getElem alnum '0' hj] at h
  exact (hnodup.getElem_inj_iff).mp h

@[simp] theorem digits_length (k n : Nat) : (digits k n).length = k := by
  induction k generalizing n with
  | zero => rfl
  | succ k ih => rw [digits, List.length_append, ih, List.length_singleton]

/-- Equal digits, equal remainders. -/
theorem digits_inj {k n m : Nat} (h : digits k n = digits k m) : n % 36 ^ k = m % 36 ^ k := by
  induction k generalizing n m with
  | zero => rw [Nat.pow_zero, Nat.mod_one, Nat.mod_one]
  | succ k ih =>
      obtain ⟨hinit, hlast⟩ := List.append_inj' h rfl
      have hdigit := alnum_inj (Nat.mod_lt n (by decide)) (Nat.mod_lt m (by decide))
        (List.singleton_inj.mp hlast)
      rw [Nat.pow_succ', Nat.mod_mul, Nat.mod_mul, hdigit, ih hinit]

/-! ## The names of a call -/

/-- The name of the attempt `i` of a call. -/
def nameAt (stem : Name) (counter : UInt32) (i : Nat) : Name :=
  stem ++ digits 6 ((counter.toNat + 1 + i) % 2 ^ 32)

/-- The names of the first `k` attempts. -/
def names (stem : Name) (counter : UInt32) (k : Nat) : List Name :=
  (List.range k).map (nameAt stem counter)

/-- The counter may pass its end once during a call, and the digits repeat after `36 ^ 6` values;
neither brings a name back. -/
theorem nameAt_inj {stem : Name} {counter : UInt32} {i j : Nat} (hi : i < maxAttempts)
    (hj : j < maxAttempts) (h : nameAt stem counter i = nameAt stem counter j) : i = j := by
  have hmod := digits_inj (List.append_cancel_left h)
  have hcounter : counter.toNat < 4294967296 := counter.toNat_lt
  unfold maxAttempts at hi hj
  -- at most one round of the counter, and at most one of the digits
  have hround : ∀ k < 999999, (counter.toNat + 1 + k) % 2 ^ 32 = counter.toNat + 1 + k ∨
      (counter.toNat + 1 + k) % 2 ^ 32 + 4294967296 = counter.toNat + 1 + k := by
    intro k hk
    omega
  have hdigits : ∀ a < 4294967296, a % 36 ^ 6 = a ∨ a % 36 ^ 6 + 2176782336 = a := by
    intro a ha
    norm_num
    omega
  have hlt : ∀ k, (counter.toNat + 1 + k) % 2 ^ 32 < 4294967296 :=
    fun k => Nat.mod_lt _ (by decide)
  rcases hround i hi with hi' | hi' <;> rcases hround j hj with hj' | hj' <;>
    rcases hdigits _ (hlt i) with hdi | hdi <;> rcases hdigits _ (hlt j) with hdj | hdj <;> omega

theorem names_nodup (stem : Name) (counter : UInt32) {k : Nat} (hk : k ≤ maxAttempts) :
    (names stem counter k).Nodup := by
  apply List.Nodup.map_on _ List.nodup_range
  intro i hi j hj h
  rw [List.mem_range] at hi hj
  exact nameAt_inj (by omega) (by omega) h

theorem nameAt_zero (stem : Name) (counter : UInt32) :
    nameAt stem counter 0 = stem ++ digits 6 (counter + 1).toNat := by
  rw [nameAt, UInt32.toNat_add]
  rfl

theorem nameAt_succ (stem : Name) (counter : UInt32) (i : Nat) :
    nameAt stem counter (i + 1) = nameAt stem (counter + 1) i := by
  have hnext : (counter + 1).toNat = (counter.toNat + 1) % 2 ^ 32 := UInt32.toNat_add counter 1
  rw [nameAt, nameAt, hnext]
  congr 2
  omega

theorem names_succ (stem : Name) (counter : UInt32) (k : Nat) :
    names stem counter (k + 1) = nameAt stem counter 0 :: names stem (counter + 1) k := by
  unfold names
  rw [List.range_succ_eq_map, List.map_cons, List.map_map]
  congr 1
  exact List.map_congr_left fun i _ => nameAt_succ stem counter i

/-! ## A call -/

/-- An error that `open` reported at the last of the attempts. -/
def Reported (refused : Nat → Option Nat) (tried : List Name) (e : Errno) : Prop :=
  ∃ i code, tried.length = i + 1 ∧ refused i = some code ∧ e = .other code

/-- The outcome of the attempts of a call: a new file under the last name tried, or an error, which is
`EEXIST` only if all names were taken, and otherwise that of `open`. -/
def Outcome (refused : Nat → Option Nat) (stem : Name) (left : Nat) (s : Attempts) :
    Except Errno Unit × Attempts → Prop
  | (.ok (), s') => ∃ k ≤ left, s'.tried = s.tried ++ names stem s.counter k ∧ s.files s'.t = false ∧
      s'.files = fun name => decide (name = s'.t) || s.files name
  | (.error e, s') => ∃ k ≤ left, s'.tried = s.tried ++ names stem s.counter k ∧
      s'.files = s.files ∧ (e = .eexist → k = left ∧ ∀ name ∈ names stem s.counter k, s.files name) ∧
      (e ≠ .eexist → Reported refused s'.tried e)

theorem openExcl_cases (refused : Option Nat) (files : Name → Bool) (t : Name) :
    (files t = false ∧
      openExcl refused files t = (.ok (), fun name => decide (name = t) || files name)) ∨
    (files t = true ∧ openExcl refused files t = (.error .eexist, files)) ∨
    ∃ code, refused = some code ∧ openExcl refused files t = (.error (.other code), files) := by
  unfold openExcl
  cases refused with
  | some code => exact .inr (.inr ⟨code, rfl, rfl⟩)
  | none =>
      cases h : files t with
      | false => exact .inl ⟨rfl, rfl⟩
      | true => exact .inr (.inl ⟨rfl, rfl⟩)

theorem tryNames_spec (refused : Nat → Option Nat) (stem : Name) (left : Nat) (s : Attempts) :
    Outcome refused stem left s (tryNames refused stem left s) := by
  induction left generalizing s with
  | zero => exact ⟨0, Nat.le_refl 0, (List.append_nil _).symm, rfl, fun _ => ⟨rfl, nofun⟩, absurd rfl⟩
  | succ left ih =>
      have hone : [nameAt stem s.counter 0] = names stem s.counter 1 := rfl
      unfold tryNames
      dsimp only
      rw [← nameAt_zero]
      rcases openExcl_cases (refused s.tried.length) s.files (nameAt stem s.counter 0) with
        ⟨hnew, hopen⟩ | ⟨hold, hopen⟩ | ⟨code, hrefused, hopen⟩
      · rw [hopen, hone]
        exact ⟨1, by omega, rfl, hnew, rfl⟩
      · rw [hopen]
        dsimp only
        have hrest := ih ⟨nameAt stem s.counter 0, s.counter + 1, s.files,
          s.tried ++ [nameAt stem s.counter 0]⟩
        generalize tryNames refused stem left _ = r at hrest
        obtain ⟨⟨e⟩ | ⟨⟩, s'⟩ := r
        · obtain ⟨k, hk, htried, hfiles, hexist, hreported⟩ := hrest
          refine ⟨k + 1, by omega, ?_, hfiles, ?_, hreported⟩
          · rw [htried, names_succ, List.append_assoc]
            rfl
          · intro he
            obtain ⟨hkl, hall⟩ := hexist he
            refine ⟨by omega, fun name hname => ?_⟩
            rw [names_succ] at hname
            rcases List.mem_cons.mp hname with rfl | hname
            · exact hold
            · exact hall name hname
        · obtain ⟨k, hk, htried, hnew, hfiles⟩ := hrest
          refine ⟨k + 1, by omega, ?_, hnew, hfiles⟩
          rw [htried, names_succ, List.append_assoc]
          rfl
      · rw [hopen, hone]
        refine ⟨1, by omega, rfl, rfl, nofun, fun _ => ⟨s.tried.length, code, ?_, hrefused, rfl⟩⟩
        simp [names]

/-- `name` is the template but for its last six characters. -/
def FromTemplate (t name : Name) : Prop :=
  name.length = t.length ∧ name.take (t.length - 6) = t.take (t.length - 6)

theorem fromTemplate_of_mem {t name : Name} (ht : 6 ≤ t.length) {counter : UInt32} {k : Nat}
    (h : name ∈ names (t.take (t.length - 6)) counter k) : FromTemplate t name := by
  obtain ⟨i, -, rfl⟩ := List.mem_map.mp h
  have hlen : (t.take (t.length - 6)).length = t.length - 6 := by
    rw [List.length_take]
    omega
  refine ⟨?_, List.take_left' hlen⟩
  rw [nameAt, List.length_append, hlen, digits_length]
  omega

theorem mkstempCommon_eq {t : Name} (ht : 6 ≤ t.length) (refused : Nat → Option Nat)
    (counter : UInt32) (files : Name → Bool) :
    mkstempCommon refused t counter files =
      tryNames refused (t.take (t.length - 6)) maxAttempts ⟨t, counter, files, []⟩ :=
  if_neg (Nat.not_lt.mpr ht)

/-- A file is created under a name that did not exist. -/
theorem mkstempCommon_new {t : Name} (ht : 6 ≤ t.length) {refused : Nat → Option Nat}
    {counter : UInt32} {files : Name → Bool}
    (hok : (mkstempCommon refused t counter files).1 = .ok ()) :
    files (mkstempCommon refused t counter files).2.t = false := by
  have hspec := tryNames_spec refused (t.take (t.length - 6)) maxAttempts ⟨t, counter, files, []⟩
  rw [← mkstempCommon_eq ht] at hspec
  generalize mkstempCommon refused t counter files = call at hspec hok
  obtain ⟨r, s⟩ := call
  obtain rfl : r = .ok () := hok
  obtain ⟨k, -, -, hnew, -⟩ := hspec
  exact hnew

/-- The names that a call may try. -/
def candidates (t : Name) (counter : UInt32) : List Name :=
  names (t.take (t.length - 6)) counter maxAttempts

/-- A call with the template `t` while there are `files`, with the result `r`: -/
structure NeverReuses (refused : Nat → Option Nat) (t : Name) (counter : UInt32) (files : Name → Bool)
    (r : Except Errno Unit) (s : Attempts) : Prop where
  tried : s.tried <+: candidates t counter
  fromTemplate : ∀ name ∈ s.tried, FromTemplate t name
  nodup : s.tried.Nodup
  /-- It creates a file under the name it returns, which did not exist, and none otherwise. -/
  new : ∀ name, s.files name ≠ files name → r = .ok () ∧ name = s.t ∧ files name = false
  created : r = .ok () → files s.t = false ∧ s.files s.t = true
  /-- `EEXIST` needs 999999 names, all taken. -/
  exhausted : r = .error .eexist → s.tried.length = 999999 ∧ ∀ name ∈ s.tried, files name = true
  /-- It fails otherwise only if `open` did. -/
  reported : ∀ e, r = .error e → e ≠ .eexist → Reported refused s.tried e
  /-- A free name is found, unless `open` refuses one. -/
  found : (∀ i, refused i = none) → (∃ name ∈ candidates t counter, files name = false) → r = .ok ()
  /-- The next call returns another name, whatever happened to other files. -/
  next : ∀ refused' files', r = .ok () → files' s.t = true →
    (mkstempCommon refused' t s.counter files').1 = .ok () →
    (mkstempCommon refused' t s.counter files').2.t ≠ s.t

/-- **`mkstemp` never reuses a name and tries enough of them.** -/
theorem mkstemp_never_reuses (t : Name) (ht : 6 ≤ t.length) (refused : Nat → Option Nat)
    (counter : UInt32) (files : Name → Bool) :
    NeverReuses refused t counter files (mkstempCommon refused t counter files).1
      (mkstempCommon refused t counter files).2 := by
  have hspec := tryNames_spec refused (t.take (t.length - 6)) maxAttempts ⟨t, counter, files, []⟩
  rw [← mkstempCommon_eq ht] at hspec
  generalize mkstempCommon refused t counter files = call at hspec
  obtain ⟨r, s⟩ := call
  have hnext : ∀ refused' files', r = .ok () → files' s.t = true →
      (mkstempCommon refused' t s.counter files').1 = .ok () →
      (mkstempCommon refused' t s.counter files').2.t ≠ s.t := by
    intro refused' files' _ hexists hok heq
    have hnew := mkstempCommon_new ht hok
    rw [heq, hexists] at hnew
    cases hnew
  -- both outcomes come with the attempts made
  obtain ⟨k, hk, htried⟩ : ∃ k ≤ maxAttempts, s.tried = names (t.take (t.length - 6)) counter k := by
    cases r with
    | ok u =>
        obtain ⟨k, hk, htried, -⟩ := hspec
        exact ⟨k, hk, htried⟩
    | error e =>
        obtain ⟨k, hk, htried, -⟩ := hspec
        exact ⟨k, hk, htried⟩
  have hfrom : ∀ name ∈ s.tried, FromTemplate t name :=
    fun name hname => fromTemplate_of_mem ht (htried ▸ hname)
  have hnodup : s.tried.Nodup := htried ▸ names_nodup _ counter hk
  have hprefix : s.tried <+: candidates t counter := by
    rw [htried]
    have hrange : List.range k <+: List.range maxAttempts := by
      rw [← Nat.add_sub_of_le hk, List.range_add]
      exact List.prefix_append _ _
    exact hrange.map _
  cases r with
  | ok u =>
      obtain ⟨-, -, -, hnew, hfiles⟩ := hspec
      dsimp only at hnew hfiles ⊢
      refine ⟨ hprefix, hfrom, hnodup, ?_, fun _ => ⟨hnew, by simp [hfiles]⟩, nofun, nofun, fun _ _ => rfl, hnext⟩
      intro name hne
      have hname : name = s.t := by
        by_contra hne'
        exact hne (by simp [hfiles, hne'])
      exact ⟨rfl, hname, hname ▸ hnew⟩
  | error e =>
      obtain ⟨k, -, htried', hfiles, hexist, hreported⟩ := hspec
      dsimp only at htried' hfiles hexist hreported ⊢
      refine ⟨ hprefix, hfrom, hnodup, fun name hne => absurd (congrFun hfiles name) hne, nofun, ?_, ?_, ?_, hnext⟩
      · intro he
        obtain ⟨rfl, hall⟩ := hexist (Except.error.inj he)
        rw [htried', List.nil_append]
        exact ⟨by simp [names, maxAttempts], hall⟩
      · intro e' he
        obtain rfl := Except.error.inj he
        exact hreported
      · rintro hnone ⟨name, hname, hfree⟩
        by_cases he : e = .eexist
        · obtain ⟨rfl, hall⟩ := hexist he
          rw [hall name hname] at hfree
          cases hfree
        · obtain ⟨i, code, -, hrefused, -⟩ := hreported he
          rw [hnone i] at hrefused
          cases hrefused

def sampleTemplate : Name := ['t', '-', 'X', 'X', 'X', 'X', 'X', 'X']

/-- Only the name of the first attempt is taken. -/
def firstTaken : Name → Bool := fun name => name = nameAt ['t', '-'] 4294967295 0

/-- The counter is about to wrap. -/
theorem mkstemp_after_wrap : 6 ≤ sampleTemplate.length ∧
    NeverReuses (fun _ => none) sampleTemplate 4294967295 firstTaken
      (mkstempCommon (fun _ => none) sampleTemplate 4294967295 firstTaken).1
      (mkstempCommon (fun _ => none) sampleTemplate 4294967295 firstTaken).2 := by
  have hlen : 6 ≤ sampleTemplate.length := by decide
  exact ⟨hlen, mkstemp_never_reuses sampleTemplate hlen (fun _ => none) 4294967295 firstTaken⟩

end WasiPorts.Stubs
