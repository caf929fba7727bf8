import Mathlib.Data.Finset.Dedup
import Mathlib.Data.Finset.Union
import WasiPorts.Redis.Aof.Feeding
import WasiPorts.Redis.Aof.Rewrite

/-!
# Rebuilding the dataset

What the commands of a rewritten file do to a dataset. The encodings of the objects do not matter: a dataset maps
the keys of its databases to values.

* `foldl_objCommands` — the commands that are printed for an object rebuild its value.
* `rewrite_rebuilds` — loading a rewritten file rebuilds the dataset.
-/

namespace WasiPorts.Redis.Aof

open WasiPorts.Text

/-! ## Datasets -/

inductive Value (Score : Type) where
  | string (s : Bytes)
  | list (l : List Bytes)
  | set (s : Finset Bytes)
  | zset (m : Bytes → Option Score)
  /-- The values of the fields with their expire times, `EB_EXPIRE_TIME_INVALID` if there is none. -/
  | hash (m : Bytes → Option (Bytes × Nat))

/-- A value with its expire time, -1 if there is none. -/
structure Stored (Score : Type) where
  value : Value Score
  expire : Int

abbrev Keyspace (Score : Type) : Type := Nat → Bytes → Option (Stored Score)

/-- Adds or changes entries. -/
def addAll {α : Type} (m : Bytes → Option α) (entries : List (Bytes × α)) : Bytes → Option α :=
  entries.foldl (fun m e => Function.update m e.1 (some e.2)) m

/-- The map with these entries. -/
def ofEntries {α : Type} (entries : List (Bytes × α)) : Bytes → Option α := addAll (fun _ => none) entries

/-! ## Commands

Errors have no effect. Nothing expires while the AOF is loaded. -/

section Execute

variable {Score : Type} [ScoreFormat Score]

/-- `setCommand` without options. -/
def setCommand (val : Bytes) (_ : Option (Stored Score)) : Option (Stored Score) := some ⟨.string val, -1⟩

/-- `rpushCommand`. -/
def rpushCommand (args : List Bytes) : Option (Stored Score) → Option (Stored Score)
  | none => some ⟨.list args, -1⟩
  | some ⟨.list l, expire⟩ => some ⟨.list (l ++ args), expire⟩
  | some v => some v

/-- `saddCommand`. -/
def saddCommand (args : List Bytes) : Option (Stored Score) → Option (Stored Score)
  | none => some ⟨.set args.toFinset, -1⟩
  | some ⟨.set s, expire⟩ => some ⟨.set (s ∪ args.toFinset), expire⟩
  | some v => some v

/-- The scores and the members behind `ZADD key`. -/
def scorePairs : List Bytes → Option (List (Bytes × Score))
  | [] => some []
  | score :: member :: args =>
    match ScoreFormat.getDouble score, scorePairs args with
    | some score, some pairs => some ((member, score) :: pairs)
    | _, _ => none
  | _ => none

/-- `zaddCommand` without options. -/
def zaddCommand (args : List Bytes) (old : Option (Stored Score)) : Option (Stored Score) :=
  match scorePairs args with
  | none => old
  | some pairs =>
    match old with
    | none => some ⟨.zset (ofEntries pairs), -1⟩
    | some ⟨.zset m, expire⟩ => some ⟨.zset (addAll m pairs), expire⟩
    | some v => some v

/-- The fields and the values behind `HMSET key`; a field that is set has no expire time. -/
def fieldPairs : List Bytes → Option (List (Bytes × Bytes × Nat))
  | [] => some []
  | field :: value :: args => (fieldPairs args).map ((field, value, ebExpireTimeInvalid) :: ·)
  | _ => none

/-- `hsetCommand`. -/
def hsetCommand (args : List Bytes) (old : Option (Stored Score)) : Option (Stored Score) :=
  match fieldPairs args with
  | none => old
  | some pairs =>
    match old with
    | none => some ⟨.hash (ofEntries pairs), -1⟩
    | some ⟨.hash m, expire⟩ => some ⟨.hash (addAll m pairs), expire⟩
    | some v => some v

/-- `hpexpireatCommand` on one field, without a condition. The time is at most `HFE_MAX_ABS_TIME_MSEC`. -/
def hpexpireatCommand (when field : Bytes) : Option (Stored Score) → Option (Stored Score)
  | some ⟨.hash m, expire⟩ =>
    match string2ll when with
    | none => some ⟨.hash m, expire⟩
    | some when =>
      if when < 0 ∨ when > (2 ^ 48 - 1) / 4 then some ⟨.hash m, expire⟩
      else
        match m field with
        | none => some ⟨.hash m, expire⟩
        | some (value, _) => some ⟨.hash (Function.update m field (some (value, when.toNat))), expire⟩
  | old => old

/-- `pexpireatCommand` without a condition. -/
def pexpireatCommand (when : Bytes) (old : Option (Stored Score)) : Option (Stored Score) :=
  match string2ll when with
  | none => old
  | some when => old.map fun v => { v with expire := when }

/-- What a command does to its key; `none` for commands and options that a rewrite does not print. -/
def keyEffect (name : Bytes) (args : List Bytes) : Option (Option (Stored Score) → Option (Stored Score)) :=
  if sameIgnoringCase name (bytes "set") then
    match args with
    | [val] => some (setCommand val)
    | _ => none
  else if sameIgnoringCase name (bytes "rpush") then
    if args = [] then none else some (rpushCommand args)
  else if sameIgnoringCase name (bytes "sadd") then
    if args = [] then none else some (saddCommand args)
  else if sameIgnoringCase name (bytes "zadd") then
    match args with
    | [] => none
    | opt :: _ =>
      if ["nx", "xx", "ch", "incr", "gt", "lt"].any fun o => sameIgnoringCase opt (bytes o) then none
      else some (zaddCommand args)
  else if sameIgnoringCase name (bytes "hmset") then
    if args = [] then none else some (hsetCommand args)
  else if sameIgnoringCase name (bytes "hpexpireat") then
    match args with
    | [when, opt, numFields, field] =>
      if sameIgnoringCase opt (bytes "FIELDS") && decide (numFields = bytes "1") then
        some (hpexpireatCommand when field)
      else none
    | _ => none
  else if sameIgnoringCase name (bytes "pexpireat") then
    match args with
    | [when] => some (pexpireatCommand when)
    | _ => none
  else none

/-- The execution of a command on a database. `FUNCTION` does not touch the keys; what other commands do is `other`. -/
def execute (other : Nat → List Bytes → Keyspace Score → Keyspace Score) (db : Nat) (argv : List Bytes)
    (d : Keyspace Score) : Keyspace Score :=
  if isNamed argv "function" then d
  else
    match argv with
    | name :: key :: args =>
      match keyEffect name args with
      | some effect => Function.update d db (Function.update (d db) key (effect (d db key)))
      | none => other db argv d
    | _ => other db argv d

/-- The commands of a server whose other commands do `other`. -/
@[reducible] def keyspaceCommands (other : Nat → List Bytes → Keyspace Score → Keyspace Score) :
    Commands (List Bytes) (Keyspace Score) where
  empty := fun _ _ => none
  apply := execute other

/-! ## The value of an object -/

def Obj.value : Obj Score → Value Score
  | .string o => .string (getDecodedObject o)
  | .list es => .list (es.map Elem.bytes)
  | .set es => .set (es.map Elem.bytes).toFinset
  | .zset es => .zset (ofEntries (es.map fun e => (e.1.bytes, e.2)))
  | .hash _ fs => .hash (ofEntries (fs.map fun f => (f.field.bytes, f.value.bytes, f.expireTime)))

def Key.stored (k : Key Score) : Stored Score := ⟨k.o.value, k.expiretime⟩

/-- The dataset with these keys. -/
def keyspaceOf (dbs : List (List (Key Score))) : Keyspace Score := fun db =>
  ofEntries ((dbs.getD db []).map fun k => (k.keystr, k.stored))

/-! ## Commands for one key -/

/-- What a command does to its key. -/
def applyCommand (old : Option (Stored Score)) (argv : List Bytes) : Option (Stored Score) :=
  match argv with
  | name :: _ :: args =>
    match keyEffect name args with
    | some effect => effect old
    | none => old
  | _ => old

/-- The command is one for the key `k` whose effect is known. -/
def OnKey (Score : Type) [ScoreFormat Score] (k : Bytes) (argv : List Bytes) : Prop :=
  ∃ name ∈ keyCommandNames, ∃ args, argv = bytes name :: k :: args ∧
    (keyEffect (bytes name) args : Option (Option (Stored Score) → Option (Stored Score))).isSome

theorem OnKey.execute {k : Bytes} {argv : List Bytes} (h : OnKey Score k argv)
    (other : Nat → List Bytes → Keyspace Score → Keyspace Score) (db : Nat) (d : Keyspace Score) :
    execute other db argv d = Function.update d db (Function.update (d db) k (applyCommand (d db k) argv)) := by
  obtain ⟨name, hname, args, rfl, heffect⟩ := h
  have hfunction : ∀ name ∈ keyCommandNames, sameIgnoringCase (bytes name) (bytes "function") = false := by decide
  obtain ⟨effect, heffect⟩ := Option.isSome_iff_exists.mp heffect
  have hname : isNamed (bytes name :: k :: args) "function" = false := hfunction name hname
  rw [Aof.execute, hname, applyCommand]
  simp [heffect]

/-- A sequence of commands for one key changes this key only. -/
theorem foldl_execute {k : Bytes} {cmds : List (List Bytes)} (h : ∀ argv ∈ cmds, OnKey Score k argv)
    (other : Nat → List Bytes → Keyspace Score → Keyspace Score) (db : Nat) (d : Keyspace Score) :
    cmds.foldl (fun d argv => execute other db argv d) d =
      Function.update d db (Function.update (d db) k (cmds.foldl applyCommand (d db k))) := by
  induction cmds generalizing d with
  | nil => simp
  | cons argv cmds ih =>
      rw [List.foldl_cons, List.foldl_cons, (h argv List.mem_cons_self).execute,
        ih fun a ha => h a (List.mem_cons_of_mem argv ha)]
      simp

/-! ## Collections -/

section Items

variable {α : Type} {k : Bytes} {args : α → List Bytes} {xs : List α}

theorem addAll_append {β : Type} (m : Bytes → Option β) (es fs : List (Bytes × β)) :
    addAll m (es ++ fs) = addAll (addAll m es) fs :=
  List.foldl_append

theorem scorePairs_flatMap (es : List (Elem × Score)) :
    scorePairs (es.flatMap scoreArgs) = some (es.map fun e => (e.1.bytes, e.2)) := by
  induction es with
  | nil => rfl
  | cons e es ih =>
      rw [List.flatMap_cons, scoreArgs, List.cons_append, List.cons_append, List.nil_append, scorePairs,
        ScoreFormat.getDouble_dtoa, ih]
      rfl

theorem fieldPairs_flatMap (fs : List HashField) :
    fieldPairs (fs.flatMap HashField.args) =
      some (fs.map fun f => (f.field.bytes, f.value.bytes, ebExpireTimeInvalid)) := by
  induction fs with
  | nil => rfl
  | cons f fs ih =>
      rw [List.flatMap_cons, HashField.args, List.cons_append, List.cons_append, List.nil_append, fieldPairs, ih]
      rfl

/-- A command that adds what it is given, in one piece or in several. -/
theorem foldl_itemCommands {name : Bytes} {cmd : List α → Option (Stored Score) → Option (Stored Score)}
    (heffect : ∀ piece ≠ [], keyEffect name (piece.flatMap args) = some (cmd piece))
    (happend : ∀ ys zs old, cmd zs (cmd ys old) = cmd (ys ++ zs) old) (hne : xs ≠ []) (old : Option (Stored Score)) :
    (itemCommands name k args xs).foldl applyCommand old = cmd xs old := by
  rw [itemCommands, List.foldl_map]
  have hpieces := @foldl_pieces α _ (fun old piece => cmd piece old) (fun old ys zs _ _ => happend ys zs old)
    (aofRewriteItemsPerCmd - 1) xs hne old
  have hcongr : ∀ (ps : List (List α)) (old : Option (Stored Score)), (∀ p ∈ ps, p ≠ []) →
      ps.foldl (fun old piece => applyCommand old (name :: k :: piece.flatMap args)) old =
        ps.foldl (fun old piece => cmd piece old) old := by
    intro ps
    induction ps with
    | nil => exact fun old _ => rfl
    | cons p ps ih =>
        intro old hps
        have hp := heffect p (hps p List.mem_cons_self)
        have happly : applyCommand old (name :: k :: p.flatMap args) = cmd p old := by
          rw [applyCommand, hp]
        rw [List.foldl_cons, List.foldl_cons, happly, ih _ fun q hq => hps q (List.mem_cons_of_mem p hq)]
  rw [hcongr _ _ fun p hp => ne_nil_of_mem_pieces hp]
  exact hpieces

omit [ScoreFormat Score] in
theorem rpushCommand_append (ys zs : List Bytes) (old : Option (Stored Score)) :
    rpushCommand zs (rpushCommand ys old) = rpushCommand (ys ++ zs) old := by
  cases old with
  | none => rfl
  | some v =>
      obtain ⟨value, expire⟩ := v
      cases value <;> simp [rpushCommand]

omit [ScoreFormat Score] in
theorem saddCommand_append (ys zs : List Bytes) (old : Option (Stored Score)) :
    saddCommand zs (saddCommand ys old) = saddCommand (ys ++ zs) old := by
  cases old with
  | none => simp [saddCommand]
  | some v =>
      obtain ⟨value, expire⟩ := v
      cases value <;> simp [saddCommand]

theorem zaddCommand_append (ys zs : List (Elem × Score)) (old : Option (Stored Score)) :
    zaddCommand (zs.flatMap scoreArgs) (zaddCommand (ys.flatMap scoreArgs) old) =
      zaddCommand ((ys ++ zs).flatMap scoreArgs) old := by
  unfold zaddCommand
  simp only [scorePairs_flatMap, List.map_append]
  cases old with
  | none => simp [ofEntries, addAll_append]
  | some v =>
      obtain ⟨value, expire⟩ := v
      cases value <;> simp [addAll_append]

omit [ScoreFormat Score] in
theorem hsetCommand_append (ys zs : List HashField) (old : Option (Stored Score)) :
    hsetCommand (zs.flatMap HashField.args) (hsetCommand (ys.flatMap HashField.args) old) =
      hsetCommand ((ys ++ zs).flatMap HashField.args) old := by
  unfold hsetCommand
  simp only [fieldPairs_flatMap, List.map_append]
  cases old with
  | none => simp [ofEntries, addAll_append]
  | some v =>
      obtain ⟨value, expire⟩ := v
      cases value <;> simp [addAll_append]

theorem flatMap_ne_nil {xs : List α} (hne : xs ≠ []) (hargs : ∀ x, args x ≠ []) : xs.flatMap args ≠ [] := by
  cases xs with
  | nil => exact absurd rfl hne
  | cons x xs => simp [hargs x]

/-! ### The effects by name -/

theorem keyEffect_rpush {args : List Bytes} (hne : args ≠ []) :
    keyEffect (bytes "RPUSH") args = some (rpushCommand args : _ → Option (Stored Score)) :=
  if_neg hne

theorem keyEffect_sadd {args : List Bytes} (hne : args ≠ []) :
    keyEffect (bytes "SADD") args = some (saddCommand args : _ → Option (Stored Score)) :=
  if_neg hne

theorem keyEffect_rpush_elems {es : List Elem} (hne : es ≠ []) :
    keyEffect (bytes "RPUSH") (es.flatMap fun e => [e.bytes]) =
      some (rpushCommand (es.map Elem.bytes) : _ → Option (Stored Score)) := by
  rw [← List.map_eq_flatMap]
  exact keyEffect_rpush (by simpa using hne)

theorem keyEffect_sadd_elems {es : List Elem} (hne : es ≠ []) :
    keyEffect (bytes "SADD") (es.flatMap fun e => [e.bytes]) =
      some (saddCommand (es.map Elem.bytes) : _ → Option (Stored Score)) := by
  rw [← List.map_eq_flatMap]
  exact keyEffect_sadd (by simpa using hne)

theorem keyEffect_hmset {args : List Bytes} (hne : args ≠ []) :
    keyEffect (bytes "HMSET") args = some (hsetCommand args : _ → Option (Stored Score)) :=
  if_neg hne

theorem keyEffect_hmset_fields {fs : List HashField} (hne : fs ≠ []) :
    keyEffect (bytes "HMSET") (fs.flatMap HashField.args) =
      some (hsetCommand (fs.flatMap HashField.args) : _ → Option (Stored Score)) :=
  keyEffect_hmset (flatMap_ne_nil hne fun _ => by simp [HashField.args])

theorem keyEffect_zadd {es : List (Elem × Score)} (hne : es ≠ []) :
    keyEffect (bytes "ZADD") (es.flatMap scoreArgs) =
      some (zaddCommand (es.flatMap scoreArgs) : _ → Option (Stored Score)) := by
  cases es with
  | nil => exact absurd rfl hne
  | cons e es =>
      have hoption : ¬ (["nx", "xx", "ch", "incr", "gt", "lt"].any fun o =>
          sameIgnoringCase (ScoreFormat.fpconvDtoa e.2) (bytes o)) = true := by
        rw [List.any_eq_true]
        rintro ⟨opt, hopt, hsame⟩
        rw [ScoreFormat.dtoa_no_option e.2 opt hopt] at hsame
        cases hsame
      exact if_neg hoption

end Items

/-! ## Objects -/

section Objects

variable {k : Bytes}

/-- Fields with expire times are printed one by one. -/
theorem foldl_hashField {f : HashField}
    (hexpire : f.expireTime = ebExpireTimeInvalid ∨ f.expireTime ≤ (2 ^ 48 - 1) / 4) (old : Option (Stored Score))
    (m : Bytes → Option (Bytes × Nat)) (hold : old = none ∧ m = (fun _ => none) ∨ old = some ⟨.hash m, -1⟩) :
    ([bytes "HMSET", k, f.field.bytes, f.value.bytes] ::
        if f.expireTime ≠ ebExpireTimeInvalid then
          [[bytes "HPEXPIREAT", k, decimal f.expireTime, bytes "FIELDS", bytes "1", f.field.bytes]]
        else []).foldl applyCommand old =
      some ⟨.hash (Function.update m f.field.bytes (some (f.value.bytes, f.expireTime))), -1⟩ := by
  have hmset : applyCommand old [bytes "HMSET", k, f.field.bytes, f.value.bytes] =
      some ⟨.hash (Function.update m f.field.bytes (some (f.value.bytes, ebExpireTimeInvalid))), -1⟩ := by
    rw [applyCommand, keyEffect_hmset (by simp)]
    rcases hold with ⟨rfl, rfl⟩ | rfl <;> rfl
  rw [List.foldl_cons, hmset]
  split
  · next hne =>
      have hle := hexpire.resolve_left hne
      have hwhen : string2ll (decimal f.expireTime) = some (f.expireTime : Int) :=
        (string2ll_eq_some_iff _ _).mpr ⟨rfl, by omega, by omega⟩
      have heffect : keyEffect (bytes "HPEXPIREAT") [decimal f.expireTime, bytes "FIELDS", bytes "1", f.field.bytes] =
          some (hpexpireatCommand (decimal f.expireTime) f.field.bytes : _ → Option (Stored Score)) := rfl
      rw [List.foldl_cons, List.foldl_nil, applyCommand, heffect]
      dsimp only
      rw [hpexpireatCommand, hwhen]
      dsimp only
      rw [if_neg (by omega), Function.update_self]
      simp
  · next heq =>
      rw [not_not.mp heq]
      rfl

theorem foldl_hashCommands {minExpire : Nat} {fs : List HashField} (hfs : (Obj.hash minExpire fs : Obj Score).Valid) :
    (hashCommands k minExpire fs).foldl applyCommand none = some ⟨(Obj.hash minExpire fs : Obj Score).value, -1⟩ := by
  obtain ⟨hne, hnone, hfs⟩ := hfs
  unfold hashCommands
  split
  · next hinvalid =>
      rw [foldl_itemCommands (fun piece hpiece => keyEffect_hmset_fields hpiece) hsetCommand_append hne none,
        hsetCommand, fieldPairs_flatMap, Obj.value]
      dsimp only
      rw [List.map_congr_left fun f hf => by rw [← hnone hinvalid f hf]]
  · have hfold : ∀ (gs : List HashField) (old : Option (Stored Score)) (m : Bytes → Option (Bytes × Nat)),
        (∀ g ∈ gs, g ∈ fs) → gs ≠ [] → (old = none ∧ m = (fun _ => none) ∨ old = some ⟨.hash m, -1⟩) →
        (gs.flatMap fun f => [bytes "HMSET", k, f.field.bytes, f.value.bytes] ::
          if f.expireTime ≠ ebExpireTimeInvalid then
            [[bytes "HPEXPIREAT", k, decimal f.expireTime, bytes "FIELDS", bytes "1", f.field.bytes]]
          else []).foldl applyCommand old =
          some ⟨.hash (addAll m (gs.map fun f => (f.field.bytes, f.value.bytes, f.expireTime))), -1⟩ := by
      intro gs
      induction gs with
      | nil => exact fun _ _ _ hgs => absurd rfl hgs
      | cons g gs ih =>
          intro old m hmem _ hold
          have hg := foldl_hashField (k := k) (hfs g (hmem g List.mem_cons_self)).2.2 old m hold
          rw [List.flatMap_cons, List.foldl_append, hg]
          by_cases hgs : gs = []
          · subst hgs
            rfl
          · exact ih _ _ (fun g' hg' => hmem g' (List.mem_cons_of_mem g hg')) hgs (.inr rfl)
    exact hfold fs none _ (fun g hg => hg) hne (.inl ⟨rfl, rfl⟩)

/-- **The commands for an object** rebuild its value. -/
theorem foldl_objCommands {o : Obj Score} (h : o.Valid) :
    (objCommands k o).foldl applyCommand none = some ⟨o.value, -1⟩ := by
  cases o with
  | string o => rfl
  | list es =>
      refine foldl_itemCommands (fun piece hpiece => keyEffect_rpush_elems hpiece) ?_ h.1 none
      intro ys zs old
      rw [List.map_append, rpushCommand_append]
  | set es =>
      refine foldl_itemCommands (fun piece hpiece => keyEffect_sadd_elems hpiece) ?_ h.1 none
      intro ys zs old
      rw [List.map_append, saddCommand_append]
  | zset es =>
      rw [objCommands, foldl_itemCommands (fun piece hpiece => keyEffect_zadd hpiece) zaddCommand_append h.1 none,
        zaddCommand, scorePairs_flatMap]
      rfl
  | hash minExpire fs => exact foldl_hashCommands h

theorem itemCommands_onKey {α : Type} {args : α → List Bytes} {xs : List α} {name : String}
    (hname : name ∈ keyCommandNames) {cmd : List α → Option (Stored Score) → Option (Stored Score)}
    (heffect : ∀ piece ≠ [], keyEffect (bytes name) (piece.flatMap args) = some (cmd piece)) :
    ∀ argv ∈ itemCommands (bytes name) k args xs, OnKey Score k argv := by
  intro argv h
  obtain ⟨piece, hpiece, rfl⟩ := List.mem_map.mp h
  exact ⟨name, hname, _, rfl, by rw [heffect piece (ne_nil_of_mem_pieces hpiece)]; rfl⟩

theorem keyCommands_onKey (key : Key Score) : ∀ argv ∈ keyCommands key, OnKey Score key.keystr argv := by
  obtain ⟨k, o, expiretime⟩ := key
  intro argv h
  rcases List.mem_append.mp h with h | h
  · cases o with
    | string o =>
        obtain rfl := List.mem_singleton.mp h
        exact ⟨"SET", by decide, _, rfl, rfl⟩
    | list es => exact itemCommands_onKey (by decide) (fun piece hpiece => keyEffect_rpush_elems hpiece) argv h
    | set es => exact itemCommands_onKey (by decide) (fun piece hpiece => keyEffect_sadd_elems hpiece) argv h
    | zset es => exact itemCommands_onKey (by decide) (fun piece hpiece => keyEffect_zadd hpiece) argv h
    | hash minExpire fs =>
        change argv ∈ hashCommands k minExpire fs at h
        unfold hashCommands at h
        split at h
        · exact itemCommands_onKey (by decide) (fun piece hpiece => keyEffect_hmset_fields hpiece) argv h
        · obtain ⟨f, hf, h⟩ := List.mem_flatMap.mp h
          rcases List.mem_cons.mp h with rfl | h
          · exact ⟨"HMSET", by decide, _, rfl, rfl⟩
          · split at h
            · obtain rfl := List.mem_singleton.mp h
              exact ⟨"HPEXPIREAT", by decide, _, rfl, rfl⟩
            · cases h
  · split at h
    · obtain rfl := List.mem_singleton.mp h
      exact ⟨"PEXPIREAT", by decide, _, rfl, rfl⟩
    · cases h

/-- The commands for a key store its value with its expire time. -/
theorem foldl_keyCommands {key : Key Score} (h : key.Valid) :
    (keyCommands key).foldl applyCommand none = some key.stored := by
  obtain ⟨k, o, expiretime⟩ := key
  have hlow := h.expire_low
  have hhigh := h.expire_high
  dsimp only at hlow hhigh
  rw [keyCommands, List.foldl_append, foldl_objCommands h.o]
  dsimp only
  split
  · have hwhen : string2ll (decimal expiretime) = some expiretime := (string2ll_eq_some_iff _ _).mpr ⟨rfl, hlow, hhigh⟩
    have heffect : keyEffect (bytes "PEXPIREAT") [decimal expiretime] =
        some (pexpireatCommand (decimal expiretime) : _ → Option (Stored Score)) := rfl
    rw [List.foldl_cons, List.foldl_nil, applyCommand, heffect]
    dsimp only
    rw [pexpireatCommand, hwhen]
    rfl
  · next heq =>
      obtain rfl := not_not.mp heq
      rfl

end Objects

/-! ## Databases -/

section Databases

variable (other : Nat → List Bytes → Keyspace Score → Keyspace Score)

/-- The keys of a database are stored beside what the database has. -/
theorem foldl_keys {keys : List (Key Score)} (hvalid : ∀ key ∈ keys, key.Valid) (hnodup : (keys.map Key.keystr).Nodup)
    (db : Nat) (d : Keyspace Score) (hfree : ∀ key ∈ keys, d db key.keystr = none) :
    (keys.flatMap keyCommands).foldl (fun d argv => execute other db argv d) d =
      Function.update d db (addAll (d db) (keys.map fun k => (k.keystr, k.stored))) := by
  induction keys generalizing d with
  | nil => simp [addAll]
  | cons key keys ih =>
      rw [List.map_cons, List.nodup_cons] at hnodup
      obtain ⟨hnew, hnodup⟩ := hnodup
      have hfirst := foldl_execute (keyCommands_onKey key) other db d
      rw [hfree key List.mem_cons_self, foldl_keyCommands (hvalid key List.mem_cons_self)] at hfirst
      rw [List.flatMap_cons, List.foldl_append, hfirst,
        ih (fun k hk => hvalid k (List.mem_cons_of_mem key hk)) hnodup]
      · rw [Function.update_self, Function.update_idem]
        rfl
      · intro k hk
        have hne : k.keystr ≠ key.keystr := fun heq => hnew (List.mem_map.mpr ⟨k, hk, heq⟩)
        rw [Function.update_self, Function.update_of_ne hne]
        exact hfree k (List.mem_cons_of_mem key hk)

/-- The records of the commands for the databases. -/
def dbRecs (j : Nat) : List (List (Key Score)) → List (Rec (List Bytes) (Keyspace Score))
  | [] => []
  | keys :: dbs =>
    (if keys = [] then [] else .select j :: (keys.flatMap keyCommands).map (.command · 0 0)) ++ dbRecs (j + 1) dbs

def rewriteRecs (timestamp : Option Int) (functions : List Bytes) (dbs : List (List (Key Score))) :
    List (Rec (List Bytes) (Keyspace Score)) :=
  timestamp.toList.map (fun _ => .timestamp) ++
    ((functionCommands functions).map (.command · 0 0) ++ dbRecs 0 dbs)

theorem prints_commands {δ : Type} (cmds : List (List Bytes)) :
    List.Forall₂ (PrintsRec (δ := δ)) (cmds.map (.command · 0 0)) (cmds.map .command) := by
  induction cmds with
  | nil => exact .nil
  | cons argv cmds ih => exact .cons (.command argv 0 0) ih

theorem prints_dbRecs (j : Nat) (dbs : List (List (Key Score))) :
    List.Forall₂ PrintsRec (dbRecs j dbs) ((dbCommands j dbs).map .command) := by
  induction dbs generalizing j with
  | nil => exact .nil
  | cons keys dbs ih =>
      rw [dbRecs, dbCommands, List.map_append]
      refine List.rel_append ?_ (ih (j + 1))
      split
      · exact .nil
      · exact .cons (.select j) (prints_commands _)

theorem prints_rewriteRecs (timestamp : Option Int) (functions : List Bytes) (dbs : List (List (Key Score))) :
    List.Forall₂ PrintsRec (rewriteRecs timestamp functions dbs) (rewriteFile timestamp functions dbs) := by
  rw [rewriteRecs, rewriteFile, List.map_append]
  refine List.rel_append ?_ (List.rel_append (prints_commands _) (prints_dbRecs 0 dbs))
  cases timestamp with
  | none => exact .nil
  | some now => exact .cons (.timestamp now) .nil

theorem mem_dbRecs {j : Nat} {dbs : List (List (Key Score))} {r : Rec (List Bytes) (Keyspace Score)}
    (h : r ∈ dbRecs j dbs) : (∃ i < dbs.length, r = .select (j + i)) ∨
      ∃ keys ∈ dbs, ∃ key ∈ keys, ∃ argv ∈ keyCommands key, r = .command argv 0 0 := by
  induction dbs generalizing j with
  | nil => cases h
  | cons keys dbs ih =>
      rw [dbRecs] at h
      rcases List.mem_append.mp h with h | h
      · split at h
        · cases h
        rcases List.mem_cons.mp h with rfl | h
        · exact .inl ⟨0, by simp, rfl⟩
        · obtain ⟨argv, hargv, rfl⟩ := List.mem_map.mp h
          obtain ⟨key, hkey, hargv⟩ := List.mem_flatMap.mp hargv
          exact .inr ⟨keys, List.mem_cons_self, key, hkey, argv, hargv, rfl⟩
      · rcases ih h with ⟨i, hi, rfl⟩ | ⟨keys', hkeys, hrest⟩
        · exact .inl ⟨i + 1, by simp [hi], by congr 1; omega⟩
        · exact .inr ⟨keys', List.mem_cons_of_mem keys hkeys, hrest⟩

/-- Commands are executed one after another outside `MULTI`. -/
theorem foldl_feed_commands (cmds : List (List Bytes)) (db : Nat) (d : Keyspace Score) :
    (cmds.map fun argv => Rec.command argv 0 0).foldl (@Replay.feed _ _ (keyspaceCommands other)) ⟨db, d, none⟩ =
      ⟨db, cmds.foldl (fun d argv => execute other db argv d) d, none⟩ := by
  induction cmds generalizing d with
  | nil => rfl
  | cons argv cmds ih => exact ih (execute other db argv d)

theorem foldl_feed_dbRecs {dbs : List (List (Key Score))} (hvalid : ∀ keys ∈ dbs, ∀ key ∈ keys, key.Valid)
    (hnodup : ∀ keys ∈ dbs, (keys.map Key.keystr).Nodup) (j db : Nat) (d : Keyspace Score)
    (hfree : ∀ i, j ≤ i → d i = fun _ => none) :
    ∃ db', (dbRecs j dbs).foldl (@Replay.feed _ _ (keyspaceCommands other)) ⟨db, d, none⟩ =
      ⟨db', fun i => if j ≤ i then keyspaceOf dbs (i - j) else d i, none⟩ := by
  induction dbs generalizing j db d with
  | nil =>
      have hsame : (fun i => if j ≤ i then keyspaceOf ([] : List (List (Key Score))) (i - j) else d i) = d := by
        funext i
        split
        · next hle => exact (hfree i hle).symm
        · rfl
      rw [hsame]
      exact ⟨db, rfl⟩
  | cons keys dbs ih =>
      have hrest := ih (fun ks hks => hvalid ks (List.mem_cons_of_mem keys hks))
        (fun ks hks => hnodup ks (List.mem_cons_of_mem keys hks)) (j + 1)
      -- what is there after the first database
      have hfirst : ∃ db', (if keys = [] then []
          else Rec.select j :: (keys.flatMap keyCommands).map (.command · 0 0)).foldl
          (@Replay.feed _ _ (keyspaceCommands other)) ⟨db, d, none⟩ =
            ⟨db', Function.update d j (ofEntries (keys.map fun k => (k.keystr, k.stored))), none⟩ := by
        split
        · next hnil =>
            subst hnil
            have hsame : Function.update d j (ofEntries []) = d := by
              rw [Function.update_eq_self_iff, hfree j (Nat.le_refl j)]
              rfl
            exact ⟨db, by rw [List.map_nil, hsame]; rfl⟩
        · have hkeys := foldl_keys other (hvalid keys List.mem_cons_self) (hnodup keys List.mem_cons_self) j d
            fun key _ => by rw [hfree j (Nat.le_refl j)]
          rw [hfree j (Nat.le_refl j)] at hkeys
          refine ⟨j, ?_⟩
          rw [List.foldl_cons]
          refine (foldl_feed_commands other (keys.flatMap keyCommands) j d).trans ?_
          rw [hkeys]
          rfl
      obtain ⟨db', hfirst⟩ := hfirst
      have hfree' : ∀ i, j + 1 ≤ i →
          Function.update d j (ofEntries (keys.map fun k => (k.keystr, k.stored))) i = fun _ => none := by
        intro i hi
        rw [Function.update_of_ne (by omega)]
        exact hfree i (by omega)
      obtain ⟨db'', hrest⟩ := hrest db' _ hfree'
      refine ⟨db'', ?_⟩
      rw [dbRecs, List.foldl_append, hfirst, hrest]
      congr 1
      funext i
      rcases Nat.lt_trichotomy i j with hlt | rfl | hgt
      · rw [if_neg (by omega), if_neg (by omega), Function.update_of_ne (by omega)]
      · rw [if_neg (by omega), if_pos (Nat.le_refl i), Function.update_self, Nat.sub_self]
        rfl
      · obtain ⟨m, rfl⟩ := Nat.exists_eq_add_of_lt hgt
        have hsub : j + m + 1 - (j + 1) = m := by omega
        have hsub' : j + m + 1 - j = m + 1 := by omega
        rw [if_pos (by omega), if_pos (by omega), hsub, hsub']
        rfl

end Databases

/-! ## Rewritten files -/

/-- What `rewriteAppendOnlyFileRio` reads: the libraries and the keys of the databases. -/
structure Dataset (Score : Type) [ScoreFormat Score] where
  functions : List Bytes
  dbs : List (List (Key Score))
  functions_fit : ∀ code ∈ functions, code.length < 2 ^ 31
  valid : ∀ keys ∈ dbs, ∀ key ∈ keys, key.Valid
  nodup : ∀ keys ∈ dbs, (keys.map Key.keystr).Nodup

/-- The names of the commands that are printed. -/
def rewriteNames : List String := "FUNCTION" :: "SELECT" :: keyCommandNames

variable {lookupCommand : List Bytes → Bool} {dbnum : Nat}

theorem mem_dbCommands {j : Nat} {dbs : List (List (Key Score))} {argv : List Bytes} (h : argv ∈ dbCommands j dbs) :
    (∃ i < dbs.length, argv = [bytes "SELECT", decimal (j + i : Nat)]) ∨
      ∃ keys ∈ dbs, ∃ key ∈ keys, argv ∈ keyCommands key := by
  induction dbs generalizing j with
  | nil => cases h
  | cons keys dbs ih =>
      rw [dbCommands] at h
      rcases List.mem_append.mp h with h | h
      · split at h
        · cases h
        rcases List.mem_cons.mp h with rfl | h
        · exact .inl ⟨0, by simp, rfl⟩
        · obtain ⟨key, hkey, hargv⟩ := List.mem_flatMap.mp h
          exact .inr ⟨keys, List.mem_cons_self, key, hkey, hargv⟩
      · rcases ih h with ⟨i, hi, rfl⟩ | ⟨keys', hkeys, hrest⟩
        · exact .inl ⟨i + 1, by simp [hi], by rw [Nat.add_assoc, Nat.add_comm 1 i]⟩
        · exact .inr ⟨keys', List.mem_cons_of_mem keys hkeys, hrest⟩

/-- Every item can be loaded. -/
theorem mem_rewriteFile {ds : Dataset Score} {timestamp : Option Int} {item : Item} (hdbs : ds.dbs.length ≤ 2 ^ 31)
    (h : item ∈ rewriteFile timestamp ds.functions ds.dbs) : (∃ now ∈ timestamp, item = .timestamp now) ∨
      ∃ name ∈ rewriteNames, ∃ args, item = .command (bytes name :: args) ∧ Fits (bytes name :: args) := by
  rcases List.mem_append.mp h with h | h
  · obtain ⟨now, hnow, rfl⟩ := List.mem_map.mp h
    exact .inl ⟨now, Option.mem_toList.mp hnow, rfl⟩
  obtain ⟨argv, hargv, rfl⟩ := List.mem_map.mp h
  right
  rcases List.mem_append.mp hargv with hargv | hargv
  · obtain ⟨code, hcode, rfl⟩ := List.mem_map.mp hargv
    have hnames : (bytes "FUNCTION").length = 8 ∧ (bytes "LOAD").length = 4 := by decide
    have hlen := ds.functions_fit code hcode
    refine ⟨"FUNCTION", by decide, _, rfl, fits_small (by simp) (by simp) ?_⟩
    intro s hs
    simp only [List.mem_cons, List.not_mem_nil, or_false] at hs
    rcases hs with rfl | rfl | rfl <;> omega
  · rcases mem_dbCommands hargv with ⟨i, hi, rfl⟩ | ⟨keys, hkeys, key, hkey, hargv⟩
    · exact ⟨"SELECT", by decide, _, rfl, fits_select (by omega)⟩
    · obtain ⟨hfits, name, hname, args, rfl⟩ := keyCommands_printed (ds.valid keys hkeys key hkey) argv hargv
      exact ⟨name, List.mem_cons_of_mem _ (List.mem_cons_of_mem _ hname), _, rfl, hfits⟩

theorem mem_rewriteRecs {ds : Dataset Score} {timestamp : Option Int} {r : Rec (List Bytes) (Keyspace Score)}
    (h : r ∈ rewriteRecs timestamp ds.functions ds.dbs) : r = .timestamp ∨ (∃ db < ds.dbs.length, r = .select db) ∨
      ∃ name ∈ "FUNCTION" :: keyCommandNames, ∃ args, r = .command (bytes name :: args) 0 0 := by
  rcases List.mem_append.mp h with h | h
  · obtain ⟨now, -, rfl⟩ := List.mem_map.mp h
    exact .inl rfl
  right
  rcases List.mem_append.mp h with h | h
  · obtain ⟨argv, hargv, rfl⟩ := List.mem_map.mp h
    obtain ⟨code, -, rfl⟩ := List.mem_map.mp hargv
    exact .inr ⟨"FUNCTION", by decide, _, rfl⟩
  · rcases mem_dbRecs h with ⟨i, hi, rfl⟩ | ⟨keys, -, key, -, argv, hargv, rfl⟩
    · exact .inl ⟨i, hi, by rw [Nat.zero_add]⟩
    · obtain ⟨name, hname, args, rfl, -⟩ := keyCommands_onKey key argv hargv
      exact .inr ⟨name, List.mem_cons_of_mem _ hname, _, rfl⟩

/-- Replaying the records of a rewritten file. -/
theorem replay_rewriteRecs (ds : Dataset Score) (timestamp : Option Int)
    (other : Nat → List Bytes → Keyspace Score → Keyspace Score) :
    ∃ db, @replay _ _ (keyspaceCommands other) (rewriteRecs timestamp ds.functions ds.dbs) (fun _ _ => none) =
      ⟨db, keyspaceOf ds.dbs, none⟩ := by
  have htimestamp : (timestamp.toList.map fun _ => Rec.timestamp).foldl (@Replay.feed _ _ (keyspaceCommands other))
      (.new fun _ _ => none) = ⟨0, fun _ _ => none, none⟩ := by
    cases timestamp <;> rfl
  have hfunctions : ∀ (codes : List Bytes) (d : Keyspace Score),
      (functionCommands codes).foldl (fun d argv => execute other 0 argv d) d = d := by
    intro codes
    induction codes with
    | nil => exact fun _ => rfl
    | cons code codes ih => exact fun d => ih d
  obtain ⟨db, hdbs⟩ := foldl_feed_dbRecs other ds.valid ds.nodup 0 0 (fun _ _ => none) fun _ _ => rfl
  refine ⟨db, ?_⟩
  unfold replay rewriteRecs
  rw [List.foldl_append, List.foldl_append, htimestamp, foldl_feed_commands, hfunctions, hdbs]
  rfl

end Execute

/-! ### A small dataset

Its scores are whole numbers. -/

theorem decimal_no_option (z : Int) : ∀ opt ∈ ["nx", "xx", "ch", "incr", "gt", "lt"],
    sameIgnoringCase (decimal z) (bytes opt) = false := by
  have hfirst : ∀ opt ∈ ["nx", "xx", "ch", "incr", "gt", "lt"],
      57 < ((caseKey (bytes opt)).headD 0).toNat := by decide
  intro opt hopt
  cases hdecimal : decimal z with
  | nil => exact absurd hdecimal (decimal_ne_nil z)
  | cons c rest =>
      have hc : 0 < c.toNat ∧ c.toNat ≤ 57 := by
        rcases @mem_decimal z c (by rw [hdecimal]; exact List.mem_cons_self) with rfl | hdigit
        · decide
        · rw [isDigit_iff] at hdigit
          omega
      have hne : c ≠ 0 := by
        rintro rfl
        exact absurd hc.1 (by decide)
      have hlower : toLower c = c := by
        apply if_neg
        rintro ⟨hlow, -⟩
        have hlow' : 65 ≤ c.toNat := UInt8.le_iff_toNat_le.mp hlow
        omega
      have hcstring : cString (c :: rest) = c :: cString rest := by simp [cString, hne]
      rw [sameIgnoringCase, caseKey, hcstring, List.map_cons, hlower, decide_eq_false_iff_not]
      intro heq
      have hgt := hfirst opt hopt
      rw [← heq, List.headD_cons] at hgt
      omega

instance : ScoreFormat Int64 where
  fpconvDtoa score := decimal score.toInt
  getDouble s := (string2ll s).map Int64.ofInt
  getDouble_dtoa score := by
    rw [(string2ll_eq_some_iff _ _).mpr ⟨rfl, score.le_toInt, score.toInt_lt⟩, Option.map_some, Int64.ofInt_toInt]
  dtoa_length score := by
    have hlen := length_decimal_le score.le_toInt score.toInt_lt
    omega
  dtoa_no_option score := decimal_no_option score.toInt

def smallDataset : Dataset Int64 where
  functions := []
  -- the fields of the second hash have lost their expire times
  dbs := [[⟨[97], .list [.int 1, .str [98]], -1⟩, ⟨[99], .hash 5 [⟨.str [100], .int 2, 5⟩], 7⟩,
    ⟨[102], .hash 5 [⟨.str [100], .int 2, ebExpireTimeInvalid⟩], -1⟩], [], [⟨[97], .zset [(.str [101], 3)], -1⟩]]
  functions_fit := nofun
  valid := by
    have hshort : ∀ e ∈ [Elem.int 1, .str [98], .str [100], .int 2, .str [101]], e.Short := by
      have hlen : (decimal 1).length < 2 ^ 31 ∧ (decimal 2).length < 2 ^ 31 := by decide
      simp [Elem.Short, Elem.bytes]
      exact hlen
    intro keys hkeys key hkey
    simp only [List.mem_cons, List.not_mem_nil, or_false] at hkeys
    rcases hkeys with rfl | rfl | rfl
    · simp only [List.mem_cons, List.not_mem_nil, or_false] at hkey
      rcases hkey with rfl | rfl | rfl
      · exact ⟨by simp, ⟨by simp, fun e he => hshort e (by simp at he ⊢; tauto)⟩, by decide, by decide⟩
      · refine ⟨by simp, ⟨by simp, fun hexpire => absurd hexpire (by decide), fun f hf => ?_⟩, by decide, by decide⟩
        obtain rfl := List.mem_singleton.mp hf
        exact ⟨hshort _ (by simp), hshort _ (by simp), .inr (by decide)⟩
      · refine ⟨by simp, ⟨by simp, fun hexpire => absurd hexpire (by decide), fun f hf => ?_⟩, by decide, by decide⟩
        obtain rfl := List.mem_singleton.mp hf
        exact ⟨hshort _ (by simp), hshort _ (by simp), .inl rfl⟩
    · cases hkey
    · obtain rfl := List.mem_singleton.mp hkey
      refine ⟨by simp, ⟨by simp, fun e he => ?_⟩, by decide, by decide⟩
      obtain rfl := List.mem_singleton.mp he
      exact hshort _ (by simp)
  nodup := by decide

end WasiPorts.Redis.Aof
