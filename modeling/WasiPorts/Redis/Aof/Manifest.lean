import Mathlib.Data.List.Basic

/-!
# The AOF manifest

The in-memory manifest of `aof.c`: at most one BASE file, the HISTORY files waiting for deletion
and the INCR files, with the sequence numbers last used. It is generic in the type `N` of file
names: the name is a string where only its value matters, and the address of an sds cell where
its ownership does.

A manifest file is modelled by its lines, one entry each.
-/

namespace WasiPorts.Redis.Aof

variable {N N' : Type}

inductive AofFileType where
  | base | hist | incr
  deriving DecidableEq, Repr

structure AofInfo (N : Type) where
  fileName : N
  fileSeq : Int
  fileType : AofFileType
  deriving DecidableEq, Repr

structure AofManifest (N : Type) where
  baseAofInfo : Option (AofInfo N)
  historyAofList : List (AofInfo N)
  incrAofList : List (AofInfo N)
  currBaseFileSeq : Int
  currIncrFileSeq : Int
  dirty : Bool
  deriving DecidableEq, Repr

/-- `C_OK` and `C_ERR`. -/
inductive Status where
  | ok | err
  deriving DecidableEq, Repr

/-- The server configuration the manifest code reads. -/
structure Conf where
  aofFilename : String
  aofDirname : String
  aofUseRdbPreamble : Bool
  aofDisableAutoGc : Bool

/-! ## Names -/

/-- `getAofManifestFileName`. -/
def Conf.manifestName (cf : Conf) : String := cf.aofFilename ++ ".manifest"

/-- `getTempAofManifestFileName`. -/
def Conf.tempManifestName (cf : Conf) : String := "temp-" ++ cf.aofFilename ++ ".manifest"

/-- `getTempIncrAofName`. -/
def Conf.tempIncrAofName (cf : Conf) : String := "temp-" ++ cf.aofFilename ++ ".incr"

/-- Temporary files in the AOF directory. -/
def Conf.tempNames (cf : Conf) : List String := [cf.tempManifestName, cf.tempIncrAofName]

/-- The names in the AOF directory that the server uses whatever the manifest lists. -/
def Conf.ownNames (cf : Conf) : List String := cf.manifestName :: cf.tempNames

/-- The name of the BASE file with sequence number `seq`. -/
def Conf.baseName (cf : Conf) (seq : Int) : String :=
  cf.aofFilename ++ "." ++ toString seq ++ ".base" ++
    (if cf.aofUseRdbPreamble then ".rdb" else ".aof")

/-- The name of the INCR file with sequence number `seq`. -/
def Conf.incrName (cf : Conf) (seq : Int) : String :=
  cf.aofFilename ++ "." ++ toString seq ++ ".incr" ++ ".aof"

/-- `makePath`. -/
def Conf.path (cf : Conf) (name : String) : String := cf.aofDirname ++ "/" ++ name

/-! ## Operations -/

/-- The entry as a HISTORY one. -/
def AofInfo.toHist (ai : AofInfo N) : AofInfo N := { ai with fileType := .hist }

def AofInfo.map (f : N → N') (ai : AofInfo N) : AofInfo N' := ⟨f ai.fileName, ai.fileSeq, ai.fileType⟩

namespace AofManifest

/-- `aofManifestCreate`. -/
def create : AofManifest N := ⟨none, [], [], 0, 0, false⟩

/-- The entries in the order of `getAofManifestAsString`. -/
def lines (am : AofManifest N) : List (AofInfo N) :=
  am.baseAofInfo.toList ++ am.historyAofList ++ am.incrAofList

def names (am : AofManifest N) : List N := am.lines.map (·.fileName)

def map (f : N → N') (am : AofManifest N) : AofManifest N' :=
  ⟨am.baseAofInfo.map (·.map f), am.historyAofList.map (·.map f), am.incrAofList.map (·.map f),
    am.currBaseFileSeq, am.currIncrFileSeq, am.dirty⟩

/-- A new BASE entry called `name`; the previous one becomes a HISTORY entry. -/
def pushBase (am : AofManifest N) (name : N) : AofManifest N :=
  { am with
    baseAofInfo := some ⟨name, am.currBaseFileSeq + 1, .base⟩
    historyAofList := (am.baseAofInfo.map (·.toHist)).toList ++ am.historyAofList
    currBaseFileSeq := am.currBaseFileSeq + 1
    dirty := true }

/-- A new INCR entry called `name`. -/
def pushIncr (am : AofManifest N) (name : N) : AofManifest N :=
  { am with
    incrAofList := am.incrAofList ++ [⟨name, am.currIncrFileSeq + 1, .incr⟩]
    currIncrFileSeq := am.currIncrFileSeq + 1
    dirty := true }

/-- The names of the BASE entry and of the last INCR entry, read after their memory was freed. Where
it was not used again (`none`) they read as before. -/
def reread (freed : Option (N × N)) (am : AofManifest N) : AofManifest N :=
  match freed with
  | none => am
  | some (base, incr) =>
    { am with
      baseAofInfo := am.baseAofInfo.map fun ai => { ai with fileName := base }
      incrAofList := am.incrAofList.dropLast ++
        (am.incrAofList.getLast?.map fun ai => { ai with fileName := incr }).toList }

@[simp] theorem reread_none (am : AofManifest N) : am.reread none = am := rfl

end AofManifest

/-- `getNewBaseFileNameAndMarkPreAsHistory`. -/
def getNewBaseFileNameAndMarkPreAsHistory (cf : Conf) (am : AofManifest String) :
    String × AofManifest String :=
  let name := cf.baseName (am.currBaseFileSeq + 1)
  (name, am.pushBase name)

/-- `getNewIncrAofName`. -/
def getNewIncrAofName (cf : Conf) (am : AofManifest String) : String × AofManifest String :=
  let name := cf.incrName (am.currIncrFileSeq + 1)
  (name, am.pushIncr name)

/-- `getLastIncrAofName`. -/
def getLastIncrAofName (cf : Conf) (am : AofManifest String) : String × AofManifest String :=
  match am.incrAofList.getLast? with
  | none => getNewIncrAofName cf am
  | some ai => (ai.fileName, am)

/-- `markRewrittenIncrAofAsHistory`. While a file is open for appending (`fdOpen`), the last INCR
entry is that file and stays. The loop goes backwards and adds at the head of the history, so the
moved entries keep their order. -/
def markRewrittenIncrAofAsHistory (fdOpen : Bool) (am : AofManifest String) :
    AofManifest String :=
  if am.incrAofList = [] then am
  else
    let moved := if fdOpen then am.incrAofList.dropLast else am.incrAofList
    let kept := if fdOpen then am.incrAofList.getLast?.toList else []
    { am with
      historyAofList := moved.map (·.toHist) ++ am.historyAofList
      incrAofList := kept
      dirty := true }

/-- A renaming is determined by what it does to the names in the manifest. -/
theorem AofManifest.map_congr {f g : N → N'} {am : AofManifest N}
    (h : ∀ a ∈ am.names, f a = g a) : am.map f = am.map g := by
  have hinfo : ∀ ai ∈ am.lines, ai.map f = ai.map g := by
    intro ai hai
    rw [AofInfo.map, AofInfo.map, h _ (List.mem_map_of_mem hai)]
  have hlist : ∀ l : List (AofInfo N), (∀ ai ∈ l, ai ∈ am.lines) →
      l.map (·.map f) = l.map (·.map g) := by
    intro l hl
    exact List.map_congr_left fun ai hai => hinfo ai (hl ai hai)
  have hbase : am.baseAofInfo.map (·.map f) = am.baseAofInfo.map (·.map g) := by
    cases hb : am.baseAofInfo with
    | none => rfl
    | some ai => exact congrArg some (hinfo ai (by simp [lines, hb]))
  rw [map, map, hbase, hlist _ (by simp +contextual [lines]),
    hlist am.incrAofList (by simp +contextual [lines])]

/-! ## Writing the manifest file -/

/-- Which steps of one `writeAofManifestFile` succeed. -/
structure ManifestWrite where
  openTemp : Bool
  write : Bool
  fsync : Bool
  rename : Bool
  fsyncDir : Bool
  deriving DecidableEq, Repr

/-- The manifest file was replaced. -/
def ManifestWrite.replaced (w : ManifestWrite) : Bool :=
  w.openTemp && w.write && w.fsync && w.rename

def ManifestWrite.status (w : ManifestWrite) : Status :=
  if w.replaced && w.fsyncDir then .ok else .err

/-- All steps succeed. -/
def ManifestWrite.success : ManifestWrite := ⟨true, true, true, true, true⟩

/-! ## Loading -/

/-- One line of `aofLoadManifestFromFile`, after tokenising. Sequence number 0 is refused, as it
is what a missing number reads as. -/
def loadLine (am : AofManifest String) (ai : AofInfo String) : Option (AofManifest String) :=
  if ai.fileSeq = 0 then none
  else
    match ai.fileType with
    | .base =>
      if am.baseAofInfo.isSome then none
      else some { am with baseAofInfo := some ai, currBaseFileSeq := ai.fileSeq }
    | .hist => some { am with historyAofList := am.historyAofList ++ [ai] }
    | .incr =>
      -- `maxseq` starts at 0 and is the sequence number of the last INCR line
      if ai.fileSeq ≤ am.currIncrFileSeq then none
      else
        some { am with
          incrAofList := am.incrAofList ++ [ai]
          currIncrFileSeq := ai.fileSeq }

/-- `aofLoadManifestFromFile`: an empty file is refused. -/
def loadManifest (lines : List (AofInfo String)) : Option (AofManifest String) :=
  if lines = [] then none else lines.foldlM loadLine .create

end WasiPorts.Redis.Aof
