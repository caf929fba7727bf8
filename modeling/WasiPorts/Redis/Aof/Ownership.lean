import WasiPorts.Lib.CellStore
import WasiPorts.Redis.Aof.Manifest

/-!
# Who owns the file names

`startAppendOnly` on WASI builds the new manifest in a temporary copy `temp_am`, renames the two
files it made, persists the copy and installs it as `server.aof_manifest`. Here every sds (names
and paths) is a cell of a store, so that freeing is visible. The names returned by
`getNewBaseFileNameAndMarkPreAsHistory` and `getNewIncrAofName` are those of the entries of
`temp_am`; the paths made from them belong to the caller.

The manifest of the server is `AofManifest Addr`. File operations are represented by their
outcomes; only the manifest file is kept, as its lines.
-/

namespace WasiPorts.Redis.Aof.Ownership

open WasiPorts.CellStore

structure Server where
  aofManifest : AofManifest Addr
  /-- `server.aof_fd != -1`. -/
  aofFdOpen : Bool
  manifestFile : Option (List (AofInfo String))
  deriving DecidableEq, Repr

abbrev M := Prog String Server

/-- Which file-system steps of the WASI branch of `startAppendOnly` succeed. -/
structure Outcomes where
  dirCreate : Bool
  openTempIncr : Bool
  rewrite : Bool
  renameBase : Bool
  renameIncr : Bool
  persist : ManifestWrite
  persistHistory : ManifestWrite

/-! ## The code -/

/-- The use of a string by a system call or a log line. -/
def use (a : Addr) : M Unit := do
  let _ ← read a

def makePath (cf : Conf) (name : Addr) : M Addr := do
  let v ← read name
  alloc (cf.path v)

def aofInfoDup (ai : AofInfo Addr) : M (AofInfo Addr) := do
  let v ← read ai.fileName
  let a ← alloc v
  pure { ai with fileName := a }

def dupList : List (AofInfo Addr) → M (List (AofInfo Addr))
  | [] => pure []
  | ai :: rest => do
    let ai' ← aofInfoDup ai
    let rest' ← dupList rest
    pure (ai' :: rest')

def dupBase : Option (AofInfo Addr) → M (Option (AofInfo Addr))
  | none => pure none
  | some ai => do
    let ai' ← aofInfoDup ai
    pure (some ai')

def aofManifestDup (am : AofManifest Addr) : M (AofManifest Addr) := do
  let base ← dupBase am.baseAofInfo
  let incr ← dupList am.incrAofList
  let history ← dupList am.historyAofList
  pure { am with baseAofInfo := base, incrAofList := incr, historyAofList := history }

/-- `aofInfoFree` on each entry of a list. -/
def freeList : List (AofInfo Addr) → M Unit
  | [] => pure ()
  | ai :: rest => do
    free ai.fileName
    freeList rest

def aofManifestFree (am : AofManifest Addr) : M Unit := do
  freeList am.baseAofInfo.toList
  freeList am.incrAofList
  freeList am.historyAofList

def aofManifestFreeAndUpdate (am : AofManifest Addr) : M Unit := do
  let s ← get
  aofManifestFree s.rest.aofManifest
  update fun s => { s with aofManifest := am }

def getNewBaseFileNameAndMarkPreAsHistory (cf : Conf) (am : AofManifest Addr) :
    M (Addr × AofManifest Addr) := do
  let a ← alloc (cf.baseName (am.currBaseFileSeq + 1))
  pure (a, am.pushBase a)

def getNewIncrAofName (cf : Conf) (am : AofManifest Addr) : M (Addr × AofManifest Addr) := do
  let a ← alloc (cf.incrName (am.currIncrFileSeq + 1))
  pure (a, am.pushIncr a)

/-- The loop of `markRewrittenIncrAofAsHistory` over the entries to move, last one first. -/
def moveToHistory : List (AofInfo Addr) → List (AofInfo Addr) → M (List (AofInfo Addr))
  | [], history => pure history
  | ai :: rest, history => do
    let hai ← aofInfoDup ai
    free ai.fileName
    moveToHistory rest (hai.toHist :: history)

def markRewrittenIncrAofAsHistory (am : AofManifest Addr) : M (AofManifest Addr) := do
  if am.incrAofList = [] then pure am
  else
    let s ← get
    let moved := if s.rest.aofFdOpen then am.incrAofList.dropLast else am.incrAofList
    let kept := if s.rest.aofFdOpen then am.incrAofList.getLast?.toList else []
    let history ← moveToHistory moved.reverse am.historyAofList
    pure { am with historyAofList := history, incrAofList := kept, dirty := true }

/-- The lines of a list of entries. -/
def formatList : List (AofInfo Addr) → M (List (AofInfo String))
  | [] => pure []
  | ai :: rest => do
    let v ← read ai.fileName
    let rest' ← formatList rest
    pure (⟨v, ai.fileSeq, ai.fileType⟩ :: rest')

def getAofManifestAsString (am : AofManifest Addr) : M (List (AofInfo String)) :=
  formatList am.lines

def writeAofManifestFile (cf : Conf) (w : ManifestWrite) (buf : List (AofInfo String)) :
    M Status := do
  let amName ← alloc cf.manifestName
  let amFilepath ← makePath cf amName
  let tmpAmName ← alloc cf.tempManifestName
  let tmpAmFilepath ← makePath cf tmpAmName
  use tmpAmFilepath
  if w.replaced then
    use amFilepath
    update fun s => { s with manifestFile := some buf }
  else use tmpAmName
  free amName
  free amFilepath
  free tmpAmName
  free tmpAmFilepath
  pure w.status

/-- `persistAofManifest`: the status, and the manifest with its dirty flag updated. -/
def persistAofManifest (cf : Conf) (w : ManifestWrite) (am : AofManifest Addr) :
    M (Status × AofManifest Addr) := do
  if am.dirty = false then pure (.ok, am)
  else
    let amstr ← getAofManifestAsString am
    let ret ← writeAofManifestFile cf w amstr
    pure (ret, if ret = .ok then { am with dirty := false } else am)

/-- The loop of `aofDelHistoryFiles`: log, `bg_unlink` and delete each entry. -/
def deleteHistory (cf : Conf) : List (AofInfo Addr) → M Unit
  | [] => pure ()
  | ai :: rest => do
    use ai.fileName
    let aofFilepath ← makePath cf ai.fileName
    use aofFilepath
    free aofFilepath
    free ai.fileName
    deleteHistory cf rest

def aofDelHistoryFiles (cf : Conf) (w : ManifestWrite) : M Unit := do
  let s ← get
  let am := s.rest.aofManifest
  if cf.aofDisableAutoGc || am.historyAofList = [] then pure ()
  else
    deleteHistory cf am.historyAofList
    let (_, am) ← persistAofManifest cf w { am with historyAofList := [], dirty := true }
    update fun s => { s with aofManifest := am }

def aofDelTempIncrAofFile (cf : Conf) : M Unit := do
  let aofFilename ← alloc cf.tempIncrAofName
  let aofFilepath ← makePath cf aofFilename
  use aofFilename
  use aofFilepath
  free aofFilepath
  free aofFilename

/-- `openNewIncrAofForAppend` in state `AOF_WAIT_REWRITE`, where it opens the temp INCR file and
leaves the manifest alone. -/
def openTempIncrAof (cf : Conf) (openOk : Bool) : M Status := do
  let newAofName ← alloc cf.tempIncrAofName
  let newAofFilepath ← makePath cf newAofName
  use newAofFilepath
  free newAofFilepath
  use newAofName
  free newAofName
  if openOk then
    update fun s => { s with aofFdOpen := true }
    pure .ok
  else pure .err

/-- `getAppendOnlyFileSize`, as far as the names go. -/
def getAppendOnlyFileSize (cf : Conf) (name : Addr) : M Unit := do
  let aofFilepath ← makePath cf name
  use aofFilepath
  free aofFilepath

/-- The tail of the WASI branch: both files are in place, `newBase` and `newIncr` are the names
returned by the manifest functions, the other two addresses are the paths. -/
def persistAndInstall (cf : Conf) (o : Outcomes) (tempAm : AofManifest Addr)
    (newBase newBasePath newIncr newIncrPath : Addr) : M Status := do
  let tempAm ← markRewrittenIncrAofAsHistory tempAm
  let (ret, tempAm) ← persistAofManifest cf o.persist tempAm
  if ret = .err then
    use newBasePath
    use newIncrPath
    aofManifestFree tempAm
    free newBase
    free newBasePath
    free newIncr
    free newIncrPath
    aofDelTempIncrAofFile cf
    pure .err
  else
    aofManifestFreeAndUpdate tempAm
    getAppendOnlyFileSize cf newBase
    free newBase
    free newBasePath
    free newIncr
    free newIncrPath
    aofDelHistoryFiles cf o.persistHistory
    pure .ok

/-- The part of the WASI branch after the new base was written to its temporary file. -/
def takeOver (cf : Conf) (o : Outcomes) : M Status := do
  let s ← get
  let tempAm ← aofManifestDup s.rest.aofManifest
  let (newBase, tempAm) ← getNewBaseFileNameAndMarkPreAsHistory cf tempAm
  let newBasePath ← makePath cf newBase
  use newBasePath
  if o.renameBase = false then
    aofManifestFree tempAm
    free newBase
    free newBasePath
    aofDelTempIncrAofFile cf
    pure .err
  else
    let tempIncrName ← alloc cf.tempIncrAofName
    let tempIncrPath ← makePath cf tempIncrName
    let (newIncr, tempAm) ← getNewIncrAofName cf tempAm
    let newIncrPath ← makePath cf newIncr
    use tempIncrPath
    use newIncrPath
    if o.renameIncr = false then
      use newBasePath
      aofManifestFree tempAm
      free newBase
      free newBasePath
      free tempIncrName
      free tempIncrPath
      free newIncr
      free newIncrPath
      aofDelTempIncrAofFile cf
      pure .err
    else
      free tempIncrName
      free tempIncrPath
      persistAndInstall cf o tempAm newBase newBasePath newIncr newIncrPath

/-- The WASI branch of `startAppendOnly`. -/
def startAppendOnly (cf : Conf) (o : Outcomes) : M Status := do
  if o.dirCreate = false then pure .err
  else
    let opened ← openTempIncrAof cf o.openTempIncr
    if opened = .err then pure .err
    else if o.rewrite = false then
      aofDelTempIncrAofFile cf
      pure .err
    else takeOver cf o

end WasiPorts.Redis.Aof.Ownership
