import Mathlib
import WasiPorts.Lib.Run

/-!
# The event loop on `select`

`ae.c` with `ae_select.c`, its creation by `initServer`, and the places that install and remove
handlers: accepted clients, other connections and listeners, and `CONFIG SET maxclients`, which
resizes the loop.

A descriptor set of wasi-libc is a list of distinct descriptors with room for `FD_SETSIZE` of them;
`FD_SET` does not check. The table `events` is memory: an index outside of it is an address like any
other. `accesses` records the indices that `aeCreateFileEvent` used, each with the size of the table.
-/

namespace WasiPorts.Redis.Ae

/-! ## The loop (`ae.c`, `ae_select.c`) -/

def fdSetsize : Int := 1024

structure Mask where
  readable : Bool
  writable : Bool
  barrier : Bool
  deriving DecidableEq, Repr

def aeNone : Mask := ⟨false, false, false⟩

def aeReadable : Mask := ⟨true, false, false⟩

def aeWritable : Mask := ⟨false, true, false⟩

def Mask.or (a b : Mask) : Mask :=
  ⟨a.readable || b.readable, a.writable || b.writable, a.barrier || b.barrier⟩

/-- `a & ~b`. -/
def Mask.without (a b : Mask) : Mask :=
  ⟨a.readable && !b.readable, a.writable && !b.writable, a.barrier && !b.barrier⟩

structure EventLoop where
  maxfd : Int
  setsize : Int
  /-- The masks. -/
  events : Int → Mask
  rfds : List Int
  wfds : List Int
  /-- History: the indices used by `aeCreateFileEvent`, and `setsize` at that time. -/
  accesses : List (Int × Int)

def fdSet (fd : Int) (set : List Int) : List Int := if fd ∈ set then set else set ++ [fd]

def fdClr (fd : Int) (set : List Int) : List Int := set.filter (· ≠ fd)

/-- `aeCreateEventLoop`; `heap` is what memory holds outside of the table. -/
def aeCreateEventLoop (heap : Int → Mask) (setsize : Int) : EventLoop where
  maxfd := -1
  setsize := setsize
  events := fun i => if 0 ≤ i ∧ i < setsize then aeNone else heap i
  rfds := []
  wfds := []
  accesses := []

/-- `aeApiResize` has enough room. -/
def aeApiResize (setsize : Int) : Bool := decide (setsize < fdSetsize)

/-- `aeResizeSetSize`; `none` for `AE_ERR`. -/
def aeResizeSetSize (el : EventLoop) (heap : Int → Mask) (setsize : Int) : Option EventLoop :=
  if setsize = el.setsize then some el
  else if setsize ≤ el.maxfd then none
  else if !aeApiResize setsize then none
  else
    some { el with
      setsize := setsize
      events := fun i =>
        if el.maxfd + 1 ≤ i ∧ i < setsize then aeNone
        else if 0 ≤ i ∧ i ≤ el.maxfd then el.events i
        else heap i }

/-- `aeApiAddEvent`. -/
def aeApiAddEvent (el : EventLoop) (fd : Int) (mask : Mask) : EventLoop :=
  { el with
    rfds := if mask.readable then fdSet fd el.rfds else el.rfds
    wfds := if mask.writable then fdSet fd el.wfds else el.wfds }

/-- `aeApiDelEvent`. -/
def aeApiDelEvent (el : EventLoop) (fd : Int) (mask : Mask) : EventLoop :=
  { el with
    rfds := if mask.readable then fdClr fd el.rfds else el.rfds
    wfds := if mask.writable then fdClr fd el.wfds else el.wfds }

def EventLoop.setMask (el : EventLoop) (fd : Int) (mask : Mask) : EventLoop :=
  { el with events := fun i => if i = fd then mask else el.events i }

/-- `aeCreateFileEvent`; `none` for `AE_ERR`. There is no check against negative descriptors. -/
def aeCreateFileEvent (el : EventLoop) (fd : Int) (mask : Mask) : Option EventLoop :=
  if el.setsize ≤ fd then none
  else
    let el := aeApiAddEvent { el with accesses := el.accesses ++ [(fd, el.setsize)] } fd mask
    let el := el.setMask fd ((el.events fd).or mask)
    some { el with maxfd := if el.maxfd < fd then fd else el.maxfd }

/-- The loop of `aeDeleteFileEvent`: the largest descriptor below `n` with a handler. -/
def lastBelow (events : Int → Mask) : Nat → Int
  | 0 => -1
  | n + 1 => if events n ≠ aeNone then n else lastBelow events n

/-- `aeDeleteFileEvent`. -/
def aeDeleteFileEvent (el : EventLoop) (fd : Int) (mask : Mask) : EventLoop :=
  if el.setsize ≤ fd then el
  else if el.events fd = aeNone then el
  else
    let mask := if mask.writable then { mask with barrier := true } else mask
    let el := aeApiDelEvent el fd mask
    let el := el.setMask fd ((el.events fd).without mask)
    if fd = el.maxfd ∧ el.events fd = aeNone then
      { el with maxfd := lastBelow el.events el.maxfd.toNat }
    else el

/-! ## The server -/

/-- `CONFIG_FDSET_INCR`. -/
def configFdsetIncr : Nat := 32 + 96

/-- An `unsigned int` as an `int`. -/
def toInt (n : Nat) : Int := if n < 2 ^ 31 then n else n - 2 ^ 32

/-- `maxclients + CONFIG_FDSET_INCR`, an `unsigned int`. -/
def fdsetSize (maxclients : Nat) : Nat := (maxclients + configFdsetIncr) % 2 ^ 32

structure Server where
  el : EventLoop
  maxclients : Nat
  /-- The descriptors that are open. -/
  fds : List Int
  /-- Those of `server.clients`. -/
  clients : List Int
  running : Bool

/-- `moduleInitModulesSystem`: the read end of the module pipe, after the result of `anetPipe`. -/
def modulePipe (pipe : Option Int) : Int := pipe.getD (-1)

/-- `initServer`: the event loop, and the registration of the module pipe. `adjustOpenFilesLimit` does
nothing. -/
def initServer (pipe : Option Int) (heap : Int → Mask) (maxclients : Nat) : Server :=
  let el := aeCreateEventLoop heap (toInt (fdsetSize maxclients))
  match aeCreateFileEvent el (modulePipe pipe) aeReadable with
  -- serverPanic
  | none => ⟨el, maxclients, pipe.toList, [], false⟩
  | some el => ⟨el, maxclients, pipe.toList, [], true⟩

/-- `updateMaxclients`; `none` if the value is refused. -/
def updateMaxclients (s : Server) (heap : Int → Mask) : Option Server :=
  if s.el.setsize % 2 ^ 32 < fdsetSize s.maxclients then
    (aeResizeSetSize s.el heap (toInt (fdsetSize s.maxclients))).map fun el => { s with el := el }
  else some s

/-- `CONFIG SET maxclients`: a value out of range is refused; after a failure the old value is
applied again. -/
def configSetMaxclients (s : Server) (n : Nat) (heap : Int → Mask) : Server :=
  if n = 0 ∨ 2 ^ 32 ≤ n then s
  else
    match updateMaxclients { s with maxclients := n } heap with
    | some s => s
    | none => (updateMaxclients s heap).getD s

/-- `connClose`. -/
def connClose (s : Server) (fd : Int) : Server :=
  { s with
    el := aeDeleteFileEvent s.el fd (aeReadable.or aeWritable)
    fds := s.fds.filter (· ≠ fd)
    clients := s.clients.filter (· ≠ fd) }

/-- `connSetReadHandler`, `connSetWriteHandler` and the other places that install a handler. -/
def installHandler (s : Server) (fd : Int) (mask : Mask) : Server :=
  { s with el := (aeCreateFileEvent s.el fd mask).getD s.el }

/-- `acceptCommonHandler`, and `createClient`, which ignores the result of `connSetReadHandler`. -/
def acceptCommonHandler (s : Server) (fd : Int) (clusterConnections : Nat) : Server :=
  let s := { s with fds := fd :: s.fds }
  if s.maxclients ≤ s.clients.length + clusterConnections then connClose s fd
  else { installHandler s fd aeReadable with clients := fd :: s.clients }

inductive Event where
  /-- A client connects; its descriptor is `fd`. -/
  | accept (fd : Int) (clusterConnections : Nat)
  /-- Another descriptor: a listener, or a connection the server makes. -/
  | openFd (fd : Int)
  | install (fd : Int) (mask : Mask)
  | remove (fd : Int) (mask : Mask)
  | close (fd : Int)
  | configSet (maxclients : Nat) (heap : Int → Mask)
  | resize (setsize : Int) (heap : Int → Mask)

/-- A descriptor that the system can give: it is not negative, and not in use. -/
def Server.free (s : Server) (fd : Int) : Bool := decide (0 ≤ fd) && decide (fd ∉ s.fds)

/-- One event; events that cannot happen in the state are ignored. -/
def step (s : Server) (ev : Event) : Server :=
  if !s.running then s
  else
    match ev with
    | .accept fd links => if s.free fd then acceptCommonHandler s fd links else s
    | .openFd fd => if s.free fd then { s with fds := fd :: s.fds } else s
    | .install fd mask => if fd ∈ s.fds ∧ mask ≠ aeNone then installHandler s fd mask else s
    | .remove fd mask => if fd ∈ s.fds then { s with el := aeDeleteFileEvent s.el fd mask } else s
    | .close fd => if fd ∈ s.fds then connClose s fd else s
    | .configSet n heap => configSetMaxclients s n heap
    | .resize n heap => { s with el := (aeResizeSetSize s.el heap n).getD s.el }

end WasiPorts.Redis.Ae
