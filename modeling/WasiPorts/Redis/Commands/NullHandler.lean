import WasiPorts.Lib.Run
import WasiPorts.Redis.Commands.Dispatch

/-!
# When dispatching meets a null handler

A container has a null handler, and the lookup returns the container itself when it has no
subcommand dictionary. The facts about the table are checked row by row; what they mean for every
argument vector, every request and every replayed record is derived from them.

FUNCTION and SCRIPT are the two containers whose subcommand arrays are empty in this build, so a
request for one of them with an argument passes the arity check and calls a null handler.
-/

namespace WasiPorts.Redis.Commands

open WasiPorts.Run WasiPorts.Text

/-! ## The table -/

theorem subcommand_proc_isSome :
    ∀ c ∈ redisCommandTable, ∀ e ∈ c.subcommands, e.proc.isSome := by
  decide +kernel

theorem container_arity : ∀ c ∈ redisCommandTable, c.proc = none → c.arity = -2 := by
  decide +kernel

/-- The containers without any subcommand, in either mode of the server. -/
theorem container_without_subcommands :
    ∀ sentinelMode : Bool, ∀ c ∈ redisCommandTable, c.proc = none → c.exists sentinelMode →
      c.subcommands.filter (·.exists sentinelMode) = [] →
      sentinelMode = false ∧ (c.declaredName = "function" ∨ c.declaredName = "script") := by
  decide +kernel

theorem function_mem : container "function" (-2) [] functionSubcommands ∈ redisCommandTable := by
  decide +kernel

theorem script_mem : container "script" (-2) [] scriptSubcommands ∈ redisCommandTable := by
  decide +kernel

/-- No other row has the name of one of the two, in whatever case. -/
theorem scripting_container_unique :
    ∀ c ∈ redisCommandTable,
      caseKey (bytes c.declaredName) = caseKey (bytes "function") ∨
        caseKey (bytes c.declaredName) = caseKey (bytes "script") →
      c.proc = none ∧ c.arity = -2 ∧ c.subcommands = [] := by
  decide +kernel

/-! ## Keys -/

section Keys

variable {hash : Bytes → Nat} {a b c : Bytes}

theorem sameKey_iff : sameKey hash a b = true ↔
    hash (a.map toLower) = hash (b.map toLower) ∧ caseKey a = caseKey b := by
  simp [sameKey, sameIgnoringCase]

theorem sameKey_symm (h : sameKey hash a b = true) : sameKey hash b a = true := by
  rw [sameKey_iff] at h ⊢
  exact ⟨h.1.symm, h.2.symm⟩

theorem sameKey_trans (h : sameKey hash a b = true) (h' : sameKey hash b c = true) :
    sameKey hash a c = true := by
  rw [sameKey_iff] at h h' ⊢
  exact ⟨h.1.trans h'.1, h.2.trans h'.2⟩

end Keys

/-! ## The lookup -/

variable {hash : Bytes → Nat} {sentinelMode : Bool} {argv : List Bytes} {e : Entry}

/-- The request names FUNCTION or SCRIPT on a server that is not a sentinel, and has an argument. -/
def ScriptingCall (hash : Bytes → Nat) (sentinelMode : Bool) (argv : List Bytes) : Prop :=
  sentinelMode = false ∧ 2 ≤ argv.length ∧
    ∃ name ∈ argv.head?,
      sameKey hash (bytes "function") name = true ∨ sameKey hash (bytes "script") name = true

theorem mem_commandDict {c : RedisCommand} (h : c ∈ commandDict sentinelMode) :
    ∃ row ∈ redisCommandTable, row.exists sentinelMode = true ∧ c.toEntry = row.toEntry ∧
      c.subcommandsDict =
        if row.subcommands.filter (·.exists sentinelMode) = [] then none
        else some (row.subcommands.filter (·.exists sentinelMode)) := by
  obtain ⟨row, hrow, hpop⟩ := List.mem_filterMap.mp h
  unfold populateCommandStructure at hpop
  split at hpop
  · next hex =>
      cases hpop
      exact ⟨row, hrow, hex, rfl, rfl⟩
  · cases hpop

/-- A null handler found by the lookup is that of a container without a dictionary, or that of
a container called without arguments. -/
theorem lookupCommand_null
    (h : lookupCommand hash (commandDict sentinelMode) argv = some e) (hnull : e.proc = none) :
    e.arity = -2 ∧ (argv.length = 1 ∨ ScriptingCall hash sentinelMode argv) := by
  cases argv with
  | nil => cases h
  | cons name tail =>
      simp only [lookupCommand] at h
      split at h
      · cases h
      next base hfind =>
      obtain ⟨row, hrow, hex, hentry, hdict⟩ := mem_commandDict (List.mem_of_find?_eq_some hfind)
      have hkey := List.find?_some hfind
      -- what follows when the container itself is returned
      have hbase : base.proc = none → row.proc = none ∧ base.arity = -2 := by
        intro hb
        have hproc : row.proc = none := (congrArg Entry.proc hentry).symm.trans hb
        exact ⟨hproc, (congrArg Entry.arity hentry).trans (container_arity row hrow hproc)⟩
      cases tail with
      | nil =>
          obtain rfl := Option.some.inj h
          exact ⟨(hbase hnull).2, Or.inl rfl⟩
      | cons sub rest =>
          split at hdict
          · next hnone =>
              rw [hdict] at h
              obtain rfl := Option.some.inj h
              obtain ⟨hproc, harity⟩ := hbase hnull
              obtain ⟨hmode, hname⟩ :=
                container_without_subcommands sentinelMode row hrow hproc hex hnone
              refine ⟨harity, Or.inr ⟨hmode, by simp, name, rfl, ?_⟩⟩
              rw [congrArg Entry.declaredName hentry] at hkey
              rcases hname with hn | hn
              · rw [hn] at hkey
                exact Or.inl hkey
              · rw [hn] at hkey
                exact Or.inr hkey
          · -- a subcommand: none of them has a null handler
            rw [hdict] at h
            have hmem := List.mem_filter.mp (List.mem_of_find?_eq_some h)
            have hsome := subcommand_proc_isSome row hrow e hmem.1
            rw [hnull] at hsome
            cases hsome

/-- A scripting call is found and has a null handler. -/
theorem lookupCommand_scripting (h : ScriptingCall hash sentinelMode argv) :
    ∃ e, lookupCommand hash (commandDict sentinelMode) argv = some e ∧ e.proc = none ∧
      e.arity = -2 := by
  obtain ⟨rfl, hlen, name, hname, hkey⟩ := h
  cases argv with
  | nil => cases hname
  | cons name' args =>
      obtain rfl : name' = name := Option.some.inj hname
      have hfound : ∃ base, (commandDict false).find?
          (fun c => sameKey hash (bytes c.declaredName) name') = some base := by
        rw [← Option.isSome_iff_exists, List.find?_isSome]
        rcases hkey with hkey | hkey
        · exact ⟨_, List.mem_filterMap.mpr ⟨_, function_mem, rfl⟩, hkey⟩
        · exact ⟨_, List.mem_filterMap.mpr ⟨_, script_mem, rfl⟩, hkey⟩
      obtain ⟨base, hbase⟩ := hfound
      obtain ⟨row, hrow, -, hentry, hdict⟩ := mem_commandDict (List.mem_of_find?_eq_some hbase)
      have hbk := List.find?_some hbase
      have hname : base.declaredName = row.declaredName := congrArg Entry.declaredName hentry
      rw [hname] at hbk
      have hrowkey : caseKey (bytes row.declaredName) = caseKey (bytes "function") ∨
          caseKey (bytes row.declaredName) = caseKey (bytes "script") := by
        rcases hkey with hkey | hkey
        · exact Or.inl (sameKey_iff.mp (sameKey_trans hbk (sameKey_symm hkey))).2
        · exact Or.inr (sameKey_iff.mp (sameKey_trans hbk (sameKey_symm hkey))).2
      obtain ⟨hproc, harity, hsubs⟩ := scripting_container_unique row hrow hrowkey
      have hnone : base.subcommandsDict = none := by
        rw [hdict, hsubs]
        rfl
      refine ⟨base.toEntry, ?_, by rw [hentry, hproc], by rw [hentry, harity]⟩
      simp only [lookupCommand, hbase, hnone]

theorem commandCheckArity_container {argc : Nat} (h : e.arity = -2) :
    commandCheckArity e argc = true ↔ 2 ≤ argc := by
  simp only [commandCheckArity, h]
  grind

/-! ## Runs

`D` is what is asked of every call. It has to hold of what the client keeps for later as well. -/

section Runs

variable {D : Call → Prop} {c : Client} {q : QueuedCommand}

/-- The commands a client has kept may be called. -/
structure ClientSafe (D : Call → Prop) (c : Client) : Prop where
  queue : ∀ q ∈ c.queue, D q.toCall
  postponed : ∀ q ∈ c.postponed, D q.toCall

/-- The calls made and the client they leave behind are safe. -/
structure ResultSafe (D : Call → Prop) (r : List Call × Client) : Prop where
  calls : ∀ k ∈ r.1, D k
  client : ClientSafe D r.2

theorem resultSafe_nil (hc : ClientSafe D c) : ResultSafe D ([], c) := ⟨by simp, hc⟩

theorem discardTransaction_safe (hc : ClientSafe D c) : ClientSafe D (discardTransaction c) :=
  ⟨by simp [discardTransaction], hc.postponed⟩

theorem rejectCommand_safe (hc : ClientSafe D c) (cmd : Option Entry) :
    ClientSafe D (rejectCommand c cmd) := by
  have hflag : ClientSafe D (flagTransaction c) := by
    unfold flagTransaction
    split
    · exact ⟨hc.queue, hc.postponed⟩
    · exact hc
  unfold rejectCommand
  simp only
  split
  · exact discardTransaction_safe hflag
  · exact hflag

theorem queueMultiCommand_safe (hc : ClientSafe D c) (hq : D q.toCall) :
    ClientSafe D (queueMultiCommand c q) := by
  unfold queueMultiCommand
  split
  · exact hc
  · refine ⟨?_, hc.postponed⟩
    intro q' hq'
    rcases List.mem_append.mp hq' with h | h
    · exact hc.queue q' h
    · rw [List.mem_singleton.mp h]
      exact hq

theorem execCommand_safe (permitted : QueuedCommand → Bool) (hc : ClientSafe D c) :
    ResultSafe D (execCommand permitted c) := by
  unfold execCommand
  split
  · exact resultSafe_nil hc
  split
  · exact resultSafe_nil (discardTransaction_safe hc)
  · refine ⟨?_, discardTransaction_safe hc⟩
    intro k hk
    obtain ⟨q, hq, rfl⟩ := List.mem_map.mp hk
    exact hc.queue q (List.mem_filter.mp hq).1

theorem call_safe (permitted : QueuedCommand → Bool) (hc : ClientSafe D c) (hq : D q.toCall) :
    ResultSafe D (call permitted c q) := by
  have hone : ∀ k ∈ [q.toCall], D k := by
    intro k hk
    rw [List.mem_singleton.mp hk]
    exact hq
  unfold call
  split
  · obtain ⟨hcalls, hclient⟩ := execCommand_safe permitted hc
    refine ⟨?_, hclient⟩
    intro k hk
    rcases List.mem_cons.mp hk with rfl | hk
    · exact hq
    · exact hcalls k hk
  · exact ⟨hone, ⟨hc.queue, hc.postponed⟩⟩
  · refine ⟨hone, ?_⟩
    simp only
    split
    · exact discardTransaction_safe hc
    · exact hc
  · refine ⟨hone, ?_⟩
    simp only
    split
    · exact discardTransaction_safe hc
    · exact hc
  · exact ⟨hone, hc⟩

theorem execute_safe (k : Checks) (hc : ClientSafe D c) (hq : D q.toCall) :
    ResultSafe D (execute k c q) := by
  have hc' : ClientSafe D { c with postponed := none } := ⟨hc.queue, by simp⟩
  have hput : ∀ c : Client, ClientSafe D c → ClientSafe D { c with postponed := some q } := by
    intro c hc
    refine ⟨hc.queue, ?_⟩
    intro q' hq'
    rw [← Option.some.inj hq']
    exact hq
  unfold execute
  simp only
  split
  · exact resultSafe_nil (rejectCommand_safe hc' _)
  · exact resultSafe_nil hc'
  · exact resultSafe_nil (hput { c with postponed := none } hc')
  · split
    · exact resultSafe_nil (queueMultiCommand_safe hc' hq)
    · obtain ⟨hcalls, hclient⟩ := call_safe k.permitted hc' hq
      refine ⟨hcalls, ?_⟩
      simp only
      split
      · exact hput _ hclient
      · exact hclient

theorem processCommand_safe {commands : List RedisCommand} (k : Checks) (hc : ClientSafe D c)
    (hlookup : ∀ e, lookupCommand hash commands argv = some e →
      commandCheckArity e argv.length = true → D ⟨e.proc, argv⟩) :
    ResultSafe D (processCommand hash commands k c argv) := by
  unfold processCommand
  split
  · exact resultSafe_nil hc
  split
  · exact resultSafe_nil hc
  split
  · exact resultSafe_nil (rejectCommand_safe hc _)
  · next e he =>
      split
      · exact resultSafe_nil (rejectCommand_safe hc _)
      next harity =>
      split
      · exact resultSafe_nil (rejectCommand_safe hc _)
      · exact execute_safe k hc (hlookup e he (by simpa using harity))

/-- A session all of whose calls, made or still to come, are as `D` asks. -/
structure SessionSafe (D : Call → Prop) (x : Session) : Prop where
  calls : ∀ k ∈ x.calls, D k
  client : ClientSafe D x.client

theorem SessionSafe.add {x : Session} (hx : SessionSafe D x) {r : List Call × Client}
    (hr : ResultSafe D r) : SessionSafe D (x.add r) := by
  refine ⟨?_, hr.client⟩
  intro k hk
  rcases List.mem_append.mp hk with h | h
  · exact hx.calls k h
  · exact hr.calls k h

theorem start_safe {c : Client} (hc : ClientSafe D c) : SessionSafe D (Session.start c) :=
  ⟨by simp [Session.start], hc⟩

theorem fresh_safe : ClientSafe D Client.fresh := ⟨by simp [Client.fresh], by simp [Client.fresh]⟩

end Runs

/-! ## The exact condition -/

/-- The call goes through a handler. -/
def Defined (k : Call) : Prop := k.proc ≠ none

/-- The call goes through a handler if its record has an argument. -/
def DefinedWithArgument (k : Call) : Prop := 2 ≤ k.argv.length → k.proc ≠ none

/-- A command that is found and passes the arity check has a handler. -/
def HandlerDefined (hash : Bytes → Nat) (sentinelMode : Bool) (argv : List Bytes) : Prop :=
  ∀ e, lookupCommand hash (commandDict sentinelMode) argv = some e →
    commandCheckArity e argv.length = true → e.proc ≠ none

theorem handlerDefined_iff (hash : Bytes → Nat) (sentinelMode : Bool) (argv : List Bytes) :
    HandlerDefined hash sentinelMode argv ↔ ¬ ScriptingCall hash sentinelMode argv := by
  constructor
  · intro h hscript
    obtain ⟨e, hlookup, hnull, harity⟩ := lookupCommand_scripting hscript
    exact h e hlookup ((commandCheckArity_container harity).mpr hscript.2.1) hnull
  · intro h e hlookup hcheck hnull
    obtain ⟨harity, hlen | hscript⟩ := lookupCommand_null hlookup hnull
    · have := (commandCheckArity_container harity).mp hcheck
      omega
    · exact h hscript

/-- A replayed record with an argument is found without the arity check. -/
theorem replay_defined (h : ¬ ScriptingCall hash sentinelMode argv)
    (hlookup : lookupCommand hash (commandDict sentinelMode) argv = some e) :
    DefinedWithArgument ⟨e.proc, argv⟩ := by
  intro hlen hnull
  obtain ⟨-, hone | hscript⟩ := lookupCommand_null hlookup hnull
  · simp only at hlen
    omega
  · exact h hscript

/-- A request that is a scripting call. -/
def Event.Scripting (hash : Bytes → Nat) (sentinelMode : Bool) : Event → Prop
  | .request argv _ => ScriptingCall hash sentinelMode argv
  | .reprocess _ | .touchWatched => False

theorem session_step_safe (x : Session) (ev : Event) (hx : SessionSafe Defined x)
    (hev : ¬ ev.Scripting hash sentinelMode) :
    SessionSafe Defined (x.step hash (commandDict sentinelMode) ev) := by
  cases ev with
  | request argv k =>
      exact hx.add (processCommand_safe k hx.client ((handlerDefined_iff _ _ _).mpr hev))
  | reprocess k =>
      simp only [Session.step]
      split
      · exact hx
      · next q hq =>
          split
          · exact hx
          · exact hx.add (execute_safe k hx.client (hx.client.postponed q hq))
  | touchWatched => exact ⟨hx.calls, ⟨hx.client.queue, hx.client.postponed⟩⟩

theorem replayRecord_safe (permitted : QueuedCommand → Bool) (x : Session × Bool) (argv : List Bytes)
    (hx : SessionSafe DefinedWithArgument x.1) (hargv : ¬ ScriptingCall hash sentinelMode argv) :
    SessionSafe DefinedWithArgument
      (replayRecord hash (commandDict sentinelMode) permitted x argv).1 := by
  unfold replayRecord
  split
  · split
    · exact hx
    · next e he =>
        have hdef := replay_defined hargv he
        split
        · exact ⟨hx.calls, queueMultiCommand_safe (q := ⟨e, argv⟩) hx.client hdef⟩
        · exact hx.add (call_safe (q := ⟨e, argv⟩) _ hx.client hdef)
  · exact hx

/-- **Dispatching and null handlers.** An argument vector that is found and passes the arity check
has a handler exactly if it is not a scripting call (FUNCTION or SCRIPT with an argument, outside
sentinel mode). In every run of requests without one, every call that `processCommand` and EXEC
make goes through a handler; in every replay without one, so does every call for a record with an
argument. -/
theorem dispatch_defined (hash : Bytes → Nat) (sentinelMode : Bool) :
    (∀ argv, HandlerDefined hash sentinelMode argv ↔ ¬ ScriptingCall hash sentinelMode argv) ∧
    (∀ events : List Event,
      Meets (Session.step hash (commandDict sentinelMode))
        (fun _ ev => ¬ ev.Scripting hash sentinelMode) (.start .fresh) events →
      Always (Session.step hash (commandDict sentinelMode))
        (fun x => ∀ k ∈ x.calls, Defined k) (.start .fresh) events) ∧
    (∀ (permitted : QueuedCommand → Bool) (records : List (List Bytes)),
      Meets (replayRecord hash (commandDict sentinelMode) permitted)
        (fun _ argv => ¬ ScriptingCall hash sentinelMode argv) (.start .fresh, true) records →
      Always (replayRecord hash (commandDict sentinelMode) permitted)
        (fun x => ∀ k ∈ x.1.calls, DefinedWithArgument k) (.start .fresh, true) records) := by
  refine ⟨handlerDefined_iff hash sentinelMode, ?_, ?_⟩
  · intro events hmeets
    exact (Always.of_inductive session_step_safe (start_safe fresh_safe) hmeets).mono
      fun _ hx => hx.calls
  · intro permitted records hmeets
    have hsafe : Always (replayRecord hash (commandDict sentinelMode) permitted)
        (fun x => SessionSafe DefinedWithArgument x.1) (.start .fresh, true) records :=
      Always.of_inductive (replayRecord_safe permitted) (start_safe fresh_safe) hmeets
    exact hsafe.mono fun _ hx => hx.calls

/-- A transaction of `GET k` on a server whose dictionary buckets names by length. -/
theorem dispatch_defined_multi_get :
    ∃ events : List Event, events.length = 3 ∧
      Always (Session.step List.length (commandDict false))
        (fun x => ∀ k ∈ x.calls, Defined k) (.start .fresh) events := by
  have hmeets : Meets (Session.step List.length (commandDict false))
      (fun _ ev => ¬ ev.Scripting List.length false) (.start .fresh)
      [.request [bytes "MULTI"] .clear, .request [bytes "GET", bytes "k"] .clear,
        .request [bytes "EXEC"] .clear] := by
    refine ⟨?_, ?_, ?_, trivial⟩
    all_goals
      rintro ⟨-, -, name, hname, hkey⟩
      cases hname
      revert hkey
      decide +kernel
  exact ⟨_, rfl, (dispatch_defined List.length false).2.1 _ hmeets⟩

/-- `FUNCTION LIST` passes the arity check and is called through a null handler. -/
theorem function_list_null :
    ¬ HandlerDefined List.length false [bytes "FUNCTION", bytes "LIST"] ∧
      (processCommand List.length (commandDict false) .clear .fresh
        [bytes "FUNCTION", bytes "LIST"]).1.map (·.proc) = [none] := by
  constructor
  · intro h
    refine h ⟨"function", none, -2, []⟩ ?_ ?_ rfl
    · decide +kernel
    · decide +kernel
  · decide +kernel

end WasiPorts.Redis.Commands
