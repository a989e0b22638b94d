import FusePosix.Rest.Listing
import FusePosix.Lib.Transition

/-!
# Calls of the REST client

The listings and lookups as one family of calls, so that runs of them can be talked about. A call is
a query, the user it is made for and what the world answers while it runs.
-/

namespace FusePosix

/-! ### Calls -/

/-- What a call asks for. -/
inductive Query where
  | scopes (server : Str)
  | dids (server scope : Str)
  | containerDids (server scope name : Str)
  | isContainer (path : Str)
  | size (path : Str)
  deriving DecidableEq, Repr

/-- What a call returns. -/
inductive Answer where
  | scopes (scopes : List Str)
  | dids (dids : List RucioDid)
  | isContainer (value : Bool)
  | size (size : ℤ)
  deriving DecidableEq, Repr

/-- A call of the REST client. -/
structure RestCall where
  io : Io
  caller : Caller
  query : Query

/-- The answer to a call and the state behind it. -/
def RestCall.run (call : RestCall) (s : State) : Except Fault (Answer × State) :=
  match call.query with
  | .scopes server => do
    let (scopes, s) ← rucioListScopes call.io server call.caller s
    return (.scopes scopes, s)
  | .dids server scope => do
    let (dids, s) ← rucioListDids call.io scope server call.caller s
    return (.dids dids, s)
  | .containerDids server scope name => do
    let (dids, s) ← rucioListContainerDids call.io scope name server call.caller s
    return (.dids dids, s)
  | .isContainer path => do
    let (value, s) ← rucioIsContainer call.io path call.caller s
    return (.isContainer value, s)
  | .size path => do
    let (size, s) ← rucioGetSize call.io path call.caller s
    return (.size size, s)

/-- A call that returns is a call of the function of its query. -/
inductive RestCall.Runs (io : Io) (caller : Caller) (s : State) : Query → Answer → State → Prop
  | scopes {server : Str} {scopes : List Str} {t : State}
      (hcall : rucioListScopes io server caller s = .ok (scopes, t)) :
      Runs io caller s (.scopes server) (.scopes scopes) t
  | dids {server scope : Str} {dids : List RucioDid} {t : State}
      (hcall : rucioListDids io scope server caller s = .ok (dids, t)) :
      Runs io caller s (.dids server scope) (.dids dids) t
  | containerDids {server scope name : Str} {dids : List RucioDid} {t : State}
      (hcall : rucioListContainerDids io scope name server caller s = .ok (dids, t)) :
      Runs io caller s (.containerDids server scope name) (.dids dids) t
  | isContainer {path : Str} {value : Bool} {t : State}
      (hcall : rucioIsContainer io path caller s = .ok (value, t)) :
      Runs io caller s (.isContainer path) (.isContainer value) t
  | size {path : Str} {size : ℤ} {t : State}
      (hcall : rucioGetSize io path caller s = .ok (size, t)) :
      Runs io caller s (.size path) (.size size) t

theorem RestCall.runs_of_eq_ok {call : RestCall} {s t : State} {answer : Answer}
    (h : call.run s = .ok (answer, t)) :
    RestCall.Runs call.io call.caller s call.query answer t := by
  obtain ⟨io, caller, query⟩ := call
  cases query with
  | scopes server =>
    obtain ⟨⟨scopes, u⟩, hcall, hret⟩ := bind_eq_ok.1 h
    obtain ⟨rfl, rfl⟩ := Prod.mk.inj (Except.ok.inj hret)
    exact .scopes hcall
  | dids server scope =>
    obtain ⟨⟨dids, u⟩, hcall, hret⟩ := bind_eq_ok.1 h
    obtain ⟨rfl, rfl⟩ := Prod.mk.inj (Except.ok.inj hret)
    exact .dids hcall
  | containerDids server scope name =>
    obtain ⟨⟨dids, u⟩, hcall, hret⟩ := bind_eq_ok.1 h
    obtain ⟨rfl, rfl⟩ := Prod.mk.inj (Except.ok.inj hret)
    exact .containerDids hcall
  | isContainer path =>
    obtain ⟨⟨value, u⟩, hcall, hret⟩ := bind_eq_ok.1 h
    obtain ⟨rfl, rfl⟩ := Prod.mk.inj (Except.ok.inj hret)
    exact .isContainer hcall
  | size path =>
    obtain ⟨⟨size, u⟩, hcall, hret⟩ := bind_eq_ok.1 h
    obtain ⟨rfl, rfl⟩ := Prod.mk.inj (Except.ok.inj hret)
    exact .size hcall

/-- The state behind a call. -/
def State.step (s : State) (call : RestCall) : Option State :=
  (call.run s).toOption.map Prod.snd

/-- The state before the first call. -/
def State.start (servers : ServerMap) (serverNames : List Str) : State := { servers, serverNames }

end FusePosix
