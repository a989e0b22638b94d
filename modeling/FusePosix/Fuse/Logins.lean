import FusePosix.Fuse.Gate
import FusePosix.Lib.Transition
import FusePosix.Rest.Isolation

/-!
# Logins in flight

A callback for a user without a valid token starts a login thread if the server is in the mode
`oidc`, and is refused. The token arrives when the thread ends, which may be minutes later: a human
has to act in between. Meanwhile more callbacks come, and nothing tells them that somebody is about
to log in. The list of logins is written by the threads and looked at by nobody.

What this should come to is that no two logins are in flight for one user of one server, in every
state of every run of calls and thread ends (`State.SingleLogins`). `logins_iff` is the exact
condition on the steps of a run: no call comes while a login of the same user on the same server is
pending, but for calls that find no valid token and for which the system has no thread left. So two
calls in a row are enough to start two logins (`not_logins_two`).
-/

namespace FusePosix

open Transition

/-! ### The system -/

/-- Whom a login is for. -/
def Login.key (login : Login) : Str × ℕ := (login.server, login.caller.uid)

/-- A step: a callback authenticates its user, or login thread `k` ends, with or without a token. -/
inductive LoginAction where
  | authenticate (io : Io) (path : Str) (caller : Caller)
  | ends (io : Io) (k : ℕ)

/-- The state after a step; an exception ends the program. -/
def State.loginStep (s : State) : LoginAction → Option State
  | .authenticate io path caller => (authenticateUser io path caller s).toOption.map Prod.snd
  | .ends io k => (oidcLoginEnds io k s).toOption

/-- A user of a server is logging in. -/
def State.Pending (s : State) (server : Str) (uid : ℕ) : Prop :=
  (server, uid) ∈ s.logins.map Login.key

/-- At most one login is in flight for every user and server. -/
def State.SingleLogins (s : State) : Prop := (s.logins.map Login.key).Nodup

/-- A call is refused, and it starts no login. -/
def CallRefused (io : Io) (path : Str) (caller : Caller) (s : State) : Prop :=
  ∃ result t, authenticateUser io path caller s = .ok (result, t) ∧ result ≠ .tokenOk ∧
    t.logins = s.logins

/-- A call that comes while its user is logging in is refused and starts no login. -/
def RefusesPending (s : State) : LoginAction → Prop
  | .authenticate io path caller =>
    s.Pending (extractServerName path) caller.uid → CallRefused io path caller s
  | .ends _ _ => True

/-- The condition: a call that comes while its user is logging in finds no valid token, and no
thread can be started for it. -/
def NoneWaiting (s : State) : LoginAction → Prop
  | .authenticate io path caller => s.Pending (extractServerName path) caller.uid →
    (s.tokenOf (extractServerName path) caller.uid).validAt io.now = false ∧
      io.threadStarts = false
  | .ends _ _ => True

/-- The logins in flight are at loaded servers that are in the mode `oidc`. -/
def State.OidcLogins (s : State) : Prop :=
  ∀ login ∈ s.logins, ∃ params, getServerParams s.servers login.server = some params ∧
    params.rucioAuthMode = .oidc

/-! ### What a step does to the logins -/

section Steps

variable {io : Io} {server path : Str} {srv : RucioServer} {caller : Caller} {s t : State}

theorem logins_receiveToken (io : Io) (server : Str) (uid : ℕ) (ret : CurlRet) (s : State) :
    (receiveToken io server uid ret s).2.logins = s.logins := by
  rw [receiveToken]
  split_ifs
  · rfl
  · split
    · rfl
    · split
      · rfl
      · rfl

/-- Only the mode `oidc` starts logins. -/
theorem logins_requestToken {mode : AuthMode} {result : AuthResult} (hmode : mode ≠ .oidc)
    (h : requestToken io mode server caller s = .ok (result, t)) : t.logins = s.logins := by
  rcases mode with - | - | - | -
  · simp only [requestToken, rucioGetAuthTokenUserpass] at h
    split at h
    · obtain ⟨-, rfl⟩ := Prod.mk.inj (Except.ok.inj h)
      rfl
    · obtain rfl : _ = t := congrArg Prod.snd (Except.ok.inj h)
      exact logins_receiveToken io server _ _ _
  · simp only [requestToken, rucioGetAuthTokenX509] at h
    split at h
    · obtain ⟨-, rfl⟩ := Prod.mk.inj (Except.ok.inj h)
      rfl
    · obtain ⟨bundle, -, h⟩ := bind_eq_ok.1 h
      obtain rfl : _ = t := congrArg Prod.snd (Except.ok.inj h)
      exact logins_receiveToken io server _ _ _
  · exact absurd rfl hmode
  · obtain ⟨-, rfl⟩ := Prod.mk.inj (Except.ok.inj h)
    rfl

/-- What a call on a server in the mode `oidc` does. -/
theorem authenticateUser_oidc (hfind : s.servers.find (extractServerName path) = some srv)
    (hmode : srv.rucioConnParams.rucioAuthMode = .oidc) :
    ∃ t, authenticateUser io path caller s =
        .ok (if (srv.token caller.uid).validAt io.now then .tokenOk else .tokenError, t) ∧
      t.logins = s.logins ++
        if (srv.token caller.uid).validAt io.now = false ∧ io.threadStarts = true then
          [⟨extractServerName path, caller⟩] else [] := by
  rw [authenticateUser_of_find hfind, hmode]
  rcases hvalid : (srv.token caller.uid).validAt io.now with - | -
  · refine ⟨_, rucioGetAuthTokenOidc_async (find_lookedUp hfind), ?_⟩
    rcases hstarts : io.threadStarts with - | -
    · show (if io.threadStarts then _ else _ : State).logins = _
      rw [hstarts]
      exact (List.append_nil _).symm
    · show (if io.threadStarts then _ else _ : State).logins = _
      rw [hstarts]
      rfl
  · exact ⟨_, rfl, (List.append_nil _).symm⟩

/-- **A call starts a login for its own user or none.** -/
theorem logins_authenticateUser {result : AuthResult}
    (h : authenticateUser io path caller s = .ok (result, t)) :
    t.logins = s.logins ∨ t.logins = s.logins ++ [⟨extractServerName path, caller⟩] ∧
      ∃ params, getServerParams s.servers (extractServerName path) = some params ∧
        params.rucioAuthMode = .oidc := by
  rcases hfind : s.servers.find (extractServerName path) with - | srv
  · have htoken : getServerToken s.servers (extractServerName path) caller.uid =
        (none, s.servers) := by
      rw [getServerToken, hfind]
    rw [authenticateUser, rucioIsTokenValid, htoken] at h
    simp only [getServerParams_eq_none hfind, Bool.false_eq_true, if_false] at h
    obtain ⟨-, rfl⟩ := Prod.mk.inj (Except.ok.inj h)
    exact Or.inl rfl
  · by_cases hmode : srv.rucioConnParams.rucioAuthMode = .oidc
    · obtain ⟨u, hrun, hlogins⟩ := @authenticateUser_oidc io path srv caller s hfind hmode
      rw [hrun] at h
      obtain ⟨-, rfl⟩ := Prod.mk.inj (Except.ok.inj h)
      rw [hlogins]
      split_ifs
      · exact Or.inr ⟨rfl, _, getServerParams_of_find hfind, hmode⟩
      · exact Or.inl (List.append_nil _)
    · rw [authenticateUser_of_find hfind] at h
      split_ifs at h
      · obtain ⟨-, rfl⟩ := Prod.mk.inj (Except.ok.inj h)
        exact Or.inl rfl
      · have hlogins := logins_requestToken hmode h
        exact Or.inl hlogins

/-- A thread that ends is in flight no more. -/
theorem logins_oidcLoginEnds {k : ℕ} (h : oidcLoginEnds io k s = .ok t) :
    t.logins = s.logins.eraseIdx k := by
  obtain ⟨login, -, h⟩ := bind_eq_ok.1 h
  simp only at h
  split_ifs at h
  · obtain rfl := Except.ok.inj h
    rfl
  · obtain ⟨info, rfl⟩ := exists_of_storeOidcToken h
    rfl

/-- A refused call is a refused callback. -/
theorem callback_refused {m : Mount} {result : AuthResult} (hroot : isRootPath path = false)
    (h : authenticateUser io path caller m.rest = .ok (result, t)) (hresult : result ≠ .tokenOk) :
    (∀ size offset, rucioRead io path caller size offset m =
        .ok ((-eACCES, []), { m with rest := t })) ∧
      rucioReaddir io path caller m = .ok ((-eACCES, []), { m with rest := t }) ∧
      (isHidden path = .ok false → isMacSpecific path = .ok false → ∀ st,
        rucioGetattr io path caller st m = .ok ((-eACCES, st), { m with rest := t })) := by
  have hgate : authGate io path caller m.rest = .ok (false, t) := by
    rw [authGate, hroot, if_neg Bool.false_ne_true, h, ok_bind]
    simp only [beq_false_of_ne hresult, pure_eq_ok]
  refine ⟨fun size offset ↦ ?_, ?_, fun hhidden hmac st ↦ ?_⟩
  · rw [rucioRead, onRest, readChecks, hgate]
    rfl
  · rw [rucioReaddir, onRest, hgate]
    rfl
  · rw [rucioGetattr, hhidden, ok_bind, if_neg Bool.false_ne_true, hmac, ok_bind,
      if_neg Bool.false_ne_true, onRest, hgate]
    rfl

end Steps

/-! ### Runs -/

section Runs

variable {s t : State} {a : LoginAction}

/-- Logins stay where they are allowed. -/
theorem oidcLogins_step (hs : s.OidcLogins) (hstep : s.loginStep a = some t) : t.OidcLogins := by
  cases a with
  | authenticate io path caller =>
    obtain ⟨⟨result, u⟩, hrun, rfl⟩ := map_toOption_eq_some hstep
    intro login hlogin
    rw [(quiet_authenticateUser hrun).settings.getServerParams]
    rcases logins_authenticateUser hrun with hlogins | ⟨hlogins, hown⟩
    · exact hs login (hlogins ▸ hlogin)
    · rw [hlogins, List.mem_append, List.mem_singleton] at hlogin
      rcases hlogin with hlogin | rfl
      · exact hs login hlogin
      · exact hown
  | ends io k =>
    have hrun : oidcLoginEnds io k s = .ok t := toOption_eq_some hstep
    intro login hlogin
    rw [logins_oidcLoginEnds hrun] at hlogin
    rw [(quiet_oidcLoginEnds hrun).settings.getServerParams]
    exact hs login (List.mem_of_mem_eraseIdx hlogin)

/-- One more login for a pair is the first one, or one too many. -/
theorem nodup_append_login {logins : List Login} (h : (logins.map Login.key).Nodup)
    (login : Login) :
    ((logins ++ [login]).map Login.key).Nodup ↔ login.key ∉ logins.map Login.key := by
  rw [List.map_append, List.nodup_append]
  refine ⟨fun hboth hmem ↦ hboth.2.2 _ hmem _ (List.mem_singleton_self _) rfl, fun hnew ↦ ?_⟩
  refine ⟨h, List.pairwise_singleton _ _, fun key hkey other hother heq ↦ hnew ?_⟩
  rwa [← List.mem_singleton.1 hother, ← heq]

/-- **A call of a user who is logging in** is refused without another login exactly if it finds no
valid token, and no thread can be started. -/
theorem singleLogins_pending {io : Io} {path : Str} {caller : Caller} {result : AuthResult}
    (hs : s.OidcLogins) (hsingle : s.SingleLogins)
    (hpending : s.Pending (extractServerName path) caller.uid)
    (hrun : authenticateUser io path caller s = .ok (result, t)) :
    t.SingleLogins ∧ RefusesPending s (.authenticate io path caller) ↔
      NoneWaiting s (.authenticate io path caller) := by
  -- the server is in the mode `oidc`, since a login is pending there
  obtain ⟨login, hlogin, hkey⟩ := List.mem_map.1 hpending
  obtain ⟨hserver, -⟩ := Prod.mk.inj hkey
  obtain ⟨params, hparams, hmode⟩ := hs login hlogin
  rw [hserver] at hparams
  obtain ⟨srv, hfind, rfl⟩ := Option.map_eq_some_iff.1 hparams
  obtain ⟨v, hv, hlogins⟩ := @authenticateUser_oidc io path srv caller s hfind hmode
  rw [hv] at hrun
  obtain ⟨-, rfl⟩ := Prod.mk.inj (Except.ok.inj hrun)
  have hgoal : NoneWaiting s (.authenticate io path caller) ↔
      (srv.token caller.uid).validAt io.now = false ∧ io.threadStarts = false := by
    rw [NoneWaiting, tokenOf_of_find hfind]
    exact ⟨fun h ↦ h hpending, fun h _ ↦ h⟩
  rw [hgoal, State.SingleLogins, hlogins]
  rcases hvalid : (srv.token caller.uid).validAt io.now with - | -
  · rcases hstarts : io.threadStarts with - | -
    · refine iff_of_true ⟨by simpa [State.SingleLogins] using hsingle, fun _ ↦ ?_⟩ ⟨rfl, rfl⟩
      refine ⟨_, v, hv, ?_, ?_⟩
      · rw [hvalid]
        exact AuthResult.noConfusion
      · rw [hlogins, hstarts]
        simp
    · refine iff_of_false (fun h ↦ ?_) (fun h ↦ Bool.noConfusion h.2)
      have hnew := h.1
      rw [if_pos ⟨rfl, rfl⟩, nodup_append_login hsingle] at hnew
      exact hnew hpending
  · refine iff_of_false (fun h ↦ ?_) (fun h ↦ Bool.noConfusion h.1)
    obtain ⟨result', w, hw, hresult, -⟩ := h.2 hpending
    rw [hv, hvalid] at hw
    exact hresult (Prod.mk.inj (Except.ok.inj hw)).1.symm

/-- **What one step does to single logins**: it keeps them, and refuses calls of users that are
logging in, exactly if it meets the condition. -/
theorem singleLogins_step (hs : s.OidcLogins) (hsingle : s.SingleLogins)
    (hstep : s.loginStep a = some t) : t.SingleLogins ∧ RefusesPending s a ↔ NoneWaiting s a := by
  cases a with
  | ends io k =>
    have hrun : oidcLoginEnds io k s = .ok t := toOption_eq_some hstep
    refine iff_of_true ⟨?_, trivial⟩ trivial
    rw [State.SingleLogins, logins_oidcLoginEnds hrun, ← List.eraseIdx_map]
    exact List.Nodup.eraseIdx k hsingle
  | authenticate io path caller =>
    obtain ⟨⟨result, u⟩, hrun, rfl⟩ := map_toOption_eq_some hstep
    by_cases hpending : s.Pending (extractServerName path) caller.uid
    · exact singleLogins_pending hs hsingle hpending hrun
    · refine iff_of_true ⟨?_, fun h ↦ absurd h hpending⟩ fun h ↦ absurd h hpending
      rcases logins_authenticateUser hrun with hlogins | ⟨hlogins, -⟩
      · rw [State.SingleLogins, hlogins]
        exact hsingle
      · rw [State.SingleLogins, hlogins, nodup_append_login hsingle]
        exact hpending

/-- **When users log in once.** For every run of calls of any users and ends of login threads, in
any order, from a state without logins: at most one login is in flight for every user and server in
all states of the run, and every call that comes meanwhile is refused without starting another one,
exactly if all steps meet the condition. -/
theorem logins_iff (hnone : s.logins = []) (actions : List LoginAction) :
    Along State.loginStep State.SingleLogins s actions ∧
        StepsMeet State.loginStep RefusesPending s actions ↔
      StepsMeet State.loginStep NoneWaiting s actions := by
  refine @along_and_stepsMeet_iff _ _ State.loginStep State.OidcLogins State.SingleLogins
    RefusesPending NoneWaiting (fun s a t hs hsingle hstep ↦ ?_) actions s ?_ ?_
  · exact ⟨oidcLogins_step hs hstep, singleLogins_step hs hsingle hstep⟩
  · rw [State.OidcLogins, hnone]
    exact fun login hlogin ↦ absurd hlogin List.not_mem_nil
  · rw [State.SingleLogins, hnone]
    exact List.nodup_nil

end Runs

/-- The server `s` in the mode `oidc`, before anybody has logged in. -/
def sampleOidc : State :=
  { servers := Table.empty.insert ['s'] { sampleServer with
      rucioConnParams := ⟨['h'], [], [], [], .oidc, []⟩ }
    serverNames := [['s']] }

/-- A look at the server `s`. -/
def sampleLook : LoginAction := .authenticate sampleIo ['/', 's'] sampleCaller

/-- A call, the end of the login it starts, and another call. -/
theorem logins_one_after_the_other :
    Along State.loginStep State.SingleLogins sampleOidc
      [sampleLook, .ends sampleIo 0, sampleLook] ∧
    StepsMeet State.loginStep RefusesPending sampleOidc
      [sampleLook, .ends sampleIo 0, sampleLook] := by
  refine (@logins_iff sampleOidc rfl _).2 fun t ht ↦ ⟨?_, fun u hu ↦ ⟨trivial, fun v _ ↦ ?_⟩⟩
  · exact fun h ↦ absurd h List.not_mem_nil
  · have hlook : (authenticateUser sampleIo ['/', 's'] sampleCaller sampleOidc).toOption.map
        Prod.snd = some t := ht
    obtain ⟨⟨result, t'⟩, hrun, rfl⟩ := map_toOption_eq_some hlook
    have hended : u.logins = [] := by
      rw [logins_oidcLoginEnds (toOption_eq_some hu)]
      rcases logins_authenticateUser hrun with hlogins | ⟨hlogins, -⟩
      · rw [hlogins]
        rfl
      · rw [hlogins]
        rfl
    refine ⟨fun h ↦ ?_, trivial⟩
    rw [State.Pending, hended] at h
    exact absurd h List.not_mem_nil

/-- **Two calls in a row start two logins.** -/
theorem not_logins_two :
    ¬ (∀ (s : State) (actions : List LoginAction), s.logins = [] →
      (∀ name params, getServerParams s.servers name = some params →
        params.rucioAuthMode = .oidc) →
      Along State.loginStep State.SingleLogins s actions ∧
        StepsMeet State.loginStep RefusesPending s actions) ∧
    (exec State.loginStep sampleOidc [sampleLook, sampleLook]).map (·.logins.map Login.key) =
      some [(['s'], 7), (['s'], 7)] := by
  have hrun : (exec State.loginStep sampleOidc [sampleLook, sampleLook]).map
      (·.logins.map Login.key) = some [(['s'], 7), (['s'], 7)] := by
    decide +kernel
  refine ⟨fun hall ↦ ?_, hrun⟩
  have hmodes : ∀ name params, getServerParams sampleOidc.servers name = some params →
      params.rucioAuthMode = .oidc := by
    intro name params hparams
    by_cases hname : name = ['s']
    · subst hname
      exact Option.some.inj hparams ▸ rfl
    · have hnone : sampleOidc.servers.find name = none := by
        rw [sampleOidc, Table.find_insert, if_neg hname]
        rfl
      rw [getServerParams_eq_none hnone] at hparams
      cases hparams
  obtain ⟨t, ht, hkeys⟩ := Option.map_eq_some_iff.1 hrun
  have hsingle : t.SingleLogins := along_end (hall sampleOidc _ rfl hmodes).1 ht
  rw [State.SingleLogins, hkeys] at hsingle
  exact absurd hsingle (by decide)

end FusePosix
