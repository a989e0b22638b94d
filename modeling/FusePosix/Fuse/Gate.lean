import FusePosix.Fuse.Callbacks

/-!
# When the authentication gate is sound

The callbacks go on as soon as `authenticateUser` answers `tokenOk`. That answer means a valid token
if it comes from a token that was valid before, and it never comes from the modes without a request
of their own (`oidc` starts a login and refuses, an unknown mode refuses). In the two request modes
the answer says only that there was a response nobody objected to. What is stored for it is computed
apart from the answer: `rucioInvalidToken` if no line carries a token, and an expiry in 1970 if no
line carries one.

`authenticate_user_sound_iff` is the exact condition on the response, for every server that is
loaded, every user, clock, prior token and response. A response with no token line is enough to
violate it (`authenticate_user_empty_response`).
-/

namespace FusePosix

/-! ### The stored token -/

@[simp] theorem token_setToken (srv : RucioServer) (uid : ℕ) (info : TokenInfo) :
    (srv.setToken uid info).token uid = info := by
  simp [RucioServer.token, RucioServer.setToken]

section Loaded

variable {io : Io} {server : Str} {srv : RucioServer} {uid : ℕ} {caller : Caller} {s : State}
  {ret : CurlRet}

theorem find_storeToken_self (h : s.servers.find server = some srv) (info : TokenInfo) :
    (storeToken s.servers server uid info).find server = some (srv.setToken uid info) := by
  rw [find_storeToken, if_pos rfl, h, Option.map_some]

/-- The state after a lookup of the user's token. -/
def State.lookedUp (s : State) (server : Str) (srv : RucioServer) (uid : ℕ) : State :=
  { s with servers := storeToken s.servers server uid (srv.token uid) }

/-- For a loaded server, validity is that of the stored token. -/
theorem rucioIsTokenValid_of_find (h : s.servers.find server = some srv) :
    rucioIsTokenValid io server uid s =
      ((srv.token uid).validAt io.now, s.lookedUp server srv uid) := by
  rw [rucioIsTokenValid, getServerToken_of_find h]
  rfl

/-- A lookup leaves the server in place, with the same token. -/
theorem find_lookedUp (h : s.servers.find server = some srv) :
    (s.lookedUp server srv uid).servers.find server =
      some (srv.setToken uid (srv.token uid)) :=
  find_storeToken_self h _

/-! ### The response -/

/-- Whether a line of the response refuses the user. -/
def Refused (payload : List Str) : Prop :=
  ∃ line ∈ payload, (Text.find rucioTokenExceptionPrefix line).isSome = true

/-- What the last line with a header carries, the empty text if no line has it. -/
def lastField (header : Str) (payload : List Str) : Str :=
  ((payload.reverse.find? fun line ↦ (Text.find header line).isSome).map
    (Text.eraseAt 0 header.length)).getD []

/-- The loop over the lines looks for the last ones. -/
theorem tokenLines_eq (payload : List Str) : ∀ token expireTimeString : Str,
    ¬ Refused payload → tokenLines payload token expireTimeString = some
      (((payload.reverse.find? fun line ↦ (Text.find rucioTokenPrefix line).isSome).map
          (Text.eraseAt 0 rucioTokenPrefix.length)).getD token,
        ((payload.reverse.find? fun line ↦ (Text.find rucioTokenDurationPrefix line).isSome).map
          (Text.eraseAt 0 rucioTokenDurationPrefix.length)).getD expireTimeString) := by
  induction payload with
  | nil => intro token expireTimeString _; rfl
  | cons line payload ih =>
    intro token expireTimeString h
    have hline : ¬ (Text.find rucioTokenExceptionPrefix line).isSome = true :=
      fun hr ↦ h ⟨line, by simp, hr⟩
    have hrest : ¬ Refused payload :=
      fun ⟨other, hmem, hr⟩ ↦ h ⟨other, List.mem_cons_of_mem _ hmem, hr⟩
    -- looking from the end, the first line comes last
    have hlast : ∀ (header d : Str),
        (((line :: payload).reverse.find? fun line ↦ (Text.find header line).isSome).map
            (Text.eraseAt 0 header.length)).getD d =
          ((payload.reverse.find? fun line ↦ (Text.find header line).isSome).map
            (Text.eraseAt 0 header.length)).getD
            (if (Text.find header line).isSome then Text.eraseAt 0 header.length line else d) := by
      intro header d
      rw [List.reverse_cons, List.find?_append, List.find?_singleton]
      rcases payload.reverse.find? fun line ↦ (Text.find header line).isSome with - | found
      · cases (Text.find header line).isSome <;> rfl
      · rfl
    rw [tokenLines, if_neg hline, ih _ _ hrest, hlast, hlast]

theorem tokenLines_of_refused {payload : List Str} (h : Refused payload) :
    ∀ token expireTimeString : Str, tokenLines payload token expireTimeString = none := by
  induction payload with
  | nil => simp [Refused] at h
  | cons line payload ih =>
    intro token expireTimeString
    rw [tokenLines]
    rcases hline : (Text.find rucioTokenExceptionPrefix line).isSome with - | -
    · rw [if_neg (by decide)]
      refine ih ?_ _ _
      obtain ⟨other, hmem, hr⟩ := h
      rcases List.mem_cons.1 hmem with rfl | hmem
      · exact absurd (hline.symm.trans hr) (by decide)
      · exact ⟨other, hmem, hr⟩
    · rw [if_pos rfl]

/-- The end of the life of a token that comes with the given expiry line. -/
def expiryEpoch (io : Io) (prior : TokenInfo) (expireTimeString : Str) : ℤ :=
  (io.mktime (expiryTime io prior.connTokenExp expireTimeString)).1 - io.timezone

/-- Whether a response that nobody objects to brings a token that may be used now. -/
def Usable (io : Io) (prior : TokenInfo) (payload : List Str) : Prop :=
  cStrNonempty (lastField rucioTokenPrefix payload) = true ∧
    lastField rucioTokenPrefix payload ≠ rucioInvalidToken ∧
    io.now ≤ expiryEpoch io prior (lastField rucioTokenDurationPrefix payload)

theorem validAt_renewed_iff (prior : TokenInfo) (token expireTimeString : Str) :
    (prior.renewed io token expireTimeString).validAt io.now = true ↔
      cStrNonempty token = true ∧ token ≠ rucioInvalidToken ∧
        io.now ≤ expiryEpoch io prior expireTimeString := by
  have hepoch : (prior.renewed io token expireTimeString).connTokenExpEpoch =
      expiryEpoch io prior expireTimeString := rfl
  have htoken : (prior.renewed io token expireTimeString).connToken =
      if cStrNonempty token then token else rucioInvalidToken := rfl
  rw [TokenInfo.validAt, hepoch, htoken, Bool.and_eq_true, decide_eq_true_iff, decide_eq_true_iff,
    Int.sub_nonneg]
  split_ifs with hempty
  · simp [hempty]
  · simp [hempty]

/-- An accepted response replaces the token. -/
theorem receiveToken_accepted (h : s.servers.find server = some srv)
    (haccepted : ret.ok = true ∧ ¬ Refused ret.payload) :
    receiveToken io server uid ret s = (.tokenOk, { s with
      servers := storeToken (storeToken s.servers server uid (srv.token uid)) server uid
        ((srv.token uid).renewed io (lastField rucioTokenPrefix ret.payload)
          (lastField rucioTokenDurationPrefix ret.payload)) }) :=
  receiveToken_of_lines haccepted.1 (tokenLines_eq ret.payload [] [] haccepted.2) h

/-- Any other response changes nothing. -/
theorem exists_receiveToken_rejected (hrejected : ¬ (ret.ok = true ∧ ¬ Refused ret.payload)) :
    ∃ result, result ≠ .tokenOk ∧ receiveToken io server uid ret s = (result, s) := by
  rcases hok : ret.ok with - | -
  · exact ⟨.curlError, AuthResult.noConfusion, by rw [receiveToken, hok]; rfl⟩
  · have hrefused : Refused ret.payload := by
      by_contra hcontra
      exact hrejected ⟨hok, hcontra⟩
    exact ⟨.cannotAuth, AuthResult.noConfusion, by
      rw [receiveToken, hok, tokenLines_of_refused hrefused]
      rfl⟩

/-- **When a response opens the gate soundly**: it fails, it refuses, or it brings a usable
token. -/
theorem receiveToken_sound_iff (h : s.servers.find server = some srv) :
    (∀ s', receiveToken io server uid ret s = (.tokenOk, s') →
        (rucioIsTokenValid io server uid s').1 = true) ↔
      ret.ok = false ∨ Refused ret.payload ∨ Usable io (srv.token uid) ret.payload := by
  by_cases haccepted : ret.ok = true ∧ ¬ Refused ret.payload
  · set info := (srv.token uid).renewed io (lastField rucioTokenPrefix ret.payload)
      (lastField rucioTokenDurationPrefix ret.payload) with hinfo
    have hstored : (storeToken (storeToken s.servers server uid (srv.token uid)) server uid
        info).find server = some ((srv.setToken uid (srv.token uid)).setToken uid info) := by
      rw [find_storeToken, if_pos rfl, find_storeToken_self h, Option.map_some]
    have hvalid := @validAt_renewed_iff io (srv.token uid)
      (lastField rucioTokenPrefix ret.payload) (lastField rucioTokenDurationPrefix ret.payload)
    rw [receiveToken_accepted h haccepted]
    simp only [Prod.mk.injEq, true_and, forall_eq', haccepted.1, haccepted.2, false_or,
      reduceCtorEq]
    rw [rucioIsTokenValid_of_find hstored, token_setToken, hinfo, hvalid]
    rfl
  · obtain ⟨result, hresult, heq⟩ :=
      @exists_receiveToken_rejected io server uid s ret haccepted
    refine iff_of_true (fun s' hs' ↦ ?_) ?_
    · rw [heq] at hs'
      exact absurd (Prod.mk.inj hs').1 hresult
    · rcases hok : ret.ok with - | -
      · exact Or.inl rfl
      · exact Or.inr (Or.inl (by
          by_contra hcontra
          exact haccepted ⟨hok, hcontra⟩))

/-- The response of the server to the authentication request of its mode. -/
def authResponse (io : Io) (srv : RucioServer) (s : State) : CurlRet :=
  match srv.rucioConnParams.rucioAuthMode with
  | .x509 => (curlGET io (x509Request srv.rucioConnParams (srv.sslBundle io.readFile)) s).1
  | _ => (safeGET io (userpassRequest srv.rucioConnParams) s).1

/-- A login only starts here, so there is no token yet. -/
theorem rucioGetAuthTokenOidc_async (h : s.servers.find server = some srv) :
    rucioGetAuthTokenOidc io server caller true s = .ok (.tokenError,
      (getOIDCAsync io server caller (s.lookedUp server srv caller.uid)).2) := by
  have hparams := getServerParams_of_find h
  have hbundle : getServerOIDCBundle s.servers server =
      some ⟨srv.configFilePath, srv.tempConfigFolder⟩ := by
    rw [getServerOIDCBundle, h, Option.map_some]
  rw [rucioGetAuthTokenOidc, hparams]
  simp only [hbundle, deref_some, ok_bind, if_true, getServerToken_of_find h]
  rfl

/-- **When asking for a token is sound.** -/
theorem requestToken_sound_iff (h : s.servers.find server = some srv) :
    (∀ s', requestToken io srv.rucioConnParams.rucioAuthMode server caller s = .ok (.tokenOk, s') →
        (rucioIsTokenValid io server caller.uid s').1 = true) ↔
      srv.rucioConnParams.rucioAuthMode = .oidc ∨ srv.rucioConnParams.rucioAuthMode = .none ∨
        (authResponse io srv s).ok = false ∨ Refused (authResponse io srv s).payload ∨
        Usable io (srv.token caller.uid) (authResponse io srv s).payload := by
  have hparams := getServerParams_of_find h
  have hbundle := @getServerSSLBundle_of_find io.readFile _ _ _ h
  rcases hmode : srv.rucioConnParams.rucioAuthMode with - | - | - | -
  · have hafter : (safeGET io (userpassRequest srv.rucioConnParams) s).2.servers.find server =
        some srv := h
    have hiff := @receiveToken_sound_iff io server srv caller.uid _
      (safeGET io (userpassRequest srv.rucioConnParams) s).1 hafter
    rw [authResponse, hmode, requestToken, rucioGetAuthTokenUserpass, hparams]
    simpa using hiff
  · have hafter : (curlGET io (x509Request srv.rucioConnParams (srv.sslBundle io.readFile))
        s).2.servers.find server = some srv := h
    have hiff := @receiveToken_sound_iff io server srv caller.uid _
      (curlGET io (x509Request srv.rucioConnParams (srv.sslBundle io.readFile)) s).1 hafter
    rw [authResponse, hmode, requestToken, rucioGetAuthTokenX509, hparams]
    simpa [hbundle] using hiff
  · simp [requestToken, rucioGetAuthTokenOidc_async h]
  · simp [requestToken]

end Loaded

/-! ### The gate -/

/-- The condition on what a callback meets under which its gate is sound: the stored token is valid
already, or the server is not in one of the request modes, or the response fails, refuses, or brings
a token that is neither empty nor `rucioInvalidToken` and has not expired. -/
def GateCondition (io : Io) (srv : RucioServer) (uid : ℕ) (s : State) : Prop :=
  (srv.token uid).validAt io.now = true ∨
    srv.rucioConnParams.rucioAuthMode = .oidc ∨ srv.rucioConnParams.rucioAuthMode = .none ∨
    (authResponse io srv s).ok = false ∨ Refused (authResponse io srv s).payload ∨
    Usable io (srv.token uid) (authResponse io srv s).payload

section Gate

variable {io : Io} {path : Str} {caller : Caller} {s : State} {srv : RucioServer}

/-- A loaded server is asked for a token unless a valid one is stored. -/
theorem authenticateUser_of_find (h : s.servers.find (extractServerName path) = some srv) :
    authenticateUser io path caller s =
      if (srv.token caller.uid).validAt io.now then
        .ok (.tokenOk, s.lookedUp (extractServerName path) srv caller.uid)
      else requestToken io srv.rucioConnParams.rucioAuthMode (extractServerName path) caller
        (s.lookedUp (extractServerName path) srv caller.uid) := by
  have hparams := getServerParams_of_find (@find_lookedUp _ _ caller.uid _ h)
  rw [authenticateUser, rucioIsTokenValid_of_find h]
  simp only [hparams]
  rfl

/-- Below the root the gate opens exactly if `authenticateUser` answers `tokenOk`. -/
theorem authGate_eq_true_iff (hroot : isRootPath path = false) (s' : State) :
    authGate io path caller s = .ok (true, s') ↔
      authenticateUser io path caller s = .ok (.tokenOk, s') := by
  rw [authGate, hroot, if_neg (by decide), bind_eq_ok]
  constructor
  · rintro ⟨⟨result, t⟩, hauth, hok⟩
    simp only [pure_eq_ok, Except.ok.injEq, Prod.mk.injEq, beq_iff_eq] at hok
    rw [hauth, hok.1, hok.2]
  · intro hauth
    exact ⟨_, hauth, rfl⟩

/-- **When the gate is sound.** Take any path whose server is loaded, any user, clock, stored token
and environment. `authenticateUser` answers `tokenOk` for users with a valid token only, if and only
if the gate condition holds. The same is true of the gate in front of the callbacks, for every path
but the root. -/
theorem authenticate_user_sound_iff (h : s.servers.find (extractServerName path) = some srv) :
    ((∀ s', authenticateUser io path caller s = .ok (.tokenOk, s') →
        (rucioIsTokenValid io (extractServerName path) caller.uid s').1 = true) ↔
      GateCondition io srv caller.uid s) ∧
    (isRootPath path = false →
      ((∀ s', authGate io path caller s = .ok (true, s') →
          (rucioIsTokenValid io (extractServerName path) caller.uid s').1 = true) ↔
        GateCondition io srv caller.uid s)) := by
  have hmain : (∀ s', authenticateUser io path caller s = .ok (.tokenOk, s') →
      (rucioIsTokenValid io (extractServerName path) caller.uid s').1 = true) ↔
        GateCondition io srv caller.uid s := by
    have hfind := @find_lookedUp _ _ caller.uid _ h
    rw [authenticateUser_of_find h, GateCondition]
    rcases hvalid : (srv.token caller.uid).validAt io.now with - | -
    · have hiff := @requestToken_sound_iff io _ _ caller _ hfind
      rw [token_setToken] at hiff
      simp only [Bool.false_eq_true, if_false, false_or]
      exact hiff
    · refine iff_of_true (fun s' hs' ↦ ?_) (Or.inl rfl)
      obtain rfl : s.lookedUp (extractServerName path) srv caller.uid = s' := by
        simpa using hs'
      rw [rucioIsTokenValid_of_find hfind, token_setToken, hvalid]
  refine ⟨hmain, fun hroot ↦ ?_⟩
  rw [← hmain]
  exact forall_congr' fun s' ↦ by rw [authGate_eq_true_iff hroot]

end Gate

/-- A world whose authentication response brings a token that is still good. -/
def sampleTokenIo : Io :=
  { sampleIo with
    now := 3000
    net := fun _ _ ↦ ⟨0, [rucioTokenPrefix ++ ['t'], rucioTokenDurationPrefix ++ rucioDefaultExp]⟩ }

/-- With that response the gate is sound. -/
theorem authenticate_user_sound_good_response :
    ∃ s', authenticateUser sampleTokenIo ['/', 's', '/', 'u'] sampleCaller
        { servers := sampleServers, serverNames := [['s']] } = .ok (.tokenOk, s') ∧
      (rucioIsTokenValid sampleTokenIo (extractServerName ['/', 's', '/', 'u']) 7 s').1 = true := by
  obtain ⟨s', hs'⟩ := exists_of_map_fst_eq_ok (by decide +kernel :
    (authenticateUser sampleTokenIo ['/', 's', '/', 'u'] sampleCaller
      { servers := sampleServers, serverNames := [['s']] }).map Prod.fst = .ok .tokenOk)
  have hcondition : GateCondition sampleTokenIo sampleServer 7
      { servers := sampleServers, serverNames := [['s']] } :=
    Or.inr (Or.inr (Or.inr (Or.inr (Or.inr ⟨by decide +kernel, by decide +kernel,
      by decide +kernel⟩))))
  exact ⟨s', hs', (@authenticate_user_sound_iff sampleTokenIo ['/', 's', '/', 'u'] sampleCaller
    { servers := sampleServers, serverNames := [['s']] } sampleServer rfl).1.2 hcondition s' hs'⟩

/-- **A response without a token opens the gate.** The user has no token before and none after it,
and a read is served so far as to start a download. -/
theorem authenticate_user_empty_response :
    (authenticateUser sampleIo ['/', 's', '/', 'u', '/', 'n'] sampleCaller
        { servers := sampleServers, serverNames := [['s']] }).map
      (fun r ↦ (r.1, (rucioIsTokenValid sampleIo ['s'] 7 r.2).1)) = .ok (.tokenOk, false) ∧
    (rucioRead sampleIo ['/', 's', '/', 'u', '/', 'n'] sampleCaller 8 0
        { rest := { servers := sampleServers, serverNames := [['s']] } }).map
      (fun r ↦ (r.1.1, r.2.pipeline.toDownload.length)) = .ok (-eAGAIN, 1) := by
  refine ⟨by decide +kernel, by decide +kernel⟩

end FusePosix
