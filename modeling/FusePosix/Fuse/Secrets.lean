import FusePosix.Fuse.Isolation
import FusePosix.Fuse.Main

/-!
# Secrets stay at home

A token is worth something at one server, for one user. The process keeps the tokens of all users in
one registry and asks all servers through one client, so it is not obvious that no token ever goes
to another server, or to the right server on behalf of another user. `requests_stay_home` says so of
every transfer that is begun, from the start of the process on, whatever users, servers, login
threads and download workers do, and in all authentication modes: each one goes to a server of the
settings, in the name of the user whose call begins it, and begins with one of three things. It is a
request for a token, with the credentials that the settings have for this very server; a request for
data whose only header carries a token that this server has issued to this user before; or a ping,
which only happens at the start and carries nothing.

Where a token comes from is said of the run (`Issued`): it was in the answer to a login that was
sent to the server on behalf of the user earlier in the run, or a login thread of the user at the
server has ended with it. The text that stands for the absence of a token is sent, too.

**Not claimed**: that a server keeps a secret it has been sent. libcurl follows the redirects of a
server and sends the headers along, so a transfer may go on elsewhere, and what is sent then is the
same request under the address the answer has named.

**Assumed**: a login thread finds the arguments that it was started with. They lie in the frame of
`GET_OIDC_ASYNC`, which has returned by then, so another login may have written over them. This is
about servers in mode `oidc` only, as no others start threads. Callbacks are taken one after the
other.
-/

namespace FusePosix

open Relation Transition

/-! ### Where tokens come from -/

/-- For whom a step of the process acts: what it meets, the server, and the user. -/
def Process.party (p : Process) : ProcessAction → Option (Io × Str × Caller)
  | .entry io fileName => some (io, settingsServerName fileName, p.starter)
  | .mount a => a.call.map fun call ↦ (call.1, extractServerName call.2.1, call.2.2)

/-- Whether a step belongs to the start of the process. -/
def ProcessAction.Starting : ProcessAction → Prop
  | .entry _ _ => True
  | .mount _ => False

/-- A request is sent in a run on top of a log, by a step that acts for a user at a server. -/
inductive SentBy (p : Process) (run : List ProcessAction) (request : Request) (log : List Event)
    (a : ProcessAction) (io : Io) (server : Str) (caller : Caller) : Prop
  | intro {before after : List ProcessAction} {m m' : Mount} (hrun : run = before ++ a :: after)
      (hbefore : exec p.step Process.start before = some m) (hstep : p.step m a = some m')
      (hparty : p.party a = some (io, server, caller)) (hnew : m.rest.log <:+ log)
      (hsent : .sent request :: log <:+ m'.rest.log)

/-- A login thread is there for the user and the server of some step of a run. -/
def StartedBy (p : Process) (run : List ProcessAction) (login : Login) : Prop :=
  ∃ before a after io, run = before ++ a :: after ∧
    p.party a = some (io, login.server, login.caller)

/-- What a run, and what a log of it tells about the origin of a user's token. -/
inductive Issued (p : Process) (run : List ProcessAction) (log : List Event) (server : Str)
    (uid : ℕ) : Str → Prop
  /-- There is no token. -/
  | missing : Issued p run log server uid rucioInvalidToken
  /-- The server has answered a login of the user. -/
  | answered {request : Request} {log' : List Event} {a : ProcessAction} {io : Io}
      {caller : Caller} {token : Str} (hsent : SentBy p run request log' a io server caller)
      (huid : caller.uid = uid) (hlogin : request.includeHeaders = true)
      (hearlier : .sent request :: log' <:+ log)
      (hbrought : (io.net log' request).broughtToken = some token) :
      Issued p run log server uid token
  /-- A login was waited for at the start. -/
  | waited {before after : List ProcessAction} {io : Io} {fileName : Str}
      (hrun : run = before ++ .entry io fileName :: after)
      (hserver : settingsServerName fileName = server) (huid : p.starter.uid = uid) :
      Issued p run log server uid (getOIDC io.oidc)
  /-- A login thread of the user has ended. -/
  | loginEnded {before after : List ProcessAction} {io : Io} {k : ℕ} {m : Mount} {login : Login}
      (hrun : run = before ++ .mount (.background (.loginEnds io k)) :: after)
      (hbefore : exec p.step Process.start before = some m)
      (hlogin : m.rest.logins[k]? = some login) (hstarted : StartedBy p before login)
      (hserver : login.server = server) (huid : login.caller.uid = uid) :
      Issued p run log server uid (getOIDC io.oidc)

/-- What may be sent to a server. -/
inductive Request.Home (starting : Prop) (io : Io) (servers : ServerMap) (server : Str)
    (Origin : Str → Prop) : Request → Prop
  | ping {params : ConnectionParameters} (hstarting : starting)
      (hparams : getServerParams servers server = some params) :
      Home starting io servers server Origin (pingRequest params).asSent
  | login {request : Request} (hlogin : LoginRequest io servers server request) :
      Home starting io servers server Origin request
  | data {params : ConnectionParameters} {resource token : Str}
      (hparams : getServerParams servers server = some params)
      (hresource : resource.head? = some '/') (htoken : Origin token) :
      Home starting io servers server Origin
        (dataRequest params resource [tokenHeader token]).asSent

/-! ### Settings are never lost -/

/-- The servers of one registry are in another one, with their settings. -/
def Includes (servers servers' : ServerMap) : Prop :=
  ∀ name settings, (servers.find name).map RucioServer.settings = some settings →
    (servers'.find name).map RucioServer.settings = some settings

section Includes

variable {starting : Prop} {io : Io} {server : Str} {servers servers' servers'' : ServerMap}
  {request : Request}

theorem SameSettings.includes (h : SameSettings servers servers') : Includes servers servers' :=
  fun name _ hname ↦ (h name).trans hname

theorem Includes.trans (h : Includes servers servers') (h' : Includes servers' servers'') :
    Includes servers servers'' :=
  fun name settings hname ↦ h' name settings (h name settings hname)

theorem Includes.exists_server (h : Includes servers servers') {srv : RucioServer}
    (hfind : servers.find server = some srv) :
    ∃ srv', servers'.find server = some srv' ∧ srv'.settings = srv.settings :=
  Option.map_eq_some_iff.1 (h server srv.settings (by rw [hfind, Option.map_some]))

theorem Includes.getServerParams (h : Includes servers servers') {params : ConnectionParameters}
    (hparams : getServerParams servers server = some params) :
    getServerParams servers' server = some params := by
  obtain ⟨srv, hfind, rfl⟩ := Option.map_eq_some_iff.1 hparams
  obtain ⟨srv', hfind', hsettings⟩ := h.exists_server hfind
  rw [getServerParams_of_find hfind', show srv'.rucioConnParams = srv.rucioConnParams from
    congrArg Prod.fst hsettings]

theorem Includes.loginRequest (h : Includes servers servers')
    (hlogin : LoginRequest io servers server request) :
    LoginRequest io servers' server request := by
  cases hlogin with
  | userpass hparams hmode => exact .userpass (h.getServerParams hparams) hmode
  | x509 hparams hmode hbundle =>
    obtain ⟨srv, hfind, rfl⟩ := Option.map_eq_some_iff.1 hbundle
    obtain ⟨srv', hfind', hsettings⟩ := h.exists_server hfind
    have hpath : srv'.configFilePath = srv.configFilePath :=
      congrArg (fun settings ↦ settings.2.1) hsettings
    refine .x509 (h.getServerParams hparams) hmode ?_
    rw [getServerSSLBundle_of_find hfind', RucioServer.sslBundle, RucioServer.sslBundle, hpath]

theorem Request.Home.mono {Origin Origin' : Str → Prop} (hservers : Includes servers servers')
    (hOrigin : ∀ token, Origin token → Origin' token)
    (h : request.Home starting io servers server Origin) :
    request.Home starting io servers' server Origin' := by
  cases h with
  | ping hstarting hparams => exact .ping hstarting (hservers.getServerParams hparams)
  | login hlogin => exact .login (hservers.loginRequest hlogin)
  | data hparams hresource htoken =>
    exact .data (hservers.getServerParams hparams) hresource (hOrigin _ htoken)

theorem includes_emplaceServer (s : State) (name : Str) (srv : RucioServer) :
    Includes s.servers (s.emplaceServer name srv).servers := by
  intro other settings hother
  obtain ⟨srv', hfind, hsettings⟩ := Option.map_eq_some_iff.1 hother
  show ((s.servers.emplace name srv).find other).map _ = _
  rw [Table.emplace]
  split_ifs with hthere
  · exact hother
  · rw [Table.find_insert, if_neg, hother]
    rintro rfl
    exact hthere (Table.contains_eq_true.2 ⟨srv', hfind⟩)

end Includes

/-! ### How a token changes -/

/-- How a new token comes in between two states. -/
inductive TokenArrives (starting : Prop) (io : Io) (s t : State) (token : Str) : Prop
  | answered {request : Request} (hlog : t.log = .sent request :: s.log)
      (hlogin : request.includeHeaders = true)
      (hbrought : (io.net s.log request).broughtToken = some token) :
      TokenArrives starting io s t token
  | waited (hstarting : starting) (htoken : token = getOIDC io.oidc ∨ token = rucioInvalidToken) :
      TokenArrives starting io s t token

section Tokens

variable {starting : Prop} {io : Io} {server : Str} {uid : ℕ} {caller : Caller} {s t : State}

theorem tokenOf_eq_getD_storedToken (s : State) (server : Str) (uid : ℕ) :
    s.tokenOf server uid = (s.storedToken server uid).getD {} := by
  rw [State.tokenOf, State.storedToken]
  rcases s.servers.find server with - | srv <;> rfl

/-- One token is stored, or none if the server is not loaded. -/
theorem tokenOf_storeToken (info : TokenInfo) (server' : Str) (uid' : ℕ) :
    ({ s with servers := storeToken s.servers server uid info } : State).tokenOf server' uid' =
        s.tokenOf server' uid' ∨
      (server', uid') = (server, uid) ∧
        ({ s with servers := storeToken s.servers server uid info } : State).tokenOf server' uid' =
          info := by
  by_cases hne : (server', uid') = (server, uid)
  · obtain ⟨rfl, rfl⟩ := Prod.mk.inj hne
    rcases hfind : s.servers.find server' with - | srv
    · refine Or.inl ?_
      rw [storeToken, hfind]
    · exact Or.inr ⟨rfl, tokenOf_storeToken_self hfind info⟩
  · refine Or.inl ?_
    rw [tokenOf_eq_getD_storedToken, tokenOf_eq_getD_storedToken,
      storedToken_storeToken_of_ne info hne]

theorem LoginRequest.own {request : Request} {servers : ServerMap}
    (h : LoginRequest io servers server request) :
    ∃ params, getServerParams servers server = some params ∧ request.includeHeaders = true ∧
      ∀ token, request.Own params token := by
  rcases h with ⟨hparams, -⟩ | ⟨hparams, -, -⟩
  · exact ⟨_, hparams, rfl, own_userpassRequest _⟩
  · exact ⟨_, hparams, rfl, own_x509Request _ _⟩

/-- A login brings the user the token of the answer, if it brings one, and nobody else any. -/
theorem tokenArrives_receiveToken {request : Request}
    (hrequest : LoginRequest io s.servers server request)
    (ht : t = (receiveToken io server uid (io.net s.log request) (s.note (.sent request))).2)
    (server' : Str) (uid' : ℕ) :
    (t.tokenOf server' uid').connToken = (s.tokenOf server' uid').connToken ∨
      (server', uid') = (server, uid) ∧
        TokenArrives starting io s t (t.tokenOf server' uid').connToken := by
  obtain ⟨params, hparams, hlogin, hown⟩ := hrequest.own
  have hisolated : Isolated io server uid s t :=
    ht ▸ isolated_receiveToken hparams hlogin hown
  have hlog : t.log = .sent request :: s.log := ht ▸ log_receiveToken _
  by_cases hne : (server', uid') = (server, uid)
  · obtain ⟨rfl, rfl⟩ := Prod.mk.inj hne
    obtain ⟨events, hevents, htoken, -⟩ := hisolated.log
    obtain rfl : [Event.sent request] = events :=
      List.append_cancel_right (hlog.symm.trans hevents)
    rw [tokenAfter, if_pos hlogin] at htoken
    rcases hbrought : (io.net ([] ++ s.log) request).broughtToken with - | token
    · rw [hbrought] at htoken
      exact Or.inl htoken
    · rw [hbrought] at htoken
      exact Or.inr ⟨rfl, .answered hlog hlogin (htoken ▸ hbrought)⟩
  · refine Or.inl ?_
    rw [tokenOf_eq_getD_storedToken, tokenOf_eq_getD_storedToken,
      hisolated.tokens server' uid' hne]

/-- A login at the identity provider brings its token, if that is one. -/
theorem connToken_storeOidcToken {token : Str} (h : storeOidcToken io server uid token s = .ok t)
    (server' : Str) (uid' : ℕ) :
    (t.tokenOf server' uid').connToken = (s.tokenOf server' uid').connToken ∨
      (server', uid') = (server, uid) ∧
        ((t.tokenOf server' uid').connToken = token ∨
          (t.tokenOf server' uid').connToken = rucioInvalidToken) := by
  obtain ⟨exp, -, h⟩ := bind_eq_ok.1 h
  obtain ⟨localTime, -, h⟩ := bind_eq_ok.1 h
  obtain ⟨connTokenExp, -, h⟩ := bind_eq_ok.1 h
  obtain rfl := Except.ok.inj h
  refine (tokenOf_storeToken _ server' uid').imp (congrArg _) fun ⟨heq, hstored⟩ ↦ ⟨heq, ?_⟩
  rw [hstored]
  exact ite_eq_or_eq _ _ _

/-- **An act changes the token of its user at its server only**, and then it says where the new one
comes from. -/
theorem Act.connToken (h : Act starting io server caller s t) (server' : Str) (uid' : ℕ) :
    (t.tokenOf server' uid').connToken = (s.tokenOf server' uid').connToken ∨
      (server', uid') = (server, caller.uid) ∧
        TokenArrives starting io s t (t.tokenOf server' uid').connToken := by
  cases h with
  | looked =>
    refine Or.inl ?_
    rcases hfind : s.servers.find server with - | srv
    · rw [getServerToken, hfind]
    · rw [getServerToken_of_find hfind]
      rcases @tokenOf_storeToken server caller.uid s (srv.token caller.uid) server' uid' with
        hsame | ⟨heq, hstored⟩
      · exact congrArg _ hsame
      · obtain ⟨rfl, rfl⟩ := Prod.mk.inj heq
        rw [hstored, tokenOf_of_find hfind]
  | loggedIn hrequest => exact tokenArrives_receiveToken hrequest rfl server' uid'
  | loginStarts | asked | used | pinged | keptBack => exact Or.inl rfl
  | stored hstores =>
    refine Or.inl ?_
    rw [State.tokenOf, hstores.servers]
    rfl
  | waited hstarting _ _ hstore =>
    exact (connToken_storeOidcToken hstore server' uid').imp id fun hchanged ↦
      ⟨hchanged.1, .waited hstarting hchanged.2⟩

/-- **What an act sends may be sent**, with the token that is stored for its user. -/
theorem Act.home {request : Request} (h : Act starting io server caller s t)
    (hlog : t.log = .sent request :: s.log) :
    request.Home starting io s.servers server
      (· = (s.tokenOf server caller.uid).connToken) := by
  have hsent : ∀ {event}, t.log = event :: s.log → event = .sent request :=
    fun hevent ↦ (List.cons.inj (hevent.symm.trans hlog)).1
  have hnone : t.log ≠ s.log := fun heq ↦ List.cons_ne_self _ _ (hlog.symm.trans heq)
  cases h with
  | looked | loginStarts | keptBack => exact absurd rfl hnone
  | loggedIn hrequest =>
    obtain rfl := Event.sent.inj (hsent (log_receiveToken _))
    exact .login hrequest
  | asked hparams hresource =>
    obtain rfl := Event.sent.inj (hsent rfl)
    exact .data hparams hresource rfl
  | stored hstores => exact nomatch hsent hstores.log
  | used => exact nomatch hsent rfl
  | pinged hstarting hparams =>
    obtain rfl := Event.sent.inj (hsent rfl)
    exact .ping hstarting hparams
  | waited _ _ _ hstore =>
    obtain ⟨info, rfl⟩ := exists_of_storeOidcToken hstore
    exact absurd rfl hnone

end Tokens

/-! ### Any number of acts -/

/-- A notion of where tokens come from: what has been known stays known, and a missing token comes
from nowhere. -/
structure Origins (P : List Event → Str → ℕ → Str → Prop) : Prop where
  mono : ∀ {log log' server uid token}, log <:+ log' → P log server uid token →
    P log' server uid token
  missing : ∀ log server uid, P log server uid rucioInvalidToken

/-- It is known of every stored token where it comes from. -/
def State.Trusted (P : List Event → Str → ℕ → Str → Prop) (s : State) : Prop :=
  ∀ server uid, P s.log server uid (s.tokenOf server uid).connToken

section Acts

variable {starting : Prop} {io : Io} {server : Str} {caller : Caller} {s t : State}
  {P : List Event → Str → ℕ → Str → Prop}

/-- **If it is known of the tokens that come in, it is known of all that are stored and sent.** -/
theorem Acts.trusted (hP : Origins P) (h : Acts starting io server caller s t)
    (hanswered : ∀ request log token, s.log <:+ log → .sent request :: log <:+ t.log →
      request.includeHeaders = true → (io.net log request).broughtToken = some token →
      P (.sent request :: log) server caller.uid token)
    (hwaited : starting → ∀ log, P log server caller.uid (getOIDC io.oidc)) (hs : s.Trusted P) :
    t.Trusted P ∧ ∀ request log, s.log <:+ log → .sent request :: log <:+ t.log →
      request.Home starting io s.servers server (P log server caller.uid) := by
  induction h with
  | refl =>
    refine ⟨hs, fun request log hnew hsent ↦ ?_⟩
    exact absurd (hnew.length_le.trans' hsent.length_le) (Nat.not_succ_le_self _)
  | @tail t u hacts hact ih =>
    have hlonger : t.log <:+ u.log := hact.log_suffix
    obtain ⟨htrusted, hhome⟩ := ih fun request log token hnew hsent ↦
      hanswered request log token hnew (hsent.trans hlonger)
    refine ⟨fun server' uid' ↦ ?_, fun request log hnew hsent ↦ ?_⟩
    · rcases hact.connToken server' uid' with hsame | ⟨heq, harrives⟩
      · rw [hsame]
        exact hP.mono hlonger (htrusted server' uid')
      · obtain ⟨rfl, rfl⟩ := Prod.mk.inj heq
        rcases harrives with ⟨hlog, hlogin, hbrought⟩ | ⟨hstarting, htoken | htoken⟩
        · have hsent := hanswered _ _ _ (Acts.log_suffix hacts) (hlog ▸ List.suffix_refl _) hlogin
            hbrought
          rwa [← hlog] at hsent
        · rw [htoken]
          exact hwaited hstarting u.log
        · rw [htoken]
          exact hP.missing u.log _ _
    · rcases hact.log with hlog | ⟨event, hlog⟩
      · exact hhome request log hnew (hlog ▸ hsent)
      · rw [hlog] at hsent
        rcases List.suffix_cons_iff.1 hsent with heq | hsent
        -- the request is what this act sends
        · obtain ⟨rfl, rfl⟩ := List.cons.inj heq
          have hback : SameSettings t.servers s.servers := fun name ↦
            (Acts.settings hacts name).symm
          refine (hact.home hlog).mono hback.includes fun token htoken ↦ ?_
          rw [show token = _ from htoken]
          exact htrusted server caller.uid
        · exact hhome request log hnew hsent

end Acts

/-! ### Steps of the process -/

/-- What a step of the process does to the state of the REST client. -/
inductive ProcessDoes (p : Process) (m : Mount) (a : ProcessAction) (m' : Mount) : Prop
  | nothing (hrest : m'.rest = m.rest)
  /-- It acts for its party, at the start behind entering a server. -/
  | acts (names : List Str) {io : Io} {server : Str} {caller : Caller} {s : State}
      (hparty : p.party a = some (io, server, caller))
      (hs : s = m.rest ∨ ∃ name srv, srv.rucioTokenInfos = Table.empty ∧
        s = m.rest.emplaceServer name srv)
      (hacts : Acts a.Starting io server caller s { m'.rest with serverNames := names })
  | loginEnds {io : Io} {k : ℕ} (ha : a = .mount (.background (.loginEnds io k)))
      (hends : oidcLoginEnds io k m.rest = .ok m'.rest)

section Steps

variable {p : Process} {m m' : Mount} {a : ProcessAction} {run : List ProcessAction}

theorem rucioTokenInfos_readSettingsLine (settings : Settings) (line : Str) :
    (readSettingsLine settings line).server.rucioTokenInfos =
      settings.server.rucioTokenInfos := by
  have hfields : ∀ (fields : List (Str × (Str → Settings → Settings))) (read : Str × Settings),
      fields ⊆ settingsFields → (fields.foldl readSettingsField read).2.server.rucioTokenInfos =
        read.2.server.rucioTokenInfos := by
    intro fields
    induction fields with
    | nil => exact fun read _ ↦ rfl
    | cons field fields ih =>
      intro read hsub
      obtain ⟨hfield, hfields⟩ := List.cons_subset.1 hsub
      rw [List.foldl_cons, ih _ hfields, readSettingsField]
      split_ifs
      · simp only [settingsFields, List.mem_cons, List.not_mem_nil, or_false] at hfield
        rcases hfield with rfl | rfl | rfl | rfl | rfl | rfl | rfl <;> rfl
      · rfl
  exact hfields settingsFields (line, settings) (List.Subset.refl _)

/-- A server that is entered has no tokens. -/
theorem rucioTokenInfos_serverOf (io : Io) (root fileName : Str) :
    (serverOf io root fileName).rucioTokenInfos = Table.empty := by
  show (readSettingsFile io (root ++ ['/'] ++ fileName)).server.rucioTokenInfos = _
  have hlines : ∀ (lines : List Str) (settings : Settings),
      (lines.foldl readSettingsLine settings).server.rucioTokenInfos =
        settings.server.rucioTokenInfos := by
    intro lines
    induction lines with
    | nil => exact fun settings ↦ rfl
    | cons line lines ih =>
      intro settings
      rw [List.foldl_cons, ih, rucioTokenInfos_readSettingsLine]
  rw [readSettingsFile, hlines]
  rfl

theorem processDoes_of_step (h : p.step m a = some m') : ProcessDoes p m a m' := by
  rcases a with ⟨io, fileName⟩ | a
  · obtain ⟨rest, hentry, rfl⟩ := map_toOption_eq_some h
    rcases entryEnds_of_eq_ok hentry with - | ⟨-, hvalidate⟩ | ⟨-, hvalidate⟩
    · exact .nothing rfl
    · exact .acts _ rfl (Or.inr ⟨_, _, rucioTokenInfos_serverOf _ _ _, rfl⟩)
        (acts_rucioValidateServer hvalidate)
    · rename_i t
      exact .acts t.serverNames rfl (Or.inr ⟨_, _, rucioTokenInfos_serverOf _ _ _, rfl⟩)
        (acts_rucioValidateServer hvalidate)
  · rcases stepDoes_of_step h with ⟨hcall, hacts⟩ | ⟨-, hrest⟩ | ⟨rfl, hends⟩
    · refine .acts m'.rest.serverNames ?_ (Or.inl rfl) hacts
      rw [Process.party, hcall]
      rfl
    · exact .nothing hrest
    · exact .loginEnds rfl hends

/-- Entering a server brings no tokens. -/
theorem tokenOf_emplaceServer (s : State) (name : Str) {srv : RucioServer}
    (hsrv : srv.rucioTokenInfos = Table.empty) (server : Str) (uid : ℕ) :
    (s.emplaceServer name srv).tokenOf server uid = s.tokenOf server uid := by
  rw [State.tokenOf, State.tokenOf]
  show (((s.servers.emplace name srv).find server).map _).getD _ = _
  rw [Table.emplace]
  split_ifs with hthere
  · rfl
  · rw [Table.find_insert]
    split_ifs with hserver
    · subst hserver
      rw [Table.contains_eq_false.1 (by simpa using hthere)]
      show ((srv.rucioTokenInfos.find uid).getD {}) = {}
      rw [hsrv]
      rfl
    · rfl

/-- The login threads behind some acts. -/
theorem Acts.logins {starting : Prop} {io : Io} {server : Str} {caller : Caller} {s t : State}
    (h : Acts starting io server caller s t) :
    ∀ login ∈ t.logins, login ∈ s.logins ∨ login = ⟨server, caller⟩ := by
  induction h with
  | refl => exact fun login hmem ↦ Or.inl hmem
  | tail _ hact ih =>
    intro login hmem
    cases hact with
    | looked | asked | used | pinged | keptBack => exact ih login hmem
    | loggedIn =>
      refine ih login ?_
      rw [receiveToken] at hmem
      split_ifs at hmem
      · exact hmem
      · split at hmem
        · exact hmem
        · split at hmem <;> exact hmem
    | loginStarts =>
      rcases List.mem_append.1 hmem with hold | hnew
      · exact ih login hold
      · exact Or.inr (List.mem_singleton.1 hnew)
    | stored _ _ hlogins => exact ih login (hlogins ▸ hmem)
    | waited _ _ _ hstore =>
      obtain ⟨info, rfl⟩ := exists_of_storeOidcToken hstore
      exact ih login hmem

end Steps

/-! ### Runs -/

section Runs

variable {p : Process} {run : List ProcessAction} {m m' : Mount} {a : ProcessAction}

theorem SentBy.concat {request : Request} {log : List Event} {b : ProcessAction} {io : Io}
    {server : Str} {caller : Caller} (h : SentBy p run request log b io server caller)
    (a : ProcessAction) : SentBy p (run ++ [a]) request log b io server caller := by
  obtain ⟨hrun, hbefore, hstep, hparty, hnew, hsent⟩ := h
  exact .intro (by rw [hrun, List.append_assoc, List.cons_append]) hbefore hstep hparty hnew hsent

theorem StartedBy.concat {login : Login} (h : StartedBy p run login) (a : ProcessAction) :
    StartedBy p (run ++ [a]) login := by
  obtain ⟨before, b, after, io, rfl, hparty⟩ := h
  exact ⟨before, b, after ++ [a], io, by rw [List.append_assoc, List.cons_append], hparty⟩

/-- What is known of a token stays known. -/
theorem Issued.concat {log : List Event} {server : Str} {uid : ℕ} {token : Str}
    (h : Issued p run log server uid token) (a : ProcessAction) :
    Issued p (run ++ [a]) log server uid token := by
  have happend : ∀ {before after : List ProcessAction} {b : ProcessAction},
      run = before ++ b :: after → run ++ [a] = before ++ b :: (after ++ [a]) :=
    fun hrun ↦ by rw [hrun, List.append_assoc, List.cons_append]
  cases h with
  | missing => exact .missing
  | answered hsent huid hlogin hearlier hbrought =>
    exact .answered (hsent.concat a) huid hlogin hearlier hbrought
  | waited hrun hserver huid => exact .waited (happend hrun) hserver huid
  | loginEnded hrun hbefore hlogin hstarted hserver huid =>
    exact .loginEnded (happend hrun) hbefore hlogin hstarted hserver huid

theorem origins_issued (p : Process) (run : List ProcessAction) : Origins (Issued p run) := by
  refine ⟨fun hlog h ↦ ?_, fun _ _ _ ↦ .missing⟩
  cases h with
  | missing => exact .missing
  | answered hsent huid hlogin hearlier hbrought =>
    exact .answered hsent huid hlogin (hearlier.trans hlog) hbrought
  | waited hrun hserver huid => exact .waited hrun hserver huid
  | loginEnded hrun hbefore hlogin hstarted hserver huid =>
    exact .loginEnded hrun hbefore hlogin hstarted hserver huid

/-- **Everything is where it belongs**: the tokens in the registry, the login threads, and what has
been sent. -/
structure AtHome (p : Process) (run : List ProcessAction) (m : Mount) : Prop where
  trusted : m.rest.Trusted (Issued p run)
  logins : ∀ login ∈ m.rest.logins, StartedBy p run login
  requests : ∀ request log, .sent request :: log <:+ m.rest.log →
    ∃ a io server caller, SentBy p run request log a io server caller ∧
      request.Home a.Starting io m.rest.servers server (Issued p run log server caller.uid)

/-- Requests that have been at home are at home, if nothing is lost. -/
theorem AtHome.older (h : AtHome p run m) {servers : ServerMap}
    (hservers : Includes m.rest.servers servers) {request : Request} {log : List Event}
    (hsent : .sent request :: log <:+ m.rest.log) (a : ProcessAction) :
    ∃ b io server caller, SentBy p (run ++ [a]) request log b io server caller ∧
      request.Home b.Starting io servers server
        (Issued p (run ++ [a]) log server caller.uid) := by
  obtain ⟨b, io, server, caller, hby, hhome⟩ := h.requests request log hsent
  exact ⟨b, io, server, caller, hby.concat a, hhome.mono hservers fun _ htoken ↦ htoken.concat a⟩

/-- The end of a login thread changes the token of its user at its server only. -/
theorem oidcLoginEnds_eq_ok {io : Io} {k : ℕ} {s t : State} (h : oidcLoginEnds io k s = .ok t) :
    ∃ login, s.logins[k]? = some login ∧ t.log = s.log ∧ t.logins = s.logins.eraseIdx k ∧
      ∀ server uid, (t.tokenOf server uid).connToken = (s.tokenOf server uid).connToken ∨
        (server, uid) = (login.server, login.caller.uid) ∧
          ((t.tokenOf server uid).connToken = getOIDC io.oidc ∨
            (t.tokenOf server uid).connToken = rucioInvalidToken) := by
  obtain ⟨login, hlogin, h⟩ := bind_eq_ok.1 h
  refine ⟨login, deref_eq_ok hlogin, ?_⟩
  simp only at h
  split_ifs at h with hempty
  · obtain rfl := Except.ok.inj h
    exact ⟨rfl, rfl, fun server uid ↦ Or.inl rfl⟩
  · have hchange := connToken_storeOidcToken h
    obtain ⟨info, rfl⟩ := exists_of_storeOidcToken h
    exact ⟨rfl, rfl, hchange⟩

/-- A request of a longer log is an old one, or on top of the old log. -/
theorem suffix_or_suffix_of_sent {request : Request} {log older newer : List Event}
    (holder : older <:+ newer) (hsent : .sent request :: log <:+ newer) :
    .sent request :: log <:+ older ∨ older <:+ log := by
  rcases List.suffix_or_suffix_of_suffix hsent holder with hold | hnew
  · exact Or.inl hold
  · rcases List.suffix_cons_iff.1 hnew with heq | hnew
    · exact Or.inl (heq ▸ List.suffix_refl _)
    · exact Or.inr hnew

/-- What the acts of a party leave at home. -/
theorem AtHome.acts (h : AtHome p run m) (hrun : exec p.step Process.start run = some m)
    (hstep : p.step m a = some m') {names : List Str} {io : Io} {server : Str} {caller : Caller}
    {s : State} (hparty : p.party a = some (io, server, caller)) (hlog : s.log = m.rest.log)
    (hlogins : s.logins = m.rest.logins) (hservers : Includes m.rest.servers s.servers)
    (htokens : ∀ server uid, s.tokenOf server uid = m.rest.tokenOf server uid)
    (hacts : Acts a.Starting io server caller s { m'.rest with serverNames := names }) :
    AtHome p (run ++ [a]) m' := by
  have hby : ∀ request log, m.rest.log <:+ log → .sent request :: log <:+ m'.rest.log →
      SentBy p (run ++ [a]) request log a io server caller :=
    fun request log hnew hsent ↦ .intro rfl hrun hstep hparty hnew hsent
  have htrusted : s.Trusted (Issued p (run ++ [a])) := fun server' uid' ↦ by
    rw [hlog, htokens]
    exact (h.trusted server' uid').concat a
  -- a login is waited for at the start only, and for the user who has started the process
  have hwaited : a.Starting → ∀ log,
      Issued p (run ++ [a]) log server caller.uid (getOIDC io.oidc) := by
    intro hstarting log
    rcases a with ⟨io', fileName⟩ | a
    · obtain ⟨rfl, heq⟩ := Prod.mk.inj (Option.some.inj hparty)
      obtain ⟨hserver, rfl⟩ := Prod.mk.inj heq
      exact .waited rfl hserver rfl
    · exact absurd hstarting id
  obtain ⟨htrusted', hhome⟩ := Acts.trusted (origins_issued p (run ++ [a])) hacts
    (fun request log token hnew hsent hlogin hbrought ↦
      .answered (hby request log (hlog ▸ hnew) hsent) rfl hlogin (List.suffix_refl _) hbrought)
    hwaited htrusted
  have hservers' : Includes s.servers m'.rest.servers := (Acts.settings hacts).includes
  refine ⟨htrusted', fun login hmem ↦ ?_, fun request log hsent ↦ ?_⟩
  · rcases Acts.logins hacts login hmem with hold | rfl
    · exact (h.logins login (hlogins ▸ hold)).concat a
    · exact ⟨run, a, [], io, rfl, hparty⟩
  · have hlonger : s.log <:+ m'.rest.log := (Acts.log_suffix hacts :)
    rw [hlog] at hlonger
    rcases suffix_or_suffix_of_sent hlonger hsent with hold | hnew
    · exact h.older (hservers.trans hservers') hold a
    · exact ⟨a, io, server, caller, hby request log hnew hsent,
        (hhome request log (hlog ▸ hnew) hsent).mono hservers' fun _ htoken ↦ htoken⟩

/-- **A step leaves everything at home.** -/
theorem AtHome.step (h : AtHome p run m) (hrun : exec p.step Process.start run = some m)
    (hstep : p.step m a = some m') : AtHome p (run ++ [a]) m' := by
  -- a step changes nothing a secret depends on, is a call on some settings, or is the end of a
  -- login
  rcases processDoes_of_step hstep with hrest | ⟨names, hparty, hs, hacts⟩ | ⟨rfl, hends⟩
  · refine ⟨fun server uid ↦ ?_, fun login hmem ↦ ?_, fun request log hsent ↦ ?_⟩
    · rw [hrest]
      exact (h.trusted server uid).concat a
    · rw [hrest] at hmem
      exact (h.logins login hmem).concat a
    · rw [hrest] at hsent ⊢
      exact h.older (sameSettings_refl _).includes hsent a
  · rcases hs with rfl | ⟨name, srv, hsrv, rfl⟩
    · exact h.acts hrun hstep hparty rfl rfl (sameSettings_refl _).includes (fun _ _ ↦ rfl) hacts
    · exact h.acts (s := m.rest.emplaceServer name srv) hrun hstep hparty rfl rfl
        (includes_emplaceServer _ _ _) (tokenOf_emplaceServer _ _ hsrv) hacts
  -- the end of a login stores its token into its own slot, in these very settings
  · obtain ⟨login, hlogin, hlog, hlogins, htokens⟩ := oidcLoginEnds_eq_ok hends
    have hservers := (quiet_oidcLoginEnds hends).settings.includes
    refine ⟨fun server uid ↦ ?_, fun other hmem ↦ ?_, fun request log hsent ↦ ?_⟩
    · rw [hlog]
      rcases htokens server uid with hsame | ⟨heq, htoken | htoken⟩
      · rw [hsame]
        exact (h.trusted server uid).concat _
      · obtain ⟨rfl, rfl⟩ := Prod.mk.inj heq
        rw [htoken]
        exact .loginEnded rfl hrun hlogin (h.logins login (List.mem_of_getElem? hlogin)) rfl rfl
      · rw [htoken]
        exact .missing
    · rw [hlogins] at hmem
      exact (h.logins other (List.mem_of_mem_eraseIdx hmem)).concat _
    · rw [hlog] at hsent
      exact h.older hservers hsent _

end Runs

end FusePosix
