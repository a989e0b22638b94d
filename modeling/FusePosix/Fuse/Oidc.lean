import FusePosix.Fuse.Gate
import FusePosix.Rest.Isolation
import FusePosix.TokenPayload

/-!
# How a login ends

In the mode `oidc` a token comes out of a file that another program has written. What the file
contains is not up to this one: any text may be in it. The login thread (`oidcLoginEnds`) and the
synchronous variant used at start-up (`rucioGetAuthTokenOidc` without a thread) both read an expiry
out of the text before they store it, and neither of them is prepared for a text that has none. The
exception of `getTokenExpiry` leaves the thread, and with it the program.

A text is read without harm exactly if it has at least three parts and the JSON library finds an
integer expiry in the second one (`CarriesExpiry`), whose year can be represented. It is stored as a
token if moreover it does not begin with a terminator: such a text looks empty where it is stored,
so `rucioInvalidToken` takes its place, and the result is `tokenOk` nevertheless.

`oidc_reports_iff` is the exact condition for both variants.
-/

namespace FusePosix

/-! ### Reading the text -/

/-- A text of at least three parts, with an expiry in the second one. -/
def CarriesExpiry (jsonExp : Str → Except Fault ℤ) (token : Str) (exp : ℤ) : Prop :=
  ∃ header payload signature, '.' ∉ header ∧ '.' ∉ payload ∧
    token = header ++ '.' :: (payload ++ '.' :: signature) ∧
    jsonExp (base64urlDecode payload) = .ok exp

/-- **When an expiry can be read**, for every text. -/
theorem getTokenExpiry_eq_ok_iff {jsonExp : Str → Except Fault ℤ} {token : Str} {exp : ℤ} :
    getTokenExpiry jsonExp token = .ok exp ↔ CarriesExpiry jsonExp token exp := by
  constructor
  · intro h
    rcases Text.notMem_or_exists_line '.' token with hnone | ⟨header, rest, hheader, rfl⟩
    · rw [getTokenExpiry, List.idxOf?_eq_none_iff.2 hnone] at h
      cases h
    rcases Text.notMem_or_exists_line '.' rest with hnone | ⟨payload, signature, hpayload, rfl⟩
    · rw [getTokenExpiry, Text.idxOf?_append_cons hheader] at h
      simp only [Text.drop_append_cons, List.idxOf?_eq_none_iff.2 hnone] at h
      cases h
    rw [getTokenExpiry_parts jsonExp signature hheader hpayload] at h
    exact ⟨header, payload, signature, hheader, hpayload, rfl, h⟩
  · rintro ⟨header, payload, signature, hheader, hpayload, rfl, h⟩
    rw [getTokenExpiry_parts jsonExp signature hheader hpayload, h]

/-! ### Storing it -/

/-- A text the code gets through: it carries an expiry that can be broken down. -/
def ReadableToken (io : Io) (token : Str) (exp : ℤ) (time : Tm) : Prop :=
  CarriesExpiry io.jsonExp token exp ∧ (∃ here, io.localtime exp = some here) ∧
    io.gmtime exp = some time

/-- What is stored for such a text. -/
def TokenInfo.ofLogin (token : Str) (exp : ℤ) (time : Tm) : TokenInfo where
  connToken := if cStrNonempty token then token else rucioInvalidToken
  connTokenExp := time
  connTokenExpEpoch := exp

/-- A token is stored, with the expiry it carries. -/
structure TokenInfo.Brought (io : Io) (token : Str) (info : TokenInfo) : Prop where
  connToken : info.connToken = token
  expiry : CarriesExpiry io.jsonExp token info.connTokenExpEpoch
  time : io.gmtime info.connTokenExpEpoch = some info.connTokenExp

section Store

variable {io : Io} {server : Str} {srv : RucioServer} {uid : ℕ} {token : Str} {s t : State}

/-- **Storing returns exactly for readable texts.** -/
theorem storeOidcToken_eq_ok_iff :
    storeOidcToken io server uid token s = .ok t ↔ ∃ exp time, ReadableToken io token exp time ∧
      t = { s with
        servers := storeToken s.servers server uid (TokenInfo.ofLogin token exp time) } := by
  constructor
  · intro h
    obtain ⟨exp, hexp, h⟩ := bind_eq_ok.1 h
    obtain ⟨here, hhere, h⟩ := bind_eq_ok.1 h
    obtain ⟨time, htime, h⟩ := bind_eq_ok.1 h
    exact ⟨exp, time, ⟨getTokenExpiry_eq_ok_iff.1 hexp, ⟨here, deref_eq_ok hhere⟩,
      deref_eq_ok htime⟩, (Except.ok.inj h).symm⟩
  · rintro ⟨exp, time, ⟨hexp, ⟨here, hhere⟩, htime⟩, rfl⟩
    rw [storeOidcToken, getTokenExpiry_eq_ok_iff.2 hexp]
    simp only [ok_bind, hhere, htime, deref_some]
    rfl

/-- The marker takes the place of a text that looks empty. -/
theorem brought_ofLogin_iff {exp : ℤ} {time : Tm} (h : ReadableToken io token exp time) :
    (TokenInfo.ofLogin token exp time).Brought io token ↔ cStrNonempty token = true := by
  constructor
  · intro hbrought
    by_contra hempty
    have hmarker : (if cStrNonempty token then token else rucioInvalidToken) = token :=
      hbrought.connToken
    rw [if_neg hempty] at hmarker
    rw [← hmarker] at hempty
    exact hempty (by decide +kernel)
  · intro hnonempty
    exact ⟨if_pos hnonempty, h.1, h.2.2⟩

end Store

/-! ### Both variants -/

/-- The condition: the login brings no text, or one that is readable and does not look empty. -/
def Reportable (io : Io) : Prop :=
  getOIDC io.oidc = [] ∨
    ∃ exp time, ReadableToken io (getOIDC io.oidc) exp time ∧ cStrNonempty (getOIDC io.oidc) = true

/-- Without a thread: the call returns, and it returns `tokenOk` for a token that is stored with its
expiry only. Otherwise what is stored stays. -/
def SyncReports (io : Io) (server : Str) (caller : Caller) (s : State) : Prop :=
  ∃ result u, rucioGetAuthTokenOidc io server caller false s = .ok (result, u) ∧
    (result = .tokenOk → (u.tokenOf server caller.uid).Brought io (getOIDC io.oidc)) ∧
    (result ≠ .tokenOk → u.tokenOf server caller.uid = s.tokenOf server caller.uid)

/-- In a thread: it ends, and either the token is stored with its expiry or what is stored stays. -/
def ThreadReports (io : Io) (k : ℕ) (login : Login) (s : State) : Prop :=
  ∃ u, oidcLoginEnds io k s = .ok u ∧
    ((u.tokenOf login.server login.caller.uid).Brought io (getOIDC io.oidc) ∨
      u.tokenOf login.server login.caller.uid = s.tokenOf login.server login.caller.uid)

section Variants

variable {io : Io} {server : Str} {srv : RucioServer} {caller : Caller} {s : State}

/-- The synchronous variant for a loaded server. -/
theorem rucioGetAuthTokenOidc_waits (hfind : s.servers.find server = some srv) :
    rucioGetAuthTokenOidc io server caller false s =
      if getOIDC io.oidc = [] then .ok (.tokenError, s)
      else (storeOidcToken io server caller.uid (getOIDC io.oidc)
        (s.lookedUp server srv caller.uid)).map fun u ↦ (.tokenOk, u) := by
  have hbundle : getServerOIDCBundle s.servers server =
      some ⟨srv.configFilePath, srv.tempConfigFolder⟩ := by
    rw [getServerOIDCBundle, hfind, Option.map_some]
  rw [rucioGetAuthTokenOidc, getServerParams_of_find hfind]
  simp only [hbundle, deref_some, ok_bind, Bool.false_eq_true, if_false, List.length_eq_zero_iff,
    getServerToken_of_find hfind]
  rfl

/-- **When the synchronous variant reports its errors.** -/
theorem syncReports_iff :
    SyncReports io server caller s ↔ s.servers.find server = none ∨ Reportable io := by
  rcases hfind : s.servers.find server with - | srv
  · refine iff_of_true ⟨.serverNotLoaded, s, ?_, AuthResult.noConfusion, fun _ ↦ rfl⟩ (Or.inl rfl)
    rw [rucioGetAuthTokenOidc, getServerParams_eq_none hfind]
    rfl
  · have hlooked := @find_lookedUp server srv caller.uid s hfind
    rw [SyncReports, rucioGetAuthTokenOidc_waits hfind, Reportable]
    rcases eq_or_ne (getOIDC io.oidc) [] with hnil | htext
    · rw [if_pos hnil]
      exact iff_of_true ⟨.tokenError, s, rfl, AuthResult.noConfusion, fun _ ↦ rfl⟩
        (Or.inr (Or.inl hnil))
    · rw [if_neg htext]
      constructor
      · rintro ⟨result, u, hrun, hok, -⟩
        obtain ⟨u', hstore, heq⟩ := map_eq_ok hrun
        obtain ⟨rfl, rfl⟩ := Prod.mk.inj heq
        obtain ⟨exp, time, hreadable, rfl⟩ := storeOidcToken_eq_ok_iff.1 hstore
        have hbrought := hok rfl
        rw [tokenOf_storeToken_self hlooked, brought_ofLogin_iff hreadable] at hbrought
        exact Or.inr (Or.inr ⟨exp, time, hreadable, hbrought⟩)
      · rintro (h | h | ⟨exp, time, hreadable, hnonempty⟩)
        · cases h
        · exact absurd h htext
        · rw [storeOidcToken_eq_ok_iff.2 ⟨exp, time, hreadable, rfl⟩]
          refine ⟨.tokenOk, _, rfl, fun _ ↦ ?_, fun h ↦ absurd rfl h⟩
          rw [tokenOf_storeToken_self hlooked]
          exact (brought_ofLogin_iff hreadable).2 hnonempty

/-- The thread of a login. -/
theorem oidcLoginEnds_of_getElem? {k : ℕ} {login : Login} (hlogin : s.logins[k]? = some login) :
    oidcLoginEnds io k s =
      if getOIDC io.oidc = [] then .ok { s with logins := s.logins.eraseIdx k }
      else storeOidcToken io login.server login.caller.uid (getOIDC io.oidc)
        { s with logins := s.logins.eraseIdx k } := by
  rw [oidcLoginEnds, hlogin]
  simp only [deref_some, ok_bind, List.length_eq_zero_iff]
  rfl

/-- **When a login thread reports its errors.** A text that looks empty makes no difference if the
marker that takes its place is there already. -/
theorem threadReports_iff {k : ℕ} {login : Login} (hlogin : s.logins[k]? = some login)
    (hfind : s.servers.find login.server = some srv) :
    ThreadReports io k login s ↔ Reportable io ∨
      ∃ exp time, ReadableToken io (getOIDC io.oidc) exp time ∧
        s.tokenOf login.server login.caller.uid = ⟨rucioInvalidToken, time, exp⟩ := by
  have hfind' : ({ s with logins := s.logins.eraseIdx k } : State).servers.find login.server =
      some srv := hfind
  rw [ThreadReports, oidcLoginEnds_of_getElem? hlogin, Reportable]
  rcases eq_or_ne (getOIDC io.oidc) [] with hnil | htext
  · rw [if_pos hnil]
    exact iff_of_true ⟨_, rfl, Or.inr rfl⟩ (Or.inl (Or.inl hnil))
  · rw [if_neg htext]
    constructor
    · rintro ⟨u, hstore, hkept⟩
      obtain ⟨exp, time, hreadable, rfl⟩ := storeOidcToken_eq_ok_iff.1 hstore
      rw [tokenOf_storeToken_self hfind', brought_ofLogin_iff hreadable] at hkept
      rcases hempty : cStrNonempty (getOIDC io.oidc) with - | -
      · rcases hkept with hbrought | hsame
        · rw [hempty] at hbrought
          cases hbrought
        · refine Or.inr ⟨exp, time, hreadable, ?_⟩
          rw [← hsame, TokenInfo.ofLogin, hempty, if_neg Bool.false_ne_true]
      · exact Or.inl (Or.inr ⟨exp, time, hreadable, rfl⟩)
    · rintro ((h | ⟨exp, time, hreadable, hnonempty⟩) | ⟨exp, time, hreadable, hsame⟩)
      · exact absurd h htext
      · refine ⟨_, storeOidcToken_eq_ok_iff.2 ⟨exp, time, hreadable, rfl⟩, Or.inl ?_⟩
        rw [tokenOf_storeToken_self hfind']
        exact (brought_ofLogin_iff hreadable).2 hnonempty
      · refine ⟨_, storeOidcToken_eq_ok_iff.2 ⟨exp, time, hreadable, rfl⟩, ?_⟩
        rw [tokenOf_storeToken_self hfind', brought_ofLogin_iff hreadable]
        rcases hempty : cStrNonempty (getOIDC io.oidc) with - | -
        · rw [hsame, TokenInfo.ofLogin, hempty, if_neg Bool.false_ne_true]
          exact Or.inr rfl
        · exact Or.inl rfl

/-- **When logins report their errors.** For every content of the user's token file, and whatever
else happens to the login. Without a thread: if the server is not loaded, or the login brings no
text or one that is readable and does not look empty. In a thread: under the same condition on the
text, and also if the marker of an invalid token is stored with the same expiry already. -/
theorem oidc_reports_iff (io : Io) (server : Str) (caller : Caller) (s : State) :
    (SyncReports io server caller s ↔ s.servers.find server = none ∨ Reportable io) ∧
    ∀ (k : ℕ) (login : Login) (srv : RucioServer), s.logins[k]? = some login →
      s.servers.find login.server = some srv →
      (ThreadReports io k login s ↔ Reportable io ∨
        ∃ exp time, ReadableToken io (getOIDC io.oidc) exp time ∧
          s.tokenOf login.server login.caller.uid = ⟨rucioInvalidToken, time, exp⟩) :=
  ⟨syncReports_iff, fun _ _ _ hlogin hfind ↦ threadReports_iff hlogin hfind⟩

end Variants

/-- A user who is logging in at the server `s`. -/
def samplePending : State :=
  { servers := sampleServers, serverNames := [['s']], logins := [⟨['s'], sampleCaller⟩] }

/-- The payload of a token that expires at the time 5. -/
def samplePayload : Str := "\x7b\"exp\":5\x7d".toList

/-- A world where a login leaves a text behind. -/
def loginIo (text : Str) : Io :=
  { sampleIo with
    oidc := ⟨true, true, true, some text⟩
    jsonExp := fun payload ↦ if payload = samplePayload then .ok 5 else .error .json }

/-- A login that leaves a token behind is reported, with and without a thread. -/
theorem oidc_reports_token :
    SyncReports (loginIo "h.eyJleHAiOjV9.s\n".toList) ['s'] sampleCaller samplePending ∧
      ThreadReports (loginIo "h.eyJleHAiOjV9.s\n".toList) 0 ⟨['s'], sampleCaller⟩
        samplePending := by
  have htext : getOIDC (loginIo "h.eyJleHAiOjV9.s\n".toList).oidc = "h.eyJleHAiOjV9.s".toList ∧
      base64urlDecode "eyJleHAiOjV9".toList = samplePayload ∧
      cStrNonempty "h.eyJleHAiOjV9.s".toList = true := by
    decide +kernel
  have hcarries : CarriesExpiry (loginIo "h.eyJleHAiOjV9.s\n".toList).jsonExp
      "h.eyJleHAiOjV9.s".toList 5 := by
    refine ⟨['h'], "eyJleHAiOjV9".toList, ['s'], by decide, by decide +kernel,
      by decide +kernel, ?_⟩
    rw [htext.2.1]
    show (if samplePayload = samplePayload then Except.ok 5 else .error Fault.json) = .ok 5
    rw [if_pos rfl]
  have hreportable : Reportable (loginIo "h.eyJleHAiOjV9.s\n".toList) := by
    rw [Reportable, htext.1]
    exact Or.inr ⟨5, _, ⟨hcarries, ⟨_, rfl⟩, rfl⟩, htext.2.2⟩
  obtain ⟨hsync, hthread⟩ := oidc_reports_iff (loginIo "h.eyJleHAiOjV9.s\n".toList) ['s']
    sampleCaller samplePending
  exact ⟨hsync.2 (Or.inr hreportable),
    (hthread 0 ⟨['s'], sampleCaller⟩ sampleServer rfl rfl).2 (Or.inl hreportable)⟩

/-- **A text without dots ends the program**, on either way. -/
theorem not_oidc_reports_abc :
    ¬ (∀ (io : Io) (server : Str) (caller : Caller) (s : State),
        SyncReports io server caller s ∧ ∀ (k : ℕ) (login : Login) (srv : RucioServer),
          s.logins[k]? = some login → s.servers.find login.server = some srv →
          ThreadReports io k login s) ∧
    (rucioGetAuthTokenOidc (loginIo "abc".toList) ['s'] sampleCaller false samplePending).map
      Prod.fst = .error .runtimeError ∧
    (oidcLoginEnds (loginIo "abc".toList) 0 samplePending).map State.serverNames =
      .error .runtimeError := by
  have hruns : (rucioGetAuthTokenOidc (loginIo "abc".toList) ['s'] sampleCaller false
        samplePending).map Prod.fst = .error .runtimeError ∧
      (oidcLoginEnds (loginIo "abc".toList) 0 samplePending).map State.serverNames =
        .error .runtimeError := by
    decide +kernel
  refine ⟨fun hall ↦ ?_, hruns⟩
  obtain ⟨result, u, hrun, -⟩ := (hall (loginIo "abc".toList) ['s'] sampleCaller samplePending).1
  have hthrows := hruns.1
  rw [hrun] at hthrows
  cases hthrows

end FusePosix
