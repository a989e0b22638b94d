import FusePosix.Fuse.Headers

/-!
# Token and expiry of one response

A response replaces the token of a user as a whole. The expiry is not replaced as a whole:
`strptime` writes it over the broken-down time of the previous token, nobody looks at whether it got
to the end, and `mktime` reads all fields, the one for daylight saving time among them, which
`strptime` never writes.

`updated_together_iff` says for which responses token and expiry belong together all the same. What
is assumed about the C library is what is documented: conversions are made in the order of the
format up to the first one that does not match (`StopsAtMismatch`), and `mktime` counts seconds
(`CountsSeconds`).
-/

namespace FusePosix

/-! ### The C library -/

/-- Two broken-down times that `mktime` cannot tell apart. -/
structure Tm.Same (tm tm' : Tm) : Prop where
  sec : tm.sec = tm'.sec
  min : tm.min = tm'.min
  hour : tm.hour = tm'.hour
  mday : tm.mday = tm'.mday
  mon : tm.mon = tm'.mon
  year : tm.year = tm'.year
  isdst : tm.isdst = tm'.isdst

/-- The day and the minute are in their ranges, and the year is one `%Y` reads. -/
structure Tm.Ordinary (tm : Tm) : Prop where
  min : 0 ≤ tm.min ∧ tm.min ≤ 59
  hour : 0 ≤ tm.hour ∧ tm.hour ≤ 23
  mday : 1 ≤ tm.mday ∧ tm.mday ≤ 31
  mon : 0 ≤ tm.mon ∧ tm.mon ≤ 11
  year : -1900 ≤ tm.year ∧ tm.year ≤ 8099

/-- `strptime` with the format `%a, %d %b %Y %H:%M:%S`: of a text it matches the first `reached`
conversions, writes what it has read for them, and leaves the fields of the others. -/
structure StopsAtMismatch (strptime : Str → Tm → Tm) (reached : Str → ℕ) (read : Str → Tm) :
    Prop where
  mday : ∀ text tm, (strptime text tm).mday =
    if 2 ≤ reached text then (read text).mday else tm.mday
  mon : ∀ text tm, (strptime text tm).mon = if 3 ≤ reached text then (read text).mon else tm.mon
  year : ∀ text tm, (strptime text tm).year =
    if 4 ≤ reached text then (read text).year else tm.year
  hour : ∀ text tm, (strptime text tm).hour =
    if 5 ≤ reached text then (read text).hour else tm.hour
  min : ∀ text tm, (strptime text tm).min = if 6 ≤ reached text then (read text).min else tm.min
  sec : ∀ text tm, (strptime text tm).sec = if 7 ≤ reached text then (read text).sec else tm.sec
  isdst : ∀ text tm, (strptime text tm).isdst = tm.isdst
  ordinary : ∀ text, (read text).Ordinary

/-- `mktime` reads date, time and the flag for daylight saving time, and counts seconds. -/
structure CountsSeconds (mktime : Tm → ℤ × Tm) : Prop where
  same : ∀ tm tm' : Tm, tm.Same tm' → (mktime tm).1 = (mktime tm').1
  next : ∀ tm : Tm, tm.Ordinary →
    (mktime { tm with sec := 1 }).1 = (mktime { tm with sec := 0 }).1 + 1

section Library

variable {strptime : Str → Tm → Tm} {reached : Str → ℕ} {read : Str → Tm} {text : Str}

/-- A text that is read to its end determines the time but for the flag. -/
theorem StopsAtMismatch.same_of_reached (h : StopsAtMismatch strptime reached read)
    (hreached : 7 ≤ reached text) (tm : Tm) :
    (strptime text tm).Same { read text with isdst := tm.isdst } where
  sec := (h.sec text tm).trans (if_pos hreached)
  min := (h.min text tm).trans (if_pos (by omega))
  hour := (h.hour text tm).trans (if_pos (by omega))
  mday := (h.mday text tm).trans (if_pos (by omega))
  mon := (h.mon text tm).trans (if_pos (by omega))
  year := (h.year text tm).trans (if_pos (by omega))
  isdst := h.isdst text tm

/-- A text that is not read to its end leaves the seconds. -/
theorem StopsAtMismatch.same_of_not_reached (h : StopsAtMismatch strptime reached read)
    (hreached : ¬ 7 ≤ reached text) (sec : ℤ) :
    (strptime text { read text with sec }).Same { read text with sec } where
  sec := (h.sec text _).trans (if_neg hreached)
  min := (h.min text _).trans (ite_self _)
  hour := (h.hour text _).trans (ite_self _)
  mday := (h.mday text _).trans (ite_self _)
  mon := (h.mon text _).trans (ite_self _)
  year := (h.year text _).trans (ite_self _)
  isdst := h.isdst text _

end Library

/-! ### The expiry -/

/-- The text of the expiry, as it is handed to `strptime`. -/
def expiryText (payload : List Str) : Str :=
  cStr (if cStrNonempty (lastField rucioTokenDurationPrefix payload) then
    lastField rucioTokenDurationPrefix payload else rucioDefaultExp)

/-- The time that is stored for a response, by the broken-down time of the previous token. -/
def timeOver (io : Io) (payload : List Str) (previous : Tm) : ℤ :=
  (io.mktime { io.strptime (expiryText payload) previous with zone := "UTC".toList }).1

theorem connTokenExpEpoch_replaced (io : Io) (prior : TokenInfo) (payload : List Str) :
    (prior.replaced io payload).connTokenExpEpoch =
      timeOver io payload prior.connTokenExp - io.timezone :=
  rfl

/-- The condition on a response: the text of its expiry is read up to the seconds, and the time in
it is the same with and without daylight saving time. -/
structure SelfContained (io : Io) (reached : Str → ℕ) (read : Str → Tm) (payload : List Str) :
    Prop where
  reached : 7 ≤ reached (expiryText payload)
  isdst : ∀ d d' : ℤ, (io.mktime { read (expiryText payload) with isdst := d }).1 =
    (io.mktime { read (expiryText payload) with isdst := d' }).1

section Time

variable {io : Io} {reached : Str → ℕ} {read : Str → Tm} {payload : List Str}

/-- The zone is not read. -/
theorem timeOver_eq_of_same (hmktime : CountsSeconds io.mktime) {previous tm : Tm}
    (h : (io.strptime (expiryText payload) previous).Same tm) :
    timeOver io payload previous = (io.mktime tm).1 :=
  hmktime.same _ _ ⟨h.sec, h.min, h.hour, h.mday, h.mon, h.year, h.isdst⟩

/-- **The time is that of the response** exactly if its text is complete and the flag does not
matter. -/
theorem timeOver_const_iff (hstrptime : StopsAtMismatch io.strptime reached read)
    (hmktime : CountsSeconds io.mktime) :
    (∀ tm tm', timeOver io payload tm = timeOver io payload tm') ↔
      SelfContained io reached read payload := by
  set text := expiryText payload with htext
  refine ⟨fun h ↦ ?_, fun h tm tm' ↦ ?_⟩
  · have hreached : 7 ≤ reached text := by
      by_contra hcontra
      have hsec : ∀ sec, timeOver io payload { read text with sec } =
          (io.mktime { read text with sec }).1 := fun sec ↦
        timeOver_eq_of_same hmktime (hstrptime.same_of_not_reached hcontra sec)
      have hnext := hmktime.next (read text) (hstrptime.ordinary text)
      rw [← hsec 1, ← hsec 0, h { read text with sec := 1 } { read text with sec := 0 }] at hnext
      omega
    refine ⟨hreached, fun d d' ↦ ?_⟩
    have hflag : ∀ d, timeOver io payload { isdst := d } =
        (io.mktime { read text with isdst := d }).1 := fun d ↦
      timeOver_eq_of_same hmktime (hstrptime.same_of_reached hreached { isdst := d })
    rw [← hflag d, ← hflag d', h]
  · rw [timeOver_eq_of_same hmktime (hstrptime.same_of_reached h.reached tm),
      timeOver_eq_of_same hmktime (hstrptime.same_of_reached h.reached tm')]
    exact h.isdst tm.isdst tm'.isdst

end Time

/-! ### Both together -/

/-- The state in which a user has a given token of a server. -/
def State.withToken (s : State) (server : Str) (uid : ℕ) (info : TokenInfo) : State :=
  { s with servers := storeToken s.servers server uid info }

/-- Token and expiry are updated together: a call that does not answer `tokenOk` leaves both, and
two calls that do leave the same, whatever was stored before. -/
structure UpdatedTogether (io : Io) (mode : AuthMode) (server : Str) (caller : Caller) (s : State) :
    Prop where
  kept : ∀ prior result u,
    requestToken io mode server caller (s.withToken server caller.uid prior) = .ok (result, u) →
      result ≠ .tokenOk → (u.tokenOf server caller.uid).connToken = prior.connToken ∧
        (u.tokenOf server caller.uid).connTokenExpEpoch = prior.connTokenExpEpoch
  renewed : ∀ prior prior' u u',
    requestToken io mode server caller (s.withToken server caller.uid prior) = .ok (.tokenOk, u) →
      requestToken io mode server caller (s.withToken server caller.uid prior') =
        .ok (.tokenOk, u') →
        (u.tokenOf server caller.uid).connToken = (u'.tokenOf server caller.uid).connToken ∧
          (u.tokenOf server caller.uid).connTokenExpEpoch =
            (u'.tokenOf server caller.uid).connTokenExpEpoch

section Calls

variable {io : Io} {mode : AuthMode} {server : Str} {srv : RucioServer} {caller : Caller}
  {s : State} {ret : CurlRet}

/-- What a call leaves behind, for any prior token. -/
theorem requestToken_withToken (hmode : mode = .userpass ∨ mode = .x509)
    (hfind : s.servers.find server = some srv) (hnet : ∀ log request, io.net log request = ret)
    (prior : TokenInfo) : ∃ result u,
      requestToken io mode server caller (s.withToken server caller.uid prior) = .ok (result, u) ∧
        (ret.ok = true ∧ ¬ Refused ret.payload → result = .tokenOk ∧
          u.tokenOf server caller.uid = prior.replaced io ret.payload) ∧
        (¬ (ret.ok = true ∧ ¬ Refused ret.payload) → result ≠ .tokenOk ∧
          u.tokenOf server caller.uid = prior) := by
  have hloaded : (s.withToken server caller.uid prior).servers.find server =
      some (srv.setToken caller.uid prior) := find_storeToken_self hfind prior
  obtain ⟨result, u, hrequest, haccepted, hkept⟩ :=
    @requestToken_spec io server _ caller _ ret mode hmode hloaded hnet
  rw [token_setToken] at haccepted hkept
  exact ⟨result, u, hrequest, haccepted, hkept⟩

/-- A call that is not answered `tokenOk` changes nothing. -/
theorem kept_of_requestToken (hmode : mode = .userpass ∨ mode = .x509)
    (hfind : s.servers.find server = some srv) (hnet : ∀ log request, io.net log request = ret)
    {prior : TokenInfo} {result : AuthResult} {u : State}
    (h : requestToken io mode server caller (s.withToken server caller.uid prior) = .ok (result, u))
    (hresult : result ≠ .tokenOk) : u.tokenOf server caller.uid = prior := by
  obtain ⟨result', u', hrequest, haccepted, hkept⟩ :=
    @requestToken_withToken io mode server srv caller s ret hmode hfind hnet prior
  obtain ⟨rfl, rfl⟩ := Prod.mk.inj (Except.ok.inj (h.symm.trans hrequest))
  exact (hkept fun hok ↦ hresult (haccepted hok).1).2

/-- A call that is answered `tokenOk` has an accepted response, and replaces the token by it. -/
theorem replaced_of_requestToken (hmode : mode = .userpass ∨ mode = .x509)
    (hfind : s.servers.find server = some srv) (hnet : ∀ log request, io.net log request = ret)
    {prior : TokenInfo} {u : State}
    (h : requestToken io mode server caller (s.withToken server caller.uid prior) =
      .ok (.tokenOk, u)) :
    (ret.ok = true ∧ ¬ Refused ret.payload) ∧
      u.tokenOf server caller.uid = prior.replaced io ret.payload := by
  obtain ⟨result, u', hrequest, haccepted, hkept⟩ :=
    @requestToken_withToken io mode server srv caller s ret hmode hfind hnet prior
  obtain ⟨rfl, rfl⟩ := Prod.mk.inj (Except.ok.inj (h.symm.trans hrequest))
  have hok : ret.ok = true ∧ ¬ Refused ret.payload := by
    by_contra hcontra
    exact (hkept hcontra).1 rfl
  exact ⟨hok, (haccepted hok).2⟩

end Calls

/-- **When token and expiry belong together.** For every user of a loaded server, in the modes
`userpass` and `x509`, and every response: token and expiry are updated together if and only if the
response fails, refuses the user, or has an expiry that stands for itself; a response without an
expiry has the default one. -/
theorem updated_together_iff {io : Io} {reached : Str → ℕ} {read : Str → Tm} {mode : AuthMode}
    {server : Str} {srv : RucioServer} {caller : Caller} {s : State} {ret : CurlRet}
    (hstrptime : StopsAtMismatch io.strptime reached read) (hmktime : CountsSeconds io.mktime)
    (hmode : mode = .userpass ∨ mode = .x509) (hfind : s.servers.find server = some srv)
    (hnet : ∀ log request, io.net log request = ret) :
    UpdatedTogether io mode server caller s ↔
      (ret.ok = true ∧ ¬ Refused ret.payload → SelfContained io reached read ret.payload) := by
  refine ⟨fun h haccepted ↦ ?_, fun h ↦ ⟨?_, ?_⟩⟩
  · have haccept : ∀ prior, ∃ u,
        requestToken io mode server caller (s.withToken server caller.uid prior) =
          .ok (.tokenOk, u) ∧ u.tokenOf server caller.uid = prior.replaced io ret.payload := by
      intro prior
      obtain ⟨result, u, hrequest, hresult, -⟩ := requestToken_withToken hmode hfind hnet prior
      obtain ⟨rfl, hu⟩ := hresult haccepted
      exact ⟨u, hrequest, hu⟩
    rw [← timeOver_const_iff hstrptime hmktime]
    intro tm tm'
    obtain ⟨u, hrequest, hu⟩ := haccept { connTokenExp := tm }
    obtain ⟨u', hrequest', hu'⟩ := haccept { connTokenExp := tm' }
    have hepoch := (h.renewed _ _ u u' hrequest hrequest').2
    rw [hu, hu', connTokenExpEpoch_replaced, connTokenExpEpoch_replaced] at hepoch
    exact (Int.sub_left_inj io.timezone).1 hepoch
  · intro prior result u hrequest hresult
    rw [kept_of_requestToken hmode hfind hnet hrequest hresult]
    exact ⟨rfl, rfl⟩
  · intro prior prior' u u' hrequest hrequest'
    obtain ⟨hok, hu⟩ := replaced_of_requestToken hmode hfind hnet hrequest
    obtain ⟨-, hu'⟩ := replaced_of_requestToken hmode hfind hnet hrequest'
    rw [hu, hu', connTokenExpEpoch_replaced, connTokenExpEpoch_replaced,
      (timeOver_const_iff hstrptime hmktime).2 (h hok) prior.connTokenExp prior'.connTokenExp]
    exact ⟨rfl, rfl⟩

/-- A clock without daylight saving time that knows January 1970. -/
def januaryTime (tm : Tm) : ℤ × Tm :=
  (tm.sec + 60 * tm.min + 3600 * tm.hour + 86400 * (tm.mday - 1), tm)

theorem countsSeconds_januaryTime : CountsSeconds januaryTime where
  same tm tm' h := by
    show tm.sec + 60 * tm.min + 3600 * tm.hour + 86400 * (tm.mday - 1) = _
    rw [h.sec, h.min, h.hour, h.mday]
    rfl
  next tm _ := by
    show 1 + 60 * tm.min + 3600 * tm.hour + 86400 * (tm.mday - 1) =
      0 + 60 * tm.min + 3600 * tm.hour + 86400 * (tm.mday - 1) + 1
    omega

/-- The world of a server that sends a token without an expiry. -/
def undatedIo : Io := { sampleIo with
  net := fun _ _ ↦ ⟨0, ["X-Rucio-Auth-Token: t\r\n".toList]⟩
  mktime := januaryTime }

/-- A response without an expiry has the default one, which stands for itself. -/
theorem updated_together_undated :
    UpdatedTogether undatedIo .userpass ['s'] sampleCaller sampleNewcomer := by
  have hstrptime : StopsAtMismatch undatedIo.strptime (fun _ ↦ 7)
      (fun _ ↦ { sec := 3, min := 2, hour := 1, mday := 1, year := 70 }) :=
    ⟨fun _ _ ↦ rfl, fun _ _ ↦ rfl, fun _ _ ↦ rfl, fun _ _ ↦ rfl, fun _ _ ↦ rfl, fun _ _ ↦ rfl,
      fun _ _ ↦ rfl, fun _ ↦ ⟨by decide, by decide, by decide, by decide, by decide⟩⟩
  have hiff := @updated_together_iff undatedIo _ _ .userpass ['s'] sampleServer sampleCaller
    sampleNewcomer _ hstrptime countsSeconds_januaryTime (Or.inl rfl) rfl fun _ _ ↦ rfl
  exact hiff.2 fun _ ↦ ⟨le_rfl, fun _ _ ↦ rfl⟩

/-- The world of a server that sends an expiry `strptime` makes nothing of. -/
def vagueIo : Io := { sampleIo with
  net := fun _ _ ↦ ⟨0, ["X-Rucio-Auth-Token: t\r\n".toList,
    "X-Rucio-Auth-Token-Expires: soon\r\n".toList]⟩
  strptime := fun _ tm ↦ tm
  mktime := januaryTime }

/-- With an expiry that cannot be read, the new token gets the expiry of the old one. -/
theorem not_updatedTogether_vague : ¬ ∀ (io : Io) (reached : Str → ℕ) (read : Str → Tm)
    (mode : AuthMode) (server : Str) (srv : RucioServer) (caller : Caller) (s : State)
    (ret : CurlRet), StopsAtMismatch io.strptime reached read → CountsSeconds io.mktime →
    mode = .userpass ∨ mode = .x509 → s.servers.find server = some srv →
    (∀ log request, io.net log request = ret) → UpdatedTogether io mode server caller s := by
  intro hall
  have hstrptime : StopsAtMismatch vagueIo.strptime (fun _ ↦ 0) (fun _ ↦ { mday := 1 }) :=
    ⟨fun _ _ ↦ rfl, fun _ _ ↦ rfl, fun _ _ ↦ rfl, fun _ _ ↦ rfl, fun _ _ ↦ rfl, fun _ _ ↦ rfl,
      fun _ _ ↦ rfl, fun _ ↦ ⟨by decide, by decide, by decide, by decide, by decide⟩⟩
  have htogether := hall vagueIo _ _ .userpass ['s'] sampleServer sampleCaller sampleNewcomer _
    hstrptime countsSeconds_januaryTime (Or.inl rfl) rfl fun _ _ ↦ rfl
  have hruns : ∀ sec ∈ [(1 : ℤ), 2],
      (requestToken vagueIo .userpass ['s'] sampleCaller (sampleNewcomer.withToken ['s'] 7
        { connTokenExp := { sec, mday := 1 } })).map
          (fun done ↦ (done.1, (done.2.tokenOf ['s'] 7).connTokenExpEpoch)) =
            .ok (.tokenOk, sec) := by
    decide +kernel
  have hrun : ∀ sec ∈ [(1 : ℤ), 2], ∃ u,
      requestToken vagueIo .userpass ['s'] sampleCaller (sampleNewcomer.withToken ['s'] 7
        { connTokenExp := { sec, mday := 1 } }) = .ok (.tokenOk, u) ∧
          (u.tokenOf ['s'] 7).connTokenExpEpoch = sec := by
    intro sec hsec
    obtain ⟨⟨result, u⟩, hrequest, hdone⟩ := map_eq_ok (hruns sec hsec)
    obtain ⟨rfl, hepoch⟩ := Prod.mk.inj hdone
    exact ⟨u, hrequest, hepoch⟩
  obtain ⟨u, hrequest, hepoch⟩ := hrun 1 (by decide)
  obtain ⟨u', hrequest', hepoch'⟩ := hrun 2 (by decide)
  have hsame := (htogether.renewed _ _ u u' hrequest hrequest').2
  exact absurd (hepoch.symm.trans (hsame.trans hepoch')) (by decide)

end FusePosix
