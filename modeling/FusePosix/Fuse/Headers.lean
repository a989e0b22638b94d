import FusePosix.Fuse.Gate
import FusePosix.Rest.Isolation

/-!
# What is taken from the headers of a response

A token and its expiry come in two header fields. libcurl hands over one line after the other, each
with its line end. The loop looks for each prefix anywhere in a line and then drops as many
characters at the front of the line; what is left keeps the line end.

So no token arrives as it was sent (`token_extraction_iff`): what is stored ends with CR LF, and the
header of every later request with it. Or the name of the field is spelled differently, as under
HTTP/2, and nothing is found; then the marker of an invalid token is stored, which is what was sent
only if that marker was sent.
-/

namespace FusePosix

/-! ### What is stored for a response -/

section Stored

variable {io : Io} {server : Str} {srv : RucioServer} {caller : Caller} {s : State} {ret : CurlRet}
  {mode : AuthMode}

/-- In the request modes, asking for a token is one exchange. -/
theorem requestToken_eq_receiveToken (hmode : mode = .userpass ∨ mode = .x509)
    (hfind : s.servers.find server = some srv) (hnet : ∀ log request, io.net log request = ret) :
    ∃ v, v.servers = s.servers ∧
      requestToken io mode server caller s = .ok (receiveToken io server caller.uid ret v) := by
  have hparams := getServerParams_of_find hfind
  rcases hmode with rfl | rfl
  · refine ⟨s.note (.sent (userpassRequest srv.rucioConnParams).asSent), rfl, ?_⟩
    rw [requestToken, rucioGetAuthTokenUserpass, hparams]
    simp only [safeGET_eq, curlGET_eq, hnet]
    rfl
  · refine ⟨s.note (.sent (x509Request srv.rucioConnParams (srv.sslBundle io.readFile)).asSent),
      rfl, ?_⟩
    rw [requestToken, rucioGetAuthTokenX509, hparams]
    simp only [getServerSSLBundle_of_find hfind, deref_some, ok_bind, curlGET_eq, hnet]
    rfl

/-- The token that is stored for a response nobody objects to. -/
def TokenInfo.replaced (io : Io) (prior : TokenInfo) (payload : List Str) : TokenInfo :=
  prior.renewed io (lastField rucioTokenPrefix payload) (lastField rucioTokenDurationPrefix payload)

/-- **A response is accepted or changes nothing.** -/
theorem requestToken_spec (hmode : mode = .userpass ∨ mode = .x509)
    (hfind : s.servers.find server = some srv) (hnet : ∀ log request, io.net log request = ret) :
    ∃ result u, requestToken io mode server caller s = .ok (result, u) ∧
      (ret.ok = true ∧ ¬ Refused ret.payload → result = .tokenOk ∧
        u.tokenOf server caller.uid = (srv.token caller.uid).replaced io ret.payload) ∧
      (¬ (ret.ok = true ∧ ¬ Refused ret.payload) → result ≠ .tokenOk ∧
        u.tokenOf server caller.uid = srv.token caller.uid) := by
  obtain ⟨v, hservers, hrequest⟩ :=
    @requestToken_eq_receiveToken io server srv caller s ret mode hmode hfind hnet
  have hfindv : v.servers.find server = some srv := hservers ▸ hfind
  rw [hrequest]
  by_cases haccepted : ret.ok = true ∧ ¬ Refused ret.payload
  · rw [receiveToken_accepted hfindv haccepted]
    refine ⟨_, _, rfl, fun _ ↦ ⟨rfl, ?_⟩, absurd haccepted⟩
    exact tokenOf_storeToken_self (@find_lookedUp server srv caller.uid v hfindv) _
  · obtain ⟨result, hresult, heq⟩ :=
      @exists_receiveToken_rejected io server caller.uid v ret haccepted
    rw [heq]
    exact ⟨result, v, rfl, fun h ↦ absurd h haccepted, fun _ ↦ ⟨hresult, tokenOf_of_find hfindv⟩⟩

end Stored

/-! ### Header lines -/

/-- The end of a line. -/
def crlf : Str := ['\r', '\n']

/-- A line of a header, as libcurl delivers it. -/
def HeaderLine (line : Str) : Prop :=
  ∃ content, line = content ++ crlf ∧ ∀ c ∈ content, c ≠ '\r' ∧ c ≠ '\n' ∧ c ≠ '\x00'

/-- A line is the field of a name, in any spelling, and carries a value. Blanks around the value do
not belong to it. -/
def IsField (name value line : Str) : Prop :=
  ∃ spelled front back, spelled.map Char.toLower = name.map Char.toLower ∧
    (∀ c ∈ front ++ back, c = ' ' ∨ c = '\t') ∧
    line = spelled ++ [':'] ++ front ++ value ++ back ++ crlf

/-- Exactly one line is the field of a name, and it carries the value. -/
def OnlyField (name value : Str) (lines : List Str) : Prop :=
  ∃ front line back, lines = front ++ line :: back ∧ IsField name value line ∧
    ∀ other ∈ front ++ back, ∀ v, ¬ IsField name v other

/-- The header of a response that issues the token `t` with the expiry `e`. -/
structure Issues (t e : Str) (lines : List Str) : Prop where
  header : ∀ line ∈ lines, HeaderLine line
  token : OnlyField "X-Rucio-Auth-Token".toList t lines
  expires : OnlyField "X-Rucio-Auth-Token-Expires".toList e lines
  accepted : ¬ Refused lines

/-! ### What the loop finds -/

section Found

variable {io : Io} {prior : TokenInfo} {header t e : Str} {lines : List Str}

/-- What is found comes from a line that has the text of the header somewhere. -/
theorem lastField_cases (header : Str) (lines : List Str) :
    (∃ line ∈ lines, header <:+: line ∧ lastField header lines = line.drop header.length) ∨
      (∀ line ∈ lines, ¬ header <:+: line) ∧ lastField header lines = [] := by
  rw [lastField]
  rcases hfound : lines.reverse.find? fun line ↦ (Text.find header line).isSome with - | line
  · refine Or.inr ⟨fun line hline hinfix ↦ ?_, rfl⟩
    exact List.find?_eq_none.1 hfound line (List.mem_reverse.2 hline)
      (Text.find_isSome_iff.2 hinfix)
  · have hinfix : (Text.find header line).isSome = true :=
      @List.find?_some _ (fun line ↦ (Text.find header line).isSome) _ _ hfound
    refine Or.inl ⟨line, List.mem_reverse.1 (List.mem_of_find?_eq_some hfound),
      Text.find_isSome_iff.1 hinfix, ?_⟩
    rw [Option.map_some, Option.getD_some, Text.eraseAt_zero]

/-- A header text stands in front of the line end. -/
theorem header_length_le (hheader : ∀ c ∈ header, c ≠ '\r' ∧ c ≠ '\n') {content : Str}
    (h : header <:+: content ++ crlf) : header.length ≤ content.length := by
  have hkept : header.filter (fun c ↦ c ≠ '\r' ∧ c ≠ '\n') = header :=
    List.filter_eq_self.2 fun c hc ↦ decide_eq_true (hheader c hc)
  have hlength := (h.sublist.filter fun c ↦ c ≠ '\r' ∧ c ≠ '\n').length_le
  rw [hkept, List.filter_append, List.length_append] at hlength
  exact hlength.trans (List.length_filter_le _ content)

/-- **What is found keeps the line end.** -/
theorem exists_lastField_eq (hlines : ∀ line ∈ lines, HeaderLine line)
    (hheader : ∀ c ∈ header, c ≠ '\r' ∧ c ≠ '\n') (hseen : ∃ line ∈ lines, header <:+: line) :
    ∃ rest, lastField header lines = rest ++ crlf ∧ '\x00' ∉ rest := by
  rcases lastField_cases header lines with ⟨line, hline, hinfix, hfield⟩ | ⟨hnone, -⟩
  · obtain ⟨content, rfl, hcontent⟩ := hlines line hline
    refine ⟨content.drop header.length, ?_, fun h ↦ (hcontent _ (List.mem_of_mem_drop h)).2.2 rfl⟩
    rw [hfield, List.drop_append_of_le_length (header_length_le hheader hinfix)]
  · obtain ⟨line, hline, hinfix⟩ := hseen
    exact absurd hinfix (hnone line hline)

theorem cStrNonempty_append_crlf {rest : Str} (h : '\x00' ∉ rest) :
    cStrNonempty (rest ++ crlf) = true := by
  have hnul : '\x00' ∉ rest ++ crlf := fun hmem ↦
    (List.mem_append.1 hmem).elim h (by decide)
  rw [cStrNonempty, cStr_of_nul_notMem hnul]
  simp [crlf]

/-- **What is stored as the token**: a text that ends a line, or the marker of an invalid token if
no line has the prefix in its own spelling. -/
theorem connToken_replaced (io : Io) (prior : TokenInfo)
    (hlines : ∀ line ∈ lines, HeaderLine line) :
    ((∃ line ∈ lines, rucioTokenPrefix <:+: line) ∧
        ∃ rest, (prior.replaced io lines).connToken = rest ++ crlf) ∨
      (∀ line ∈ lines, ¬ rucioTokenPrefix <:+: line) ∧
        (prior.replaced io lines).connToken = rucioInvalidToken := by
  have hstored : (prior.replaced io lines).connToken =
      if cStrNonempty (lastField rucioTokenPrefix lines) then lastField rucioTokenPrefix lines
      else rucioInvalidToken := rfl
  by_cases hseen : ∃ line ∈ lines, rucioTokenPrefix <:+: line
  · obtain ⟨rest, hrest, hnul⟩ := exists_lastField_eq hlines (by decide) hseen
    rw [hstored, hrest, if_pos (cStrNonempty_append_crlf hnul)]
    exact Or.inl ⟨hseen, rest, rfl⟩
  · push Not at hseen
    rcases lastField_cases rucioTokenPrefix lines with ⟨line, hline, hinfix, -⟩ | ⟨-, hnil⟩
    · exact absurd hinfix (hseen line hline)
    · rw [hstored, hnil]
      exact Or.inr ⟨hseen, rfl⟩

/-- Under the spelling of the code, and if no later line has it, the token is stored with its line
end. -/
theorem connToken_of_last_line {front back : List Str} (ht : '\x00' ∉ t)
    (hback : ∀ line ∈ back, ¬ rucioTokenPrefix <:+: line) :
    (prior.replaced io (front ++ (rucioTokenPrefix ++ (t ++ crlf)) :: back)).connToken =
      t ++ crlf := by
  have hnone : (back.reverse.find? fun line ↦ (Text.find rucioTokenPrefix line).isSome) = none :=
    List.find?_eq_none.2 fun line hline h ↦
      hback line (List.mem_reverse.1 hline) (Text.find_isSome_iff.1 h)
  have hlast : (front ++ (rucioTokenPrefix ++ (t ++ crlf)) :: back).reverse.find?
      (fun line ↦ (Text.find rucioTokenPrefix line).isSome) =
        some (rucioTokenPrefix ++ (t ++ crlf)) := by
    rw [List.reverse_append, List.reverse_cons, List.find?_append, List.find?_append, hnone,
      List.find?_singleton, Text.find_append_left]
    rfl
  have hfield : lastField rucioTokenPrefix (front ++ (rucioTokenPrefix ++ (t ++ crlf)) :: back) =
      t ++ crlf := by
    rw [lastField, hlast, Option.map_some, Option.getD_some, Text.eraseAt_zero, List.drop_left]
  show (if cStrNonempty (lastField _ _) then lastField _ _ else rucioInvalidToken) = _
  rw [hfield, if_pos (cStrNonempty_append_crlf ht)]

end Found

/-! ### Exactness -/

/-- What a response that issues `t` and `e` should leave behind: this token, in one line of a
header, and the time of this expiry. -/
structure Extracted (io : Io) (prior : TokenInfo) (t e : Str) (info : TokenInfo) : Prop where
  token : info.connToken = t
  oneLine : '\r' ∉ tokenHeader info.connToken ∧ '\n' ∉ tokenHeader info.connToken
  expiry : info.connTokenExpEpoch = expiryEpoch io prior e

/-- The condition: what was issued is the marker of an invalid token, under a spelling the code does
not know, and what it finds as the expiry stands for the time that was issued. -/
structure IssuesMarker (io : Io) (prior : TokenInfo) (t e : Str) (lines : List Str) : Prop where
  token : t = rucioInvalidToken
  unseen : ∀ line ∈ lines, ¬ rucioTokenPrefix <:+: line
  expiry : expiryEpoch io prior (lastField rucioTokenDurationPrefix lines) = expiryEpoch io prior e

/-- **Tokens are not extracted as they were issued.** For every response in the modes `userpass` and
`x509` whose payload issues the token `t` with the expiry `e`: the call accepts it, and it leaves
behind what it should exactly in the one case of `IssuesMarker`. -/
theorem token_extraction_iff {io : Io} {mode : AuthMode} {server : Str} {srv : RucioServer}
    {caller : Caller} {s : State} {ret : CurlRet} {t e : Str}
    (hmode : mode = .userpass ∨ mode = .x509) (hfind : s.servers.find server = some srv)
    (hnet : ∀ log request, io.net log request = ret) (hok : ret.ok = true)
    (hissues : Issues t e ret.payload) :
    ∃ u, requestToken io mode server caller s = .ok (.tokenOk, u) ∧
      (Extracted io (srv.token caller.uid) t e (u.tokenOf server caller.uid) ↔
        IssuesMarker io (srv.token caller.uid) t e ret.payload) := by
  obtain ⟨result, u, hrequest, haccepted, -⟩ :=
    @requestToken_spec io server srv caller s ret mode hmode hfind hnet
  obtain ⟨rfl, htoken⟩ := haccepted ⟨hok, hissues.accepted⟩
  refine ⟨u, hrequest, ?_⟩
  rw [htoken]
  have hepoch : ((srv.token caller.uid).replaced io ret.payload).connTokenExpEpoch =
      expiryEpoch io (srv.token caller.uid) (lastField rucioTokenDurationPrefix ret.payload) := rfl
  rcases connToken_replaced io (srv.token caller.uid) hissues.header with
    ⟨⟨line, hline, hinfix⟩, rest, hstored⟩ | ⟨hunseen, hstored⟩
  · have hend : '\r' ∈ tokenHeader (rest ++ crlf) := by simp [tokenHeader, crlf]
    refine ⟨fun h ↦ ?_, fun h ↦ absurd hinfix (h.unseen line hline)⟩
    have hone := h.oneLine.1
    rw [hstored] at hone
    exact absurd hend hone
  · refine ⟨fun h ↦ ⟨h.token.symm.trans hstored, hunseen, hepoch.symm.trans h.expiry⟩, fun h ↦ ?_⟩
    refine ⟨hstored.trans h.token.symm, ?_, hepoch.trans h.expiry⟩
    rw [hstored]
    decide +kernel

/-- A response that issues the token `t`, with the names as the server writes them. -/
def sampleHeader : List Str :=
  ["HTTP/1.1 200 OK\r\n".toList, "X-Rucio-Auth-Token: t\r\n".toList,
    "X-Rucio-Auth-Token-Expires: Thu, 1 Jan 1970 01:02:03 UTC\r\n".toList, crlf]

/-- The name of a field stands in front of the first colon. -/
theorem IsField.take_eq {name value line : Str} (h : IsField name value line) :
    (line.take (name.length + 1)).map Char.toLower = name.map Char.toLower ++ [':'] := by
  obtain ⟨spelled, front, back, hspelled, -, rfl⟩ := h
  have hlength : name.length + 1 = (spelled ++ [':']).length := by
    have hmap := congrArg List.length hspelled
    rw [List.length_map, List.length_map] at hmap
    rw [List.length_append, hmap]
    rfl
  rw [List.append_assoc _ back, List.append_assoc _ value, List.append_assoc _ front, hlength,
    List.take_left, List.map_append, hspelled]
  rfl

theorem issues_sampleHeader :
    Issues ['t'] "Thu, 1 Jan 1970 01:02:03 UTC".toList sampleHeader := by
  have hother : (∀ other ∈ sampleHeader.eraseIdx 1, ¬ (other.take 19).map Char.toLower =
        "X-Rucio-Auth-Token".toList.map Char.toLower ++ [':']) ∧
      (∀ other ∈ sampleHeader.eraseIdx 2, ¬ (other.take 27).map Char.toLower =
        "X-Rucio-Auth-Token-Expires".toList.map Char.toLower ++ [':']) ∧
      ∀ line ∈ sampleHeader, (Text.find rucioTokenExceptionPrefix line).isSome = false := by
    decide +kernel
  refine ⟨?_, ?_, ?_, ?_⟩
  · intro line hline
    have hcontent : ∀ line ∈ sampleHeader, line = line.take (line.length - 2) ++ crlf ∧
        ∀ c ∈ line.take (line.length - 2), c ≠ '\r' ∧ c ≠ '\n' ∧ c ≠ '\x00' := by
      decide +kernel
    exact ⟨_, hcontent line hline⟩
  · refine ⟨[_], _, [_, _], rfl, ⟨"X-Rucio-Auth-Token".toList, [' '], [], rfl, by decide, rfl⟩, ?_⟩
    exact fun other hmem v h ↦ hother.1 other hmem h.take_eq
  · refine ⟨[_, _], _, [_], rfl,
      ⟨"X-Rucio-Auth-Token-Expires".toList, [' '], [], rfl, by decide, rfl⟩, ?_⟩
    exact fun other hmem v h ↦ hother.2.1 other hmem h.take_eq
  · rintro ⟨line, hline, hrefused⟩
    exact absurd (hother.2.2 line hline) (by simp [hrefused])

/-- A user of the server `s` without a token. -/
def sampleNewcomer : State := State.start sampleServers [['s']]

/-- The world that issues this token. -/
def issuingIo : Io := { sampleIo with net := fun _ _ ↦ ⟨0, sampleHeader⟩ }

/-- The token `t` is not extracted, since it is not the marker. -/
theorem token_extraction_t : ∃ u,
    requestToken issuingIo .userpass ['s'] sampleCaller sampleNewcomer = .ok (.tokenOk, u) ∧
      ¬ Extracted issuingIo (sampleServer.token sampleCaller.uid) ['t']
        "Thu, 1 Jan 1970 01:02:03 UTC".toList (u.tokenOf ['s'] sampleCaller.uid) := by
  obtain ⟨u, hrequest, hiff⟩ := @token_extraction_iff issuingIo .userpass ['s'] sampleServer
    sampleCaller sampleNewcomer ⟨0, sampleHeader⟩ ['t'] "Thu, 1 Jan 1970 01:02:03 UTC".toList
    (Or.inl rfl) rfl (fun _ _ ↦ rfl) rfl issues_sampleHeader
  exact ⟨u, hrequest, fun h ↦ absurd (hiff.1 h).token (by decide)⟩

/-- The token `t` is stored with its line end. -/
theorem not_tokenExact_t : ¬ ∀ (io : Io) (mode : AuthMode) (server : Str) (srv : RucioServer)
    (caller : Caller) (s : State) (ret : CurlRet) (t e : Str),
    mode = .userpass ∨ mode = .x509 → s.servers.find server = some srv →
    (∀ log request, io.net log request = ret) → ret.ok = true → Issues t e ret.payload →
    ∃ u, requestToken io mode server caller s = .ok (.tokenOk, u) ∧
      Extracted io (srv.token caller.uid) t e (u.tokenOf server caller.uid) := by
  intro hall
  obtain ⟨u, hrequest, hextracted⟩ := hall issuingIo .userpass ['s'] sampleServer sampleCaller
    sampleNewcomer ⟨0, sampleHeader⟩ _ _ (Or.inl rfl) rfl (fun _ _ ↦ rfl) rfl issues_sampleHeader
  have hrun : (requestToken issuingIo .userpass ['s'] sampleCaller sampleNewcomer).map
      (fun done ↦ (done.2.tokenOf ['s'] sampleCaller.uid).connToken) = .ok ['t', '\r', '\n'] := by
    decide +kernel
  rw [hrequest] at hrun
  have hstored := (Except.ok.inj hrun).symm.trans hextracted.token
  exact absurd hstored (by decide)

end FusePosix
