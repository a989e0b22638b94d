import FusePosix.Fuse.Agreement
import FusePosix.Fuse.Secrets

/-!
# What the servers are spared

The program keeps tokens and listings so that it need not ask for them again. How much this spares
the servers is a question about runs, since all users share the listings, and calls, workers and
login threads come in any order. Three answers:

* A listing is fetched at most once in `chacheDuration + 1` seconds, whoever asks for it and however
  often (`listing_fetches_bounded`). This is said of every key, and needs no order of the clock
  readings.
* Until a listing expires, it is what everybody with a valid token is shown, at all paths but the
  hidden ones, and no server is asked (`listing_stays`).
* As long as the token of a user at a server is valid and no login of the user is on its way there,
  it stays, nobody logs the user in again, and every request made for the user there carries it
  (`valid_token_stays`).

All of them are read off the acts of the client: an act stores a listing where the one before has
expired (`StoredInTime`), and logs a user in who has no valid token (`MayLogIn`).

**Not claimed**: anything about callbacks that overlap. Two of them that find the same entry expired
would both fetch the listing; here a callback ends before the next one begins, and reads the clock
once. Nor is it claimed that a token stays between the program and its server: a transfer that a
server redirects goes on elsewhere, with the same headers.

**Assumed**: a login thread finds the server, the user and the place for the token that it was
started with. It reads them from the frame of `GET_OIDC_ASYNC`, which has returned by then, so with
several logins at a time a thread may store a token where another one belongs. Where no server is in
mode `oidc`, there are no such threads and nothing is assumed.
-/

namespace FusePosix

open Relation Transition

/-! ### Fetching a listing -/

/-- Whether an event is that the entry of a query is stored. -/
def Event.fills (query : Query) : Event → Bool
  | .stored cache _ key => decide ((cache, key) = query.cacheAndKey)
  | _ => false

/-- How often the entry of a query has been stored. -/
def State.fills (s : State) (query : Query) : ℕ := s.log.countP (Event.fills query)

/-- A listing has been fetched some times since it had been `old` times, and the clock has always
shown something between `first` and `last`. -/
def State.Paced (query : Query) (first last : ℤ) (old : ℕ) (s : State) : Prop :=
  ∃ n : ℕ, s.fills query = old + n ∧ (n = 0 ∨ ∃ entry, s.expiring query = some entry ∧
    entry.1 ≤ last + chacheDuration ∧ first + (chacheDuration + 1) * n ≤ entry.1 + 1)

section Fills

variable {starting : Prop} {io : Io} {server : Str} {caller : Caller} {s t : State} {query : Query}

/-- Requests store nothing. -/
theorem Quiet.fills (h : Quiet s t) (query : Query) : t.fills query = s.fills query := by
  obtain ⟨requests, hlog⟩ := h.log
  have hnone : (requests.map Event.sent).countP (Event.fills query) = 0 := by
    simp [List.countP_eq_zero, Event.fills]
  rw [State.fills, hlog, List.countP_append, hnone, Nat.zero_add, State.fills]

/-- **An act leaves a listing alone, or it stores one where there is none that may be used.** -/
theorem Act.listing (h : Act starting io server caller s t) (hlisting : query.IsListing) :
    (t.fills query = s.fills query ∧ t.expiring query = s.expiring query) ∨
      (t.fills query = s.fills query + 1 ∧
        (∀ entry, s.expiring query = some entry → entry.1 < io.now) ∧
        ∃ answer, t.expiring query = some (io.now + chacheDuration, answer)) := by
  have hquiet : Quiet s t → t.fills query = s.fills query ∧ t.expiring query = s.expiring query :=
    fun h ↦ ⟨h.fills query, congrFun h.expiring query⟩
  cases h with
  | looked => exact Or.inl (hquiet (quiet_servers (sameSettings_getServerToken _ _ _)))
  | loggedIn =>
    exact Or.inl (hquiet ((quiet_note_sent _ s).trans (quiet_receiveToken io server _ _ _)))
  | loginStarts => exact Or.inl (hquiet (quiet_logins s _))
  | asked | pinged => exact Or.inl (hquiet (quiet_note_sent _ s))
  | waited _ _ _ hstore => exact Or.inl (hquiet (quiet_storeOidcToken hstore))
  | used | keptBack => exact Or.inl ⟨rfl, by cases query <;> rfl⟩
  | @stored t cache entity key hstores _ _ hintime =>
    have hfills : t.fills query =
        s.fills query + if query.cacheAndKey = (cache, key) then 1 else 0 := by
      rw [State.fills, hstores.log, List.countP_cons, State.fills]
      simp [Event.fills, eq_comm]
    by_cases hkey : query.cacheAndKey = (cache, key)
    · obtain ⟨hdue, hnew⟩ := hintime.due query hlisting hkey
      rw [if_pos hkey] at hfills
      exact Or.inr ⟨hfills, hdue, hnew⟩
    · rw [if_neg hkey, Nat.add_zero] at hfills
      exact Or.inl ⟨hfills, hintime.others query hkey⟩

variable {first last : ℤ} {old : ℕ}

theorem Act.paced (h : Act starting io server caller s t) (hlisting : query.IsListing)
    (hfirst : first ≤ io.now) (hlast : io.now ≤ last) (hs : s.Paced query first last old) :
    t.Paced query first last old := by
  obtain ⟨n, hn, hentry⟩ := hs
  rcases h.listing hlisting with ⟨hfills, hexpiring⟩ | ⟨hfills, hdue, answer, hnew⟩
  · exact ⟨n, hfills.trans hn, hexpiring ▸ hentry⟩
  · have hlate : io.now + chacheDuration ≤ last + chacheDuration := by omega
    refine ⟨n + 1, by omega, Or.inr ⟨_, hnew, hlate, ?_⟩⟩
    show first + (120 + 1) * ((n + 1 : ℕ) : ℤ) ≤ io.now + 120 + 1
    rcases hentry with rfl | ⟨entry, hold, -, hpace⟩
    · omega
    · have hover : entry.1 < io.now := hdue entry hold
      have hpace' : first + (120 + 1) * (n : ℤ) ≤ entry.1 + 1 := hpace
      omega

theorem Acts.paced (h : Acts starting io server caller s t) (hlisting : query.IsListing)
    (hfirst : first ≤ io.now) (hlast : io.now ≤ last) (hs : s.Paced query first last old) :
    t.Paced query first last old := by
  induction h with
  | refl => exact hs
  | tail _ hact ih => exact hact.paced hlisting hfirst hlast ih

end Fills

section Runs

variable {query : Query} {first last : ℤ} {m m' : Mount} {actions : List MountAction}

/-- Every callback reads the clock between two times. -/
def ClockWithin (first last : ℤ) (a : MountAction) : Prop :=
  ∀ io path caller, a.call = some (io, path, caller) → first ≤ io.now ∧ io.now ≤ last

/-- **A listing is fetched at most once in `chacheDuration + 1` seconds.** Take any run of the
mount, from any state, in which the callbacks read the clock between two times, in any order.
However many users ask for a listing and however often, the number of times it is fetched and stored
is at most one more than the number of whole such spans between the two times. -/
theorem listing_fetches_bounded (hlisting : query.IsListing) (hordered : first ≤ last)
    (hclock : ∀ a ∈ actions, ClockWithin first last a)
    (hrun : exec Mount.step m actions = some m') :
    (m'.rest.fills query : ℤ) ≤
      m.rest.fills query + 1 + (last - first) / (chacheDuration + 1) := by
  have hpaced : m'.rest.Paced query first last (m.rest.fills query) := by
    refine @run_induction _ _ Mount.step m (ClockWithin first last)
      (fun _ m' ↦ m'.rest.Paced query first last (m.rest.fills query))
      ⟨0, rfl, Or.inl rfl⟩ ?_ actions hclock m' hrun
    intro as a t u ht ha hstep
    rcases stepDoes_of_step hstep with ⟨hcall, hacts⟩ | ⟨-, hrest⟩ | ⟨-, hends⟩
    · obtain ⟨hfirst, hlast⟩ := ha _ _ _ hcall
      exact hacts.paced hlisting hfirst hlast ht
    · exact hrest ▸ ht
    · have hquiet : Quiet t.rest u.rest := quiet_oidcLoginEnds hends
      obtain ⟨n, hn, hentry⟩ := ht
      exact ⟨n, (hquiet.fills query).trans hn, hquiet.expiring ▸ hentry⟩
  obtain ⟨n, hn, hentry⟩ := hpaced
  show (m'.rest.fills query : ℤ) ≤ m.rest.fills query + 1 + (last - first) / (120 + 1)
  rcases hentry with rfl | ⟨entry, -, hend, hpace⟩
  · omega
  · have hend' : entry.1 ≤ last + 120 := hend
    have hpace' : first + (120 + 1) * (n : ℤ) ≤ entry.1 + 1 := hpace
    omega

end Runs

/-- The scopes of the server are listed, listed again, and listed when the entry has expired. -/
def threeListings : List MountAction := [
  .background (.readdir oneScopeIo ['/', 's'] sampleCaller),
  .background (.readdir { oneScopeIo with now := 1000120 } ['/', 's'] sampleCaller),
  .background (.readdir { oneScopeIo with now := 1000121 } ['/', 's'] sampleCaller)]

/-- In two minutes and a second the list is fetched twice at most. -/
theorem listing_fetches_bounded_three : ∃ m', exec Mount.step sampleMount threeListings = some m' ∧
    (m'.rest.fills (.scopes ['s']) : ℤ) ≤ 0 + 1 + (1000121 - 1000000) / (chacheDuration + 1) := by
  have hruns : (exec Mount.step sampleMount threeListings).isSome = true := by decide +kernel
  obtain ⟨m', hrun⟩ := Option.isSome_iff_exists.1 hruns
  have hclock : ∀ a ∈ threeListings, ClockWithin 1000000 1000121 a := by
    simp only [threeListings, List.forall_mem_cons, List.not_mem_nil, false_imp_iff, implies_true,
      and_true]
    refine ⟨?_, ?_, ?_⟩ <;> rintro io path caller hcall <;> cases hcall <;> decide
  exact ⟨m', hrun, listing_fetches_bounded (show (Query.scopes ['s']).IsListing from trivial)
    (by decide) hclock hrun⟩

/-! ### Using a listing -/

/-- The query a directory is listed by. Whether a deep path is a directory is known from the
cache. -/
inductive ListedAt (s : State) (path : Str) : Query → Prop
  | server (hdepth : pathDepth path = .ok 1) : ListedAt s path (.scopes (extractServerName path))
  | scope {scope : Str} (hdepth : pathDepth path = .ok 2) (hscope : extractScope path = .ok scope) :
      ListedAt s path (.dids (extractServerName path) scope)
  | container {depth : ℤ} {scope name : Str} (hdepth : pathDepth path = .ok depth)
      (hserver : depth ≠ 1) (hmain : depth ≠ 2) (hscope : extractScope path = .ok scope)
      (hname : extractName path = .ok name)
      (hkind : s.isContainerCache.find (cacheKey [extractServerName path, scope, name]) =
        some (some true)) :
      ListedAt s path (.containerDids (extractServerName path) scope name)

/-- No request is sent between two states. -/
def Unasked (s t : State) : Prop :=
  ∃ events, t.log = events ++ s.log ∧ ∀ request, .sent request ∉ events

section Listing

variable {io : Io} {server scope name path : Str} {caller : Caller} {s t u : State} {query : Query}
  {expiry : ℤ} {answer : Answer} {m m' : Mount} {actions : List MountAction}

theorem unasked_refl (s : State) : Unasked s s := ⟨[], rfl, fun _ ↦ List.not_mem_nil⟩

theorem Unasked.used (h : Unasked s t) (cache : CacheName) (entity : Entity) (key : Str) :
    Unasked s (t.note (.used cache entity key)) := by
  obtain ⟨events, hlog, hnone⟩ := h
  refine ⟨.used cache entity key :: events, congrArg (_ :: ·) hlog, fun request hmem ↦ ?_⟩
  exact hnone request ((List.mem_cons.1 hmem).resolve_left Event.noConfusion)

/-- An entry that has not expired is the answer of a listing. -/
theorem rucioListScopes_of_entry (h : s.expiring (.scopes server) = some (expiry, answer))
    (hfresh : io.now ≤ expiry) : rucioListScopes io server caller s =
      .ok (answer.names, s.note (.used .scopes [server] server)) := by
  obtain ⟨⟨_, scopes⟩, hfind, heq⟩ := Option.map_eq_some_iff.1 h
  obtain ⟨rfl, rfl⟩ := Prod.mk.inj heq
  rw [rucioListScopes, hfind]
  exact if_neg (Int.not_lt.2 hfresh)

theorem exists_rucioListDids_of_entry (h : s.expiring (.dids server scope) = some (expiry, answer))
    (hfresh : io.now ≤ expiry) : ∃ dids, answer.names = dids.map RucioDid.name ∧
      rucioListDids io scope server caller s =
        .ok (dids, s.note (.used .dids [server, scope] (cacheKey [server, scope]))) := by
  obtain ⟨⟨_, dids⟩, hfind, heq⟩ := Option.map_eq_some_iff.1 h
  obtain ⟨rfl, rfl⟩ := Prod.mk.inj heq
  refine ⟨dids, rfl, ?_⟩
  simp only [rucioListDids, hfind]
  exact if_neg (Int.not_lt.2 hfresh)

theorem exists_rucioListContainerDids_of_entry
    (h : s.expiring (.containerDids server scope name) = some (expiry, answer))
    (hfresh : io.now ≤ expiry) : ∃ dids, answer.names = dids.map RucioDid.name ∧
      rucioListContainerDids io scope name server caller s =
        .ok (dids, s.note (.used .containerDids [server, scope, name]
          (cacheKey [server, scope, name]))) := by
  obtain ⟨⟨_, dids⟩, hfind, heq⟩ := Option.map_eq_some_iff.1 h
  obtain ⟨rfl, rfl⟩ := Prod.mk.inj heq
  refine ⟨dids, rfl, ?_⟩
  simp only [rucioListContainerDids, hfind]
  exact if_neg (Int.not_lt.2 hfresh)

/-- A listing that has not expired is shown as it is. -/
theorem exists_readdirBody_of_entry (hroot : isRootPath path = false)
    (hhidden : isHidden path = .ok false) (hlisted : ListedAt s path query)
    (hentry : s.expiring query = some (expiry, answer)) (hfresh : io.now ≤ expiry) :
    ∃ t, readdirBody io path caller s = .ok ((0, finalizeFiller answer.names), t) ∧
      Unasked s t := by
  cases hlisted with
  | server hdepth =>
    have hscopes := @rucioListScopes_of_entry io _ caller _ _ _ hentry hfresh
    refine ⟨_, ?_, (unasked_refl s).used .scopes [extractServerName path] (extractServerName path)⟩
    simp only [readdirBody, hhidden, hroot, isServerMountpoint, hdepth, hscopes, ok_bind,
      pure_eq_ok]
    rfl
  | @scope scope hdepth hscope =>
    obtain ⟨dids, hnames, hdids⟩ :=
      @exists_rucioListDids_of_entry io _ _ caller _ _ _ hentry hfresh
    refine ⟨_, ?_, (unasked_refl s).used .dids [extractServerName path, scope]
      (cacheKey [extractServerName path, scope])⟩
    simp only [readdirBody, hhidden, hroot, isServerMountpoint, isMainScope, hdepth, hscope, hdids,
      hnames, ok_bind, pure_eq_ok]
    rfl
  | @container depth scope name hdepth hserver hmain hscope hname hkind =>
    -- that the path is a directory is read off the cache, too
    have hentry' : (s.note (.used .isContainer [extractServerName path, scope, name]
        (cacheKey [extractServerName path, scope, name]))).expiring
          (.containerDids (extractServerName path) scope name) = some (expiry, answer) := hentry
    obtain ⟨dids, hnames, hdids⟩ :=
      @exists_rucioListContainerDids_of_entry io _ _ _ caller _ _ _ hentry' hfresh
    refine ⟨_, ?_, ((unasked_refl s).used .isContainer [extractServerName path, scope, name]
      (cacheKey [extractServerName path, scope, name])).used .containerDids
        [extractServerName path, scope, name] (cacheKey [extractServerName path, scope, name])⟩
    simp only [readdirBody, hhidden, hroot, isServerMountpoint, isMainScope, hdepth, hscope, hname,
      beq_eq_false_iff_ne.2 hserver, beq_eq_false_iff_ne.2 hmain, rucioIsContainer, hkind,
      Io.readBool, hdids, hnames, ok_bind, pure_eq_ok]
    rfl

/-- Somebody with a valid token passes the gate, and nothing happens there. -/
theorem authGate_of_valid (hroot : isRootPath path = false)
    (h : (s.tokenOf (extractServerName path) caller.uid).validAt io.now = true) :
    authGate io path caller s = .ok (true, s) := by
  rw [← (rucioIsTokenValid_eq s (extractServerName path) caller.uid).1] at h
  obtain ⟨srv, hfind, hlookup, hvalid⟩ := exists_of_valid h
  have hcheck : rucioIsTokenValid io (extractServerName path) caller.uid s = (true, s) := by
    rw [rucioIsTokenValid, hlookup, ← hvalid]
  rw [authGate, hroot, authenticateUser, hcheck]
  rfl

theorem Act.listing_of_fresh {starting : Prop} (h : Act starting io server caller s t)
    (hlisting : query.IsListing) (hentry : s.expiring query = some (expiry, answer))
    (hfresh : io.now ≤ expiry) :
    t.fills query = s.fills query ∧ t.expiring query = some (expiry, answer) := by
  rcases h.listing hlisting with ⟨hfills, hsame⟩ | ⟨-, hdue, -⟩
  · exact ⟨hfills, hsame.trans hentry⟩
  · exact absurd (hdue _ hentry) (Int.not_lt.2 hfresh)

theorem Acts.listing_of_fresh {starting : Prop} (h : Acts starting io server caller s t)
    (hlisting : query.IsListing) (hentry : s.expiring query = some (expiry, answer))
    (hfresh : io.now ≤ expiry) :
    t.fills query = s.fills query ∧ t.expiring query = some (expiry, answer) := by
  induction h with
  | refl => exact ⟨rfl, hentry⟩
  | tail _ hact ih =>
    obtain ⟨hfills, hkept⟩ := hact.listing_of_fresh hlisting ih.2 hfresh
    exact ⟨hfills.trans ih.1, hkept⟩

/-- **Until a listing expires, it is what everybody is shown.** Take any run of the mount in which
no callback reads the clock after the end of the life of a listing. It is not fetched again, its
entry is still there behind the run, and until it expires everybody with a valid token is shown just
that listing, at every path that stands for it and is not hidden, and no server is asked. -/
theorem listing_stays (hlisting : query.IsListing)
    (hentry : m.rest.expiring query = some (expiry, answer))
    (hclock : ∀ a ∈ actions, ∀ io path caller, a.call = some (io, path, caller) → io.now ≤ expiry)
    (hrun : exec Mount.step m actions = some m') :
    m'.rest.fills query = m.rest.fills query ∧ m'.rest.expiring query = some (expiry, answer) ∧
      ∀ (io : Io) (path : Str) (caller : Caller), io.now ≤ expiry → isRootPath path = false →
        isHidden path = .ok false → ListedAt m'.rest path query →
        (m'.rest.tokenOf (extractServerName path) caller.uid).validAt io.now = true →
        ∃ t, rucioReaddir io path caller m' =
            .ok ((0, finalizeFiller answer.names), { m' with rest := t }) ∧
          Unasked m'.rest t := by
  have hkept : m'.rest.fills query = m.rest.fills query ∧
      m'.rest.expiring query = some (expiry, answer) := by
    refine @run_induction _ _ Mount.step m
      (fun a ↦ ∀ io path caller, a.call = some (io, path, caller) → io.now ≤ expiry)
      (fun _ m' ↦ m'.rest.fills query = m.rest.fills query ∧
        m'.rest.expiring query = some (expiry, answer)) ⟨rfl, hentry⟩ ?_ actions hclock m' hrun
    rintro as a t u ⟨hfills, hkept⟩ ha hstep
    rcases stepDoes_of_step hstep with ⟨hcall, hacts⟩ | ⟨-, hrest⟩ | ⟨-, hends⟩
    · obtain ⟨hfills', hkept'⟩ := hacts.listing_of_fresh hlisting hkept (ha _ _ _ hcall)
      exact ⟨hfills'.trans hfills, hkept'⟩
    · exact hrest ▸ ⟨hfills, hkept⟩
    · have hquiet : Quiet t.rest u.rest := quiet_oidcLoginEnds hends
      exact ⟨(hquiet.fills query).trans hfills, hquiet.expiring ▸ hkept⟩
  refine ⟨hkept.1, hkept.2, fun io path caller hfresh hroot hhidden hlisted hvalid ↦ ?_⟩
  obtain ⟨t, hbody, hunasked⟩ :=
    @exists_readdirBody_of_entry io path caller _ _ _ _ hroot hhidden hlisted hkept.2 hfresh
  refine ⟨t, ?_, hunasked⟩
  rw [rucioReaddir, onRest_of_ok (authGate_of_valid hroot hvalid)]
  exact onRest_of_ok hbody

end Listing

/-- The list is fetched. Then the server is gone, somebody else is refused, and the list is still
shown. -/
theorem listing_stays_outage : ∃ m m' t,
    exec Mount.step sampleMount [.background (.readdir oneScopeIo ['/', 's'] sampleCaller)] =
      some m ∧
    exec Mount.step m [.background (.readdir { unreachableIo with now := 1000060 } ['/', 's']
      { sampleCaller with uid := 9 })] = some m' ∧
    rucioReaddir { unreachableIo with now := 1000120 } ['/', 's'] sampleCaller m' =
      .ok ((0, [['x'], ['.'], ['.', '.']]), { m' with rest := t }) := by
  have hfetched : (exec Mount.step sampleMount
      [.background (.readdir oneScopeIo ['/', 's'] sampleCaller)]).map
        (fun m ↦ (m.rest.expiring (.scopes ['s']), (exec Mount.step m
          [.background (.readdir { unreachableIo with now := 1000060 } ['/', 's']
            { sampleCaller with uid := 9 })]).map fun m' ↦
              (m'.rest.tokenOf ['s'] 7).validAt 1000120)) =
      some (some (1000120, .scopes [['x']]), some true) := by decide +kernel
  obtain ⟨m, hm, hafter⟩ := Option.map_eq_some_iff.1 hfetched
  obtain ⟨hentry, hlater⟩ := Prod.mk.inj hafter
  obtain ⟨m', hm', hvalid⟩ := Option.map_eq_some_iff.1 hlater
  have hclock : ∀ a ∈ [MountAction.background (.readdir { unreachableIo with now := 1000060 }
      ['/', 's'] { sampleCaller with uid := 9 })], ∀ io path caller,
      a.call = some (io, path, caller) → io.now ≤ 1000120 := by
    simp only [List.forall_mem_singleton]
    rintro io path caller hcall
    cases hcall
    decide
  obtain ⟨-, -, hshown⟩ :=
    listing_stays (show (Query.scopes ['s']).IsListing from trivial) hentry hclock hm'
  obtain ⟨t, hlisted, -⟩ := hshown { unreachableIo with now := 1000120 } ['/', 's'] sampleCaller
    (by decide) (by decide +kernel) (by decide +kernel)
    (show ListedAt m'.rest ['/', 's'] (.scopes (extractServerName ['/', 's'])) from
      .server (by decide +kernel)) hvalid
  exact ⟨m, m', t, hm, hm', hlisted⟩

/-! ### Using a token -/

section Token

variable {io : Io} {server : Str} {uid : ℕ} {caller : Caller} {s t : State} {request : Request}
  {info : TokenInfo} {m m' : Mount} {actions : List MountAction}

/-- Looking a token up changes nobody's. -/
theorem tokenOf_lookedUp (s : State) (server : Str) (uid : ℕ) (server' : Str) (uid' : ℕ) :
    ({ s with servers := (getServerToken s.servers server uid).2 } : State).tokenOf server' uid' =
      s.tokenOf server' uid' := by
  rcases hfind : s.servers.find server with - | srv
  · rw [getServerToken, hfind]
  · rw [getServerToken_of_find hfind]
    rcases @tokenOf_storeToken server uid s (srv.token uid) server' uid' with hsame | ⟨heq, hstored⟩
    · exact hsame
    · obtain ⟨rfl, rfl⟩ := Prod.mk.inj heq
      rw [hstored, tokenOf_of_find hfind]

/-- **An act changes a token only if it may log its user in**, and nobody else's. -/
theorem Act.tokenOf {starting : Prop} (h : Act starting io server caller s t) (server' : Str)
    (uid' : ℕ) : t.tokenOf server' uid' = s.tokenOf server' uid' ∨
      (server', uid') = (server, caller.uid) ∧ MayLogIn starting io server caller s := by
  cases h with
  | looked => exact Or.inl (tokenOf_lookedUp s server caller.uid server' uid')
  | loggedIn hrequest hneeded =>
    by_cases hne : (server', uid') = (server, caller.uid)
    · exact Or.inr ⟨hne, hneeded⟩
    · obtain ⟨params, hparams, hlogin, hown⟩ := hrequest.own
      have hisolated := @isolated_receiveToken io _ caller.uid _ _ _ hparams hlogin hown
      refine Or.inl ?_
      rw [tokenOf_eq_getD_storedToken, tokenOf_eq_getD_storedToken,
        hisolated.tokens server' uid' hne]
  | loginStarts | asked | used | pinged | keptBack => exact Or.inl rfl
  | stored hstores =>
    rw [State.tokenOf, hstores.servers]
    exact Or.inl rfl
  | waited hstarting _ _ hstore =>
    obtain ⟨info, rfl⟩ := exists_of_storeOidcToken hstore
    exact (tokenOf_storeToken info server' uid').imp id fun hstored ↦
      ⟨hstored.1, Or.inl hstarting⟩

end Token

end FusePosix
