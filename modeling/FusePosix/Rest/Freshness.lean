import FusePosix.Rest.Exchange

/-!
# How old a listing can be

A listing that comes from a cache was told by the server some time ago. How long ago is limited by
the expiry that is stored with it, and that expiry is the start of the call that fetched it plus
`chacheDuration`: the clock is read before the exchange. Calls that fail leave the entry, also an
expired one, so an entry is always that of the latest successful exchange for its key
(`mirrors_step`). `listing_bounded_staleness` is what this means for a call in any run.
-/

namespace FusePosix

open Transition

/-! ### Successful exchanges -/

/-- A successful exchange of a listing: its cache key, when its call started, and what the parser
made of the answer. -/
structure Fetch where
  key : CacheName × Str
  start : ℤ
  listing : Answer
  deriving DecidableEq, Repr

/-- The successful exchange of a call, if there was one. -/
def RestCall.fetch (call : RestCall) (s t : State) : Option Fetch :=
  match lastAnswer call.io s t with
  | none => none
  | some ret =>
    if ret.ok then
      (call.query.parseChunks s.didStringRemainder ret.payload).toOption.map fun parsed ↦
        ⟨call.query.cacheAndKey, call.io.now, parsed.2⟩
    else none

/-- A call has failed: libcurl has reported an error, or nothing was sent and no entry used, since
the server is not loaded. -/
def RestCall.Failed (call : RestCall) (s t : State) : Prop :=
  (∃ ret, lastAnswer call.io s t = some ret ∧ ret.ok = false) ∨ t.log = s.log

/-- A state, and the successful exchanges that have led to it, latest first. -/
structure Observed where
  state : State
  fetches : List Fetch

namespace Observed

/-- A call that is watched. -/
def step (o : Observed) (call : RestCall) : Option Observed :=
  (call.run o.state).toOption.map fun result ↦
    ⟨result.2, (call.fetch o.state result.2).toList ++ o.fetches⟩

/-- The latest successful exchange for a key. -/
def latest (o : Observed) (key : CacheName × Str) : Option Fetch :=
  o.fetches.find? fun fetch ↦ fetch.key = key

/-- Every entry is that of the latest successful exchange for its key, and lives from its start
on. -/
def Mirrors (o : Observed) : Prop :=
  ∀ query : Query, query.IsListing → o.state.expiring query =
    (o.latest query.cacheAndKey).map fun fetch ↦ (fetch.start + chacheDuration, fetch.listing)

end Observed

section Mirrors

variable {call : RestCall} {answer : Answer} {s t : State}

/-- An exchange that brings nothing is not successful. -/
theorem fetch_of_nothing {server resource : Str} {caller : Caller}
    (h : Exchanged call.io server resource caller s none t) : call.fetch s t = none := by
  have hpayload := h.payload_eq
  rw [RestCall.fetch]
  rcases hlast : lastAnswer call.io s t with - | ret
  · rfl
  · rw [hlast, Option.bind_some] at hpayload
    split_ifs at hpayload with hok
    exact if_neg hok

/-- What a listing call adds to the successful exchanges, and what it does to the entries. -/
theorem fetch_of_run (hlisting : call.query.IsListing) (h : call.run s = .ok (answer, t)) :
    (call.fetch s t = none ∧ t.expiring = s.expiring) ∨
      (call.fetch s t = some ⟨call.query.cacheAndKey, call.io.now, answer⟩ ∧
        ∀ other, t.expiring other = if other.cacheAndKey = call.query.cacheAndKey then
          some (call.io.now + chacheDuration, answer) else s.expiring other) := by
  cases lists_of_run hlisting h with
  | used hentry hfresh =>
    refine Or.inl ⟨?_, expiring_note _⟩
    rw [RestCall.fetch, lastAnswer_note_used]
  | nothing hstale hexchanged => exact Or.inl ⟨fetch_of_nothing hexchanged, hexchanged.expiring⟩
  | fetched hstale hexchanged hparse hremainder hstored hanswer =>
    refine Or.inr ⟨?_, hstored⟩
    have hpayload := hexchanged.payload_eq
    rw [RestCall.fetch, hanswer]
    rcases hlast : lastAnswer call.io s _ with - | ret
    · rw [hlast, Option.bind_none] at hpayload
      cases hpayload
    · rw [hlast, Option.bind_some] at hpayload
      split_ifs at hpayload with hok
      obtain rfl := Option.some.inj hpayload
      rw [hexchanged.quiet.remainder] at hparse
      simp only [hok, ↓reduceIte, hparse]
      rfl

/-- **A call keeps the entries those of the latest successful exchanges.** -/
theorem mirrors_step {o u : Observed} (ho : o.Mirrors) (hlisting : call.query.IsListing)
    (h : o.step call = some u) : u.Mirrors := by
  obtain ⟨⟨answer, t⟩, hrun, rfl⟩ := map_toOption_eq_some h
  intro query hquery
  rcases fetch_of_run hlisting hrun with ⟨hnone, hsame⟩ | ⟨hsome, hstored⟩
  · simp only [hnone, Option.toList_none, List.nil_append, hsame]
    exact ho query hquery
  · simp only [hsome, Option.toList_some, List.singleton_append, hstored, Observed.latest,
      List.find?_cons]
    by_cases hkey : query.cacheAndKey = call.query.cacheAndKey
    · simp [hkey]
    · have hkey' : ¬call.query.cacheAndKey = query.cacheAndKey := fun heq ↦ hkey heq.symm
      simp only [hkey, hkey', decide_false, ↓reduceIte]
      exact ho query hquery

theorem mirrors_start (servers : ServerMap) (serverNames : List Str) :
    (Observed.mk (State.start servers serverNames) []).Mirrors := by
  intro query _
  cases query <;> rfl

end Mirrors

/-! ### Bounded staleness -/

/-- What a call that has not failed returns is in its entry, and the entry may be used. -/
theorem expiring_of_not_failed {call : RestCall} {answer : Answer} {s t : State}
    (hlisting : call.query.IsListing) (h : call.run s = .ok (answer, t))
    (hfailed : ¬call.Failed s t) :
    ∃ expiry, t.expiring call.query = some (expiry, answer) ∧ call.io.now ≤ expiry := by
  cases lists_of_run hlisting h with
  | used hentry hfresh => exact ⟨_, (congrFun (expiring_note _) _).trans hentry, hfresh⟩
  | nothing hstale hexchanged =>
    cases hexchanged with
    | unloaded hserver => exact absurd (Or.inr rfl) hfailed
    | failed hasked hok =>
      exact absurd (Or.inl ⟨_, lastAnswer_note_sent hasked.quiet.log_suffix _, hok⟩) hfailed
  | fetched hstale hexchanged hparse hremainder hstored hanswer =>
    have hlife : (0 : ℤ) ≤ chacheDuration := by decide
    refine ⟨call.io.now + chacheDuration, ?_, by omega⟩
    rw [hstored, if_pos rfl]

/-- A call for an entry that may be used is answered from it. -/
theorem used_of_fresh {call : RestCall} {answer value : Answer} {expiry : ℤ} {s t : State}
    (hlisting : call.query.IsListing) (hentry : s.expiring call.query = some (expiry, value))
    (hfresh : call.io.now ≤ expiry) (h : call.run s = .ok (answer, t)) :
    answer = value ∧
      t = s.note (.used call.query.cacheAndKey.1 call.query.entity call.query.cacheAndKey.2) := by
  cases lists_of_run hlisting h with
  | used hentry' hfresh' =>
    rw [hentry] at hentry'
    exact ⟨(Prod.mk.inj (Option.some.inj hentry')).2.symm, rfl⟩
  | nothing hstale => exact absurd (hstale _ hentry) (Int.not_lt.2 hfresh)
  | fetched hstale => exact absurd (hstale _ hentry) (Int.not_lt.2 hfresh)

/-- **Bounded staleness of listings.** In any run of listing calls, take a call that returns without
failing. Its listing is that of the latest successful exchange for its cache key, be it its own or
that of an earlier call, and the call of that exchange has started at most `chacheDuration` seconds
earlier. And as long as the latest successful exchange for a key is not older than that, a call for
the key is answered from its entry and sends nothing. -/
theorem listing_bounded_staleness {servers : ServerMap} {serverNames : List Str}
    {calls : List RestCall} (hlistings : ∀ call ∈ calls, call.query.IsListing) {o : Observed}
    (h : exec Observed.step ⟨State.start servers serverNames, []⟩ calls = some o) {call : RestCall}
    (hlisting : call.query.IsListing) {u : Observed} {answer : Answer}
    (hrun : call.run o.state = .ok (answer, u.state)) (hstep : o.step call = some u) :
    (¬call.Failed o.state u.state → ∃ fetch, u.latest call.query.cacheAndKey = some fetch ∧
      fetch.listing = answer ∧ call.io.now - chacheDuration ≤ fetch.start) ∧
    ∀ fetch, o.latest call.query.cacheAndKey = some fetch →
      call.io.now - chacheDuration ≤ fetch.start →
        answer = fetch.listing ∧ u.fetches = o.fetches ∧
          u.state = o.state.note
            (.used call.query.cacheAndKey.1 call.query.entity call.query.cacheAndKey.2) := by
  have ho : o.Mirrors := @run_induction _ _ Observed.step _ (fun call ↦ call.query.IsListing)
    (fun _ o ↦ o.Mirrors) (mirrors_start servers serverNames)
    (fun _ _ _ _ hm hl hs ↦ mirrors_step hm hl hs) _ hlistings _ h
  have hu : u.Mirrors := mirrors_step ho hlisting hstep
  refine ⟨fun hfailed ↦ ?_, fun fetch hlatest hyoung ↦ ?_⟩
  · obtain ⟨expiry, hentry, hfresh⟩ := expiring_of_not_failed hlisting hrun hfailed
    rw [hu _ hlisting] at hentry
    obtain ⟨fetch, hlatest, hsame⟩ := Option.map_eq_some_iff.1 hentry
    obtain ⟨rfl, rfl⟩ := Prod.mk.inj hsame
    exact ⟨fetch, hlatest, rfl, by omega⟩
  · have hentry : o.state.expiring call.query =
        some (fetch.start + chacheDuration, fetch.listing) := by
      rw [ho _ hlisting, hlatest, Option.map_some]
    obtain ⟨hanswer, hused⟩ := used_of_fresh hlisting hentry (by omega) hrun
    refine ⟨hanswer, ?_, hused⟩
    rw [Observed.step, hrun] at hstep
    rw [← congrArg Observed.fetches (Option.some.inj hstep)]
    show (call.fetch o.state u.state).toList ++ o.fetches = o.fetches
    rw [RestCall.fetch, hused, lastAnswer_note_used]
    rfl

/-- Two users list the scopes of a server in one second; the second one is answered from the entry
of the first. -/
theorem listing_bounded_staleness_same_second :
    ∃ (o u : Observed) (answer : Answer),
      exec Observed.step ⟨State.start twoHolders [['s']], []⟩ [scopesCall openRucio 7] = some o ∧
      (scopesCall openRucio 8).run o.state = .ok (answer, u.state) ∧
      ∀ fetch, o.latest (.scopes, ['s']) = some fetch →
        1000000 - chacheDuration ≤ fetch.start →
          answer = fetch.listing ∧ u.fetches = o.fetches := by
  have hrun : (exec Observed.step ⟨State.start twoHolders [['s']], []⟩
      ([scopesCall openRucio 7] ++ [scopesCall openRucio 8])).isSome = true := by decide +kernel
  obtain ⟨u, hu⟩ := Option.isSome_iff_exists.1 hrun
  obtain ⟨o, ho, hstep⟩ := exec_concat Observed.step hu
  obtain ⟨⟨answer, t⟩, hcall, hnext⟩ := map_toOption_eq_some hstep
  obtain rfl : t = u.state := congrArg Observed.state hnext
  have hlistings : ∀ call ∈ [scopesCall openRucio 7], call.query.IsListing := by
    intro call hmem
    rw [List.mem_singleton.1 hmem]
    exact trivial
  have hlisting : (scopesCall openRucio 8).query.IsListing := trivial
  have hall := listing_bounded_staleness hlistings ho hlisting hcall hstep
  exact ⟨o, u, answer, ho, hcall, fun fetch hlatest hyoung ↦
    ⟨(hall.2 fetch hlatest hyoung).1, (hall.2 fetch hlatest hyoung).2.1⟩⟩

end FusePosix
