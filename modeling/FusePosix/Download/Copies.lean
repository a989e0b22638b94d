import FusePosix.Download.Job
import FusePosix.Lib.Transition

/-!
# Who is given which settings

For every user who downloads from a server or logs in to it, `copyConfig` makes a copy of the
settings of the server, and adds a line that names the file where the user's token is kept. The
copies and the token files of all users and servers lie in one folder, told apart by their names.
Four things get in the way of each having his own (`settings_private_iff`):

* the name of a token file is that of the user, so that all servers share the tokens of a user;
* the name of a copy is put together from the name of the settings file and that of the user, with
  `_` in between, and there may be more than one way to take it apart;
* a file that is there already is handed out as it is, be it the copy of somebody else, or one to
  which the line with the token file could not be added;
* nobody looks whether the line was written.

With one server and a folder that is empty at first, everybody gets his own
(`private_of_one_server`).
-/

namespace FusePosix

open Transition

/-! ### Copies -/

/-- The token file that is named in the copy of a user. -/
def configTokenPath (destinationFolder user : Str) : Str :=
  destinationFolder ++ user ++ ".token".toList

/-- The file from which `GET_OIDC` reads the token after a login. -/
def oidcTokenPath (bundle : CurlOIDCBundle) (username : Str) : Str :=
  bundle.tempConfigFolder ++ username ++ ".token".toList

/-- The settings of a server, with the line that is added for a user. -/
def personalConfig (destinationFolder user text : Str) : Str :=
  text ++ ['\n'] ++ "auth_token_file_path = ".toList ++ configTokenPath destinationFolder user ++
    ['\n']

/-- How a copy is made. -/
inductive CopyEnds (fs : FileSystem) (fault : CopyFault) (source folder user : Str) :
    Except Fault Str × FileSystem → Prop
  /-- There is a file already. -/
  | existing (hold : fs.contains (configCopyPath source folder user) = true) :
      CopyEnds fs fault source folder user (.ok (configCopyPath source folder user), fs)
  /-- The settings cannot be copied. -/
  | failed (hnew : fs.contains (configCopyPath source folder user) = false)
      (hfailed : fs.contains source = false ∨ fault = .copyFile .none) :
      CopyEnds fs fault source folder user (.error .runtimeError, fs)
  /-- The settings are copied in part, or the line cannot be added. -/
  | halfway {text part : Str} (hnew : fs.contains (configCopyPath source folder user) = false)
      (hsource : fs.find source = some text) (hpart : part <+: text)
      (hfault : fault = .openDestination ∨ ∃ left, fault = .copyFile (some left)) :
      CopyEnds fs fault source folder user
        (.error .runtimeError, fs.insert (configCopyPath source folder user) part)
  | copied {text : Str} (hnew : fs.contains (configCopyPath source folder user) = false)
      (hsource : fs.find source = some text) (hfault : fault.returns = true) :
      CopyEnds fs fault source folder user (.ok (configCopyPath source folder user),
        fs.insert (configCopyPath source folder user)
          (text ++ fault.reaches (authTokenLine folder user)))

/-- A user has been given the settings of a server. -/
structure Grant where
  source : Str
  user : Str
  destination : Str
  deriving DecidableEq, Repr

/-- The files, and what has been given to whom, latest first. -/
structure Copies where
  files : FileSystem
  granted : List Grant := []

/-- A call of `copyConfig`. -/
structure ConfigCall where
  source : Str
  user : Str
  fault : CopyFault := .none
  deriving DecidableEq, Repr

/-- Make a call, and note what it returns. -/
def Copies.step (folder : Str) (s : Copies) (call : ConfigCall) : Option Copies :=
  let copy := copyConfig s.files call.fault call.source folder call.user
  match copy.1 with
  | .ok destination =>
    some { files := copy.2, granted := ⟨call.source, call.user, destination⟩ :: s.granted }
  | .error _ => some { s with files := copy.2 }

/-- **Settings and tokens are private**: two different pairs of a server and a user have different
copies and different token files, and everybody's copy is the settings of the server with the user's
line. -/
structure Private (folder : Str) (s : Copies) : Prop where
  destinations : ∀ g ∈ s.granted, ∀ g' ∈ s.granted, (g.source, g.user) ≠ (g'.source, g'.user) →
    g.destination ≠ g'.destination
  tokens : ∀ g ∈ s.granted, ∀ g' ∈ s.granted, (g.source, g.user) ≠ (g'.source, g'.user) →
    configTokenPath folder g.user ≠ configTokenPath folder g'.user
  copies : ∀ g ∈ s.granted, ∃ text, s.files.find g.source = some text ∧
    s.files.find g.destination = some (personalConfig folder g.user text)

/-- A call returns a path: there is a file, or the settings are copied and opened for the line. -/
def ConfigCall.Returns (folder : Str) (s : Copies) (call : ConfigCall) : Prop :=
  s.files.contains (configCopyPath call.source folder call.user) = true ∨
    s.files.contains call.source = true ∧ call.fault.returns = true

/-- If the call returns, the user has not been given the settings of another server, nobody else has
been given the file, and if it is there already, it is the settings with the user's line. If it is
not, the whole line is written. -/
def ConfigCall.Harmless (folder : Str) (s : Copies) (call : ConfigCall) : Prop :=
  call.Returns folder s →
    (∀ g ∈ s.granted, g.user = call.user → g.source = call.source) ∧
    (∀ g ∈ s.granted, g.destination = configCopyPath call.source folder call.user →
      g.user = call.user) ∧
    (∀ copy, s.files.find (configCopyPath call.source folder call.user) = some copy →
      ∃ text, s.files.find call.source = some text ∧
        copy = personalConfig folder call.user text) ∧
    (s.files.contains (configCopyPath call.source folder call.user) = false →
      call.fault.reaches (authTokenLine folder call.user) = authTokenLine folder call.user)

section Copies

variable {fs fs' : FileSystem} {fault : CopyFault} {folder source user : Str} {s t : Copies}
  {call : ConfigCall}

/-- **After a login the token is read from the file that the copy names.** -/
theorem oidcTokenPath_eq (bundle : CurlOIDCBundle) (username : Str) :
    oidcTokenPath bundle username = configTokenPath bundle.tempConfigFolder username :=
  rfl

/-- The settings with the line that is added. -/
theorem personalConfig_eq (folder user text : Str) :
    personalConfig folder user text = text ++ authTokenLine folder user := by
  simp [personalConfig, authTokenLine, configTokenPath]

/-- `copyConfig` ends in one of the four ways. -/
theorem copyEnds (fs : FileSystem) (fault : CopyFault) (source folder user : Str) :
    CopyEnds fs fault source folder user (copyConfig fs fault source folder user) := by
  rcases hold : fs.contains (configCopyPath source folder user)
  · rcases hsource : fs.find source with - | text
    · have hnone := Table.contains_eq_false.2 hsource
      have hcopy : copyConfig fs fault source folder user = (.error .runtimeError, fs) := by
        simp [copyConfig, hold, hsource]
      exact hcopy ▸ .failed hold (Or.inl hnone)
    -- a fault in one system call: the checks before it pass, and what was written until then stays
    · rcases fault with - | (- | left) | - | written
      · have hcopy : copyConfig fs .none source folder user =
            (.ok (configCopyPath source folder user), fs.insert (configCopyPath source folder user)
              (text ++ CopyFault.none.reaches (authTokenLine folder user))) := by
          simp [copyConfig, hold, hsource]
        exact hcopy ▸ .copied hold hsource rfl
      · have hcopy : copyConfig fs (.copyFile .none) source folder user =
            (.error .runtimeError, fs) := by
          simp [copyConfig, hold, hsource]
        exact hcopy ▸ .failed hold (Or.inr rfl)
      · have hcopy : copyConfig fs (.copyFile (some left)) source folder user =
            (.error .runtimeError,
              fs.insert (configCopyPath source folder user) (text.take left)) := by
          simp [copyConfig, hold, hsource]
        exact hcopy ▸ .halfway hold hsource (List.take_prefix left text) (Or.inr ⟨left, rfl⟩)
      · have hcopy : copyConfig fs .openDestination source folder user =
            (.error .runtimeError, fs.insert (configCopyPath source folder user) text) := by
          simp [copyConfig, hold, hsource]
        exact hcopy ▸ .halfway hold hsource List.prefix_rfl (Or.inl rfl)
      · have hcopy : copyConfig fs (.writeLine written) source folder user =
            (.ok (configCopyPath source folder user), fs.insert (configCopyPath source folder user)
              (text ++ (CopyFault.writeLine written).reaches (authTokenLine folder user))) := by
          simp [copyConfig, hold, hsource]
        exact hcopy ▸ .copied hold hsource rfl
  · have hcopy : copyConfig fs fault source folder user =
        (.ok (configCopyPath source folder user), fs) := by
      simp [copyConfig, hold]
    exact hcopy ▸ .existing hold

/-- A file that could not be finished means that the call did not return. -/
theorem not_returns_of_halfway
    (h : fault = .openDestination ∨ ∃ left, fault = .copyFile (some left)) :
    fault.returns = false := by
  rcases h with rfl | ⟨left, rfl⟩
  · rfl
  · rfl

/-- No file is taken away or changed. -/
def Grows (fs fs' : FileSystem) : Prop := ∀ path text, fs.find path = some text →
  fs'.find path = some text

theorem grows_insert {path text : Str} (hnew : fs.contains path = false) :
    Grows fs (fs.insert path text) := by
  intro other content hcontent
  have hne : other ≠ path := by
    rintro rfl
    cases (Table.contains_eq_false.1 hnew).symm.trans hcontent
  rw [Table.find_insert, if_neg hne, hcontent]

theorem configTokenPath_inj {user' : Str} :
    configTokenPath folder user = configTokenPath folder user' ↔ user = user' := by
  rw [configTokenPath, configTokenPath, List.append_left_inj, List.append_right_inj]

/-! ### One more copy -/

/-- **What one more grant means for privacy.** -/
theorem private_grant_iff {destination : Str} (hgrows : Grows s.files fs') (hs : Private folder s) :
    Private folder ⟨fs', ⟨source, user, destination⟩ :: s.granted⟩ ↔
      (∀ g ∈ s.granted, g.user = user → g.source = source) ∧
      (∀ g ∈ s.granted, g.destination = destination → g.user = user) ∧
      ∃ text, fs'.find source = some text ∧
        fs'.find destination = some (personalConfig folder user text) := by
  constructor
  · intro h
    refine ⟨fun g hg huser ↦ ?_, fun g hg hdestination ↦ ?_, h.copies _ List.mem_cons_self⟩
    · by_contra hsource
      refine h.tokens g (List.mem_cons_of_mem _ hg) _ List.mem_cons_self (fun heq ↦ ?_)
        (configTokenPath_inj.2 huser)
      exact hsource (Prod.mk.inj heq).1
    · by_contra huser
      refine h.destinations g (List.mem_cons_of_mem _ hg) _ List.mem_cons_self (fun heq ↦ ?_)
        hdestination
      exact huser (Prod.mk.inj heq).2
  · rintro ⟨hsource, huser, hcopy⟩
    -- a grant to the same user is a grant of the same settings
    have hpair : ∀ g ∈ s.granted, g.user = user → (g.source, g.user) = (source, user) :=
      fun g hg heq ↦ by rw [hsource g hg heq, heq]
    refine ⟨fun g hg g' hg' hne ↦ ?_, fun g hg g' hg' hne ↦ ?_, fun g hg ↦ ?_⟩
    · rcases List.mem_cons.1 hg with rfl | hg <;> rcases List.mem_cons.1 hg' with rfl | hg'
      · exact absurd rfl hne
      · exact fun heq ↦ hne (hpair g' hg' (huser g' hg' heq.symm)).symm
      · exact fun heq ↦ hne (hpair g hg (huser g hg heq))
      · exact hs.destinations g hg g' hg' hne
    · rcases List.mem_cons.1 hg with rfl | hg <;> rcases List.mem_cons.1 hg' with rfl | hg'
      · exact absurd rfl hne
      · exact fun heq ↦ hne (hpair g' hg' (configTokenPath_inj.1 heq).symm).symm
      · exact fun heq ↦ hne (hpair g hg (configTokenPath_inj.1 heq))
      · exact hs.tokens g hg g' hg' hne
    · rcases List.mem_cons.1 hg with rfl | hg
      · exact hcopy
      · obtain ⟨text, htext, hpersonal⟩ := hs.copies g hg
        exact ⟨text, hgrows _ _ htext, hgrows _ _ hpersonal⟩

/-- More files do no harm to privacy. -/
theorem Private.grows (hs : Private folder s) (hgrows : Grows s.files fs') :
    Private folder { s with files := fs' } := by
  refine ⟨hs.destinations, hs.tokens, fun g hg ↦ ?_⟩
  obtain ⟨text, htext, hpersonal⟩ := hs.copies g hg
  exact ⟨text, hgrows _ _ htext, hgrows _ _ hpersonal⟩

/-- A call that finds its destination there. -/
theorem private_found_iff (hs : Private folder s)
    (hold : s.files.contains (configCopyPath call.source folder call.user) = true) :
    Private folder { s with granted :=
        ⟨call.source, call.user, configCopyPath call.source folder call.user⟩ :: s.granted } ↔
      call.Harmless folder s := by
  have hreturns : call.Returns folder s := Or.inl hold
  rw [private_grant_iff (fun _ _ hfind ↦ hfind) hs, ConfigCall.Harmless, imp_iff_right hreturns]
  obtain ⟨copy, hcopy⟩ := Table.contains_eq_true.1 hold
  refine and_congr_right fun _ ↦ and_congr_right fun _ ↦ ?_
  constructor
  · rintro ⟨text, htext, hpersonal⟩
    refine ⟨fun other hother ↦ ⟨text, htext, Option.some.inj (hother.symm.trans hpersonal)⟩,
      fun hnew ↦ absurd (hnew.symm.trans hold) Bool.false_ne_true⟩
  · rintro ⟨hall, -⟩
    obtain ⟨text, htext, rfl⟩ := hall copy hcopy
    exact ⟨text, htext, hcopy⟩

/-- A call that makes its destination. -/
theorem private_copied_iff {text : Str} (hs : Private folder s)
    (hnew : s.files.contains (configCopyPath call.source folder call.user) = false)
    (hsource : s.files.find call.source = some text) (hfault : call.fault.returns = true) :
    Private folder ⟨s.files.insert (configCopyPath call.source folder call.user)
        (text ++ call.fault.reaches (authTokenLine folder call.user)),
      ⟨call.source, call.user, configCopyPath call.source folder call.user⟩ :: s.granted⟩ ↔
      call.Harmless folder s := by
  have hreturns : call.Returns folder s :=
    Or.inr ⟨Table.contains_eq_true.2 ⟨text, hsource⟩, hfault⟩
  have hkept := @grows_insert s.files _
    (text ++ call.fault.reaches (authTokenLine folder call.user)) hnew _ _ hsource
  rw [private_grant_iff (grows_insert hnew) hs, ConfigCall.Harmless, imp_iff_right hreturns]
  refine and_congr_right fun _ ↦ and_congr_right fun _ ↦ ?_
  constructor
  · rintro ⟨text', htext', hpersonal⟩
    obtain rfl := Option.some.inj (hkept.symm.trans htext')
    rw [Table.find_insert_self, Option.some.injEq, personalConfig_eq,
      List.append_cancel_left_eq] at hpersonal
    refine ⟨fun copy hcopy ↦ ?_, fun _ ↦ hpersonal⟩
    cases (Table.contains_eq_false.1 hnew).symm.trans hcopy
  · rintro ⟨-, hwhole⟩
    refine ⟨text, hkept, ?_⟩
    rw [Table.find_insert_self, personalConfig_eq, hwhole hnew]

/-- **What one call means for privacy.** -/
theorem private_step_iff (hs : Private folder s) (h : s.step folder call = some t) :
    Private folder t ↔ call.Harmless folder s := by
  have hends := copyEnds s.files call.fault call.source folder call.user
  rw [Copies.step] at h
  generalize copyConfig s.files call.fault call.source folder call.user = copy at h hends
  rcases hends with ⟨hold⟩ | ⟨hnew, hfailed⟩ | ⟨hnew, hsource, -, hfault⟩ | ⟨hnew, hsource, hfault⟩
  · obtain rfl := Option.some.inj h
    exact private_found_iff hs hold
  · obtain rfl := Option.some.inj h
    refine iff_of_true hs fun hreturns ↦ ?_
    rcases hreturns with hold | ⟨hthere, hreturns⟩
    · exact absurd (hnew.symm.trans hold) Bool.false_ne_true
    · rcases hfailed with hmissing | hfault
      · exact absurd (hmissing.symm.trans hthere) Bool.false_ne_true
      · rw [hfault] at hreturns
        cases hreturns
  · obtain rfl := Option.some.inj h
    refine iff_of_true (hs.grows (grows_insert hnew)) fun hreturns ↦ ?_
    rcases hreturns with hold | ⟨-, hreturns⟩
    · exact absurd (hnew.symm.trans hold) Bool.false_ne_true
    · exact absurd ((not_returns_of_halfway hfault).symm.trans hreturns) Bool.false_ne_true
  · obtain rfl := Option.some.inj h
    exact private_copied_iff hs hnew hsource hfault

/-! ### Runs -/

/-- Before the first call nobody has been given anything. -/
def Copies.start (files : FileSystem) : Copies := { files }

theorem private_start (files : FileSystem) : Private folder (Copies.start files) :=
  ⟨fun _ hg ↦ absurd hg List.not_mem_nil, fun _ hg ↦ absurd hg List.not_mem_nil,
    fun _ hg ↦ absurd hg List.not_mem_nil⟩

/-- **When settings and tokens stay private.** Take any files, any folder, and any sequence of
calls of `copyConfig` for any servers and users, whatever goes wrong with the copies. Settings
and tokens are private in every state on the way exactly if every call is harmless in the state
it is made in. -/
theorem settings_private_iff (folder : Str) (files : FileSystem) (calls : List ConfigCall) :
    Along (Copies.step folder) (Private folder) (Copies.start files) calls ↔
      StepsMeet (Copies.step folder) (fun s call ↦ call.Harmless folder s) (Copies.start files)
        calls :=
  @along_iff_stepsMeet _ _ (Copies.step folder) (fun _ ↦ True) (Private folder) _
    (fun _ _ _ _ hs hstep ↦ ⟨trivial, private_step_iff hs hstep⟩) calls _ trivial
    (private_start files)

/-- Two users have two copies of the settings of a server. -/
theorem configCopyPath_inj {user' : Str} :
    configCopyPath source folder user = configCopyPath source folder user' ↔ user = user' := by
  rw [configCopyPath, configCopyPath, List.append_right_inj, List.append_left_inj,
    List.append_right_inj]

/-- What is known while there is a single server: grants go to the places of their users, and a file
at the place of a user is his copy. -/
structure OneServer (folder source : Str) (s : Copies) : Prop where
  granted : ∀ g ∈ s.granted, g.source = source ∧ g.destination = configCopyPath source folder g.user
  copies : ∀ user copy, s.files.find (configCopyPath source folder user) = some copy →
    ∃ text, s.files.find source = some text ∧ copy = personalConfig folder user text

/-- Nothing that goes wrong leaves an unfinished file behind. -/
def CopyFault.Clean (fault : CopyFault) : Prop := fault = .none ∨ fault = .copyFile .none

/-- With one server a call is harmless. -/
theorem OneServer.harmless (h : OneServer folder source s) (hsource : call.source = source)
    (hclean : call.fault.Clean) : call.Harmless folder s := by
  subst hsource
  have hwhole : call.fault.reaches (authTokenLine folder call.user) =
      authTokenLine folder call.user := by
    rcases hclean with hfault | hfault
    · rw [hfault]
      rfl
    · rw [hfault]
      rfl
  refine fun _ ↦ ⟨fun g hg _ ↦ (h.granted g hg).1, fun g hg hdestination ↦ ?_, h.copies call.user,
    fun _ ↦ hwhole⟩
  rw [(h.granted g hg).2] at hdestination
  exact configCopyPath_inj.1 hdestination

/-- One more grant, with the files of the other users untouched. -/
theorem OneServer.grant {text : Str} (h : OneServer folder source s)
    (hnew : s.files.contains (configCopyPath source folder user) = false)
    (hsource : s.files.find source = some text) :
    OneServer folder source
      ⟨s.files.insert (configCopyPath source folder user) (personalConfig folder user text),
        ⟨source, user, configCopyPath source folder user⟩ :: s.granted⟩ := by
  have hkept := @grows_insert s.files _ (personalConfig folder user text) hnew _ _ hsource
  refine ⟨fun g hg ↦ ?_, fun other copy hcopy ↦ ?_⟩
  · rcases List.mem_cons.1 hg with rfl | hg
    · exact ⟨rfl, rfl⟩
    · exact h.granted g hg
  · rw [Table.find_insert] at hcopy
    split_ifs at hcopy with hpath
    · obtain rfl := configCopyPath_inj.1 hpath
      exact ⟨text, hkept, (Option.some.inj hcopy).symm⟩
    · obtain ⟨text', htext', rfl⟩ := h.copies other copy hcopy
      obtain rfl : text' = text := Option.some.inj (htext'.symm.trans hsource)
      exact ⟨text', hkept, rfl⟩

/-- **One server stays one server**, if no file is left unfinished. -/
theorem OneServer.step (h : OneServer folder source s) (hsource : call.source = source)
    (hclean : call.fault.Clean) (hstep : s.step folder call = some t) :
    OneServer folder source t := by
  have hends := copyEnds s.files call.fault call.source folder call.user
  rw [Copies.step] at hstep
  subst hsource
  generalize copyConfig s.files call.fault call.source folder call.user = copy at hstep hends
  -- `hclean` excludes the ends that leave a file without the whole line
  rcases hends with ⟨hold⟩ | ⟨-, -⟩ | ⟨-, -, -, hfault⟩ | ⟨hnew, hfind, hfault⟩
  · obtain rfl := Option.some.inj hstep
    refine ⟨fun g hg ↦ ?_, h.copies⟩
    rcases List.mem_cons.1 hg with rfl | hg
    · exact ⟨rfl, rfl⟩
    · exact h.granted g hg
  · obtain rfl := Option.some.inj hstep
    exact h
  · rcases hclean with hnone | hnone
    · rw [hnone] at hfault
      simp at hfault
    · rw [hnone] at hfault
      simp at hfault
  · rename_i text
    -- what reaches the file is the text of the shared settings with the line of the token behind it
    have hwhole : text ++ call.fault.reaches (authTokenLine folder call.user) =
        personalConfig folder call.user text := by
      rcases hclean with hnone | hnone
      · rw [hnone, personalConfig_eq]
        rfl
      · rw [hnone] at hfault
        cases hfault
    obtain rfl := Option.some.inj hstep
    rw [hwhole]
    exact h.grant hnew hfind

/-- **With one server everybody gets his own**, if there are no copies at first and no file is left
unfinished. -/
theorem private_of_one_server {files : FileSystem}
    (hempty : ∀ user, files.contains (configCopyPath source folder user) = false)
    {calls : List ConfigCall}
    (hcalls : ∀ call ∈ calls, call.source = source ∧ call.fault.Clean) :
    Along (Copies.step folder) (Private folder) (Copies.start files) calls := by
  have hstart : OneServer folder source (Copies.start files) := by
    refine ⟨fun _ hg ↦ absurd hg List.not_mem_nil, fun user copy hcopy ↦ ?_⟩
    cases (Table.contains_eq_false.1 (hempty user)).symm.trans hcopy
  have hprivate := @private_start folder files
  generalize Copies.start files = s at hstart hprivate
  induction calls generalizing s with
  | nil => exact hprivate
  | cons call calls ih =>
    obtain ⟨hsource, hfault⟩ := hcalls call List.mem_cons_self
    refine ⟨hprivate, fun t ht ↦
      ih (fun other hother ↦ hcalls other (List.mem_cons_of_mem _ hother)) t
      (hstart.step hsource hfault ht)
      ((private_step_iff hprivate ht).2 (hstart.harmless hsource hfault))⟩

end Copies

/-! ### Two servers -/

/-- The settings of three servers, in one directory. -/
def threeSettings : FileSystem :=
  ((Table.empty.insert "d/a.cfg".toList "rucio_host = a\n".toList).insert
    "d/b.cfg".toList "rucio_host = b\n".toList).insert "d/a_b.cfg".toList "rucio_host = c\n".toList

/-- **Servers share the tokens of a user, and users share copies.** A user of two servers is given
one token file for both. And the copy that was made of the settings of `a` for the user `b_c` is
given to the user `c` of the server `a_b`. -/
theorem settings_shared :
    ¬Along (Copies.step "t/".toList) (Private "t/".toList) (Copies.start threeSettings)
        [⟨"d/a.cfg".toList, ['j'], .none⟩, ⟨"d/b.cfg".toList, ['j'], .none⟩] ∧
      ¬Along (Copies.step "t/".toList) (Private "t/".toList) (Copies.start threeSettings)
        [⟨"d/a.cfg".toList, "b_c".toList, .none⟩, ⟨"d/a_b.cfg".toList, ['c'], .none⟩] := by
  constructor
  · intro hprivate
    have hrun : (exec (Copies.step "t/".toList) (Copies.start threeSettings)
        [⟨"d/a.cfg".toList, ['j'], .none⟩, ⟨"d/b.cfg".toList, ['j'], .none⟩]).map Copies.granted =
        some [⟨"d/b.cfg".toList, ['j'], "t/b_j.cfg".toList⟩,
          ⟨"d/a.cfg".toList, ['j'], "t/a_j.cfg".toList⟩] := by decide +kernel
    obtain ⟨s, hs, hgranted⟩ := Option.map_eq_some_iff.1 hrun
    refine (along_end hprivate hs).tokens ⟨"d/b.cfg".toList, ['j'], "t/b_j.cfg".toList⟩ ?_
      ⟨"d/a.cfg".toList, ['j'], "t/a_j.cfg".toList⟩ ?_ (by decide +kernel) rfl
    · rw [hgranted]
      exact List.mem_cons_self
    · rw [hgranted]
      exact List.mem_cons_of_mem _ List.mem_cons_self
  · intro hprivate
    have hrun : (exec (Copies.step "t/".toList) (Copies.start threeSettings)
        [⟨"d/a.cfg".toList, "b_c".toList, .none⟩, ⟨"d/a_b.cfg".toList, ['c'], .none⟩]).map
          Copies.granted =
        some [⟨"d/a_b.cfg".toList, ['c'], "t/a_b_c.cfg".toList⟩,
          ⟨"d/a.cfg".toList, "b_c".toList, "t/a_b_c.cfg".toList⟩] := by decide +kernel
    obtain ⟨s, hs, hgranted⟩ := Option.map_eq_some_iff.1 hrun
    refine (along_end hprivate hs).destinations
      ⟨"d/a_b.cfg".toList, ['c'], "t/a_b_c.cfg".toList⟩ ?_
      ⟨"d/a.cfg".toList, "b_c".toList, "t/a_b_c.cfg".toList⟩ ?_ (by decide +kernel) rfl
    · rw [hgranted]
      exact List.mem_cons_self
    · rw [hgranted]
      exact List.mem_cons_of_mem _ List.mem_cons_self

end FusePosix
