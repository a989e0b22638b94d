import FusePosix.Download.Copies

/-!
# Whether a copy is complete

`copyConfig` copies the settings, opens the copy and adds a line to it. Each of the three may fail,
and what has been made so far is left where it is. The next call for the same user looks no further
than whether there is a file.

`complete_iff` says when every path that is returned leads to a complete copy. It needs to know for
each file whether it was there from the start or else which call has made it, so `CopyHistory` keeps
the makers of the copies beside the files. A call that does not finish its copy spoils all later
ones for the same settings and user (`not_returnsComplete_of_unfinished`).
-/

namespace FusePosix

open Transition

/-! ### What a call leaves -/

/-- What is left of a text and a line once the text has been found. -/
def CopyFault.leaves (fault : CopyFault) (text line : Str) : Option Str :=
  match fault with
  | .copyFile left => left.map text.take
  | .openDestination => some text
  | .none | .writeLine _ => some (text ++ fault.reaches line)

/-- The copy is finished: the call goes through, and the whole line reaches the file. -/
def CopyFault.Finishes (fault : CopyFault) (line : Str) : Prop :=
  fault.returns = true ∧ fault.reaches line = line

/-- The files, and the call that has made each of the copies. -/
structure CopyHistory where
  files : FileSystem
  makers : Table Str ConfigCall := Table.empty

/-- Make a call. If there is a new file behind it, the call has made it. -/
def CopyHistory.step (folder : Str) (s : CopyHistory) (call : ConfigCall) : Option CopyHistory :=
  let destination := configCopyPath call.source folder call.user
  let files := (copyConfig s.files call.fault call.source folder call.user).2
  let makers := if !s.files.contains destination && files.contains destination then
    s.makers.insert destination call else s.makers
  some { files, makers }

/-- **A path that is returned leads to a complete copy**: the text of the settings with the line of
the user. -/
def ConfigCall.ReturnsComplete (folder : Str) (s : CopyHistory) (call : ConfigCall) : Prop :=
  let copy := copyConfig s.files call.fault call.source folder call.user
  ∀ path, copy.1 = .ok path → ∃ text, copy.2.find call.source = some text ∧
    copy.2.find path = some (personalConfig folder call.user text)

/-- The condition on a call, from where its file comes. -/
structure ConfigCall.FindsComplete (folder : Str) (s : CopyHistory) (call : ConfigCall) :
    Prop where
  /-- If there is no file yet and the call goes through, the whole line is written. -/
  new : s.files.contains (configCopyPath call.source folder call.user) = false →
    s.files.contains call.source = true → call.fault.returns = true →
      call.fault.reaches (authTokenLine folder call.user) = authTokenLine folder call.user
  /-- If an earlier call for the same settings has made it, that call has finished it. -/
  same : ∀ m, s.makers.find (configCopyPath call.source folder call.user) = some m →
    m.source = call.source → m.fault.Finishes (authTokenLine folder m.user)
  /-- If an earlier call for other settings has made it, what that call has left of them happens to
  be the same. -/
  other : ∀ m, s.makers.find (configCopyPath call.source folder call.user) = some m →
    m.source ≠ call.source → ∃ text theirs, s.files.find call.source = some text ∧
      s.files.find m.source = some theirs ∧ m.fault.leaves theirs (authTokenLine folder m.user) =
        some (personalConfig folder call.user text)
  /-- If it was there from the start, it is complete. -/
  old : s.makers.find (configCopyPath call.source folder call.user) = none →
    ∀ copy, s.files.find (configCopyPath call.source folder call.user) = some copy →
      ∃ text, s.files.find call.source = some text ∧ copy = personalConfig folder call.user text

/-- What is known about the makers: each has left what is there of the text that is there. -/
def CopyHistory.Kept (folder : Str) (s : CopyHistory) : Prop :=
  ∀ destination m, s.makers.find destination = some m →
    destination = configCopyPath m.source folder m.user ∧
    ∃ text copy, s.files.find m.source = some text ∧
      m.fault.leaves text (authTokenLine folder m.user) = some copy ∧
      s.files.find destination = some copy

section Complete

variable {fs : FileSystem} {fault : CopyFault} {folder source user text : Str}
  {s t : CopyHistory} {call m : ConfigCall}

theorem copyConfig_of_old (hold : fs.contains (configCopyPath source folder user) = true) :
    copyConfig fs fault source folder user = (.ok (configCopyPath source folder user), fs) := by
  rw [copyConfig, if_pos hold]

theorem copyConfig_of_missing (hnew : fs.contains (configCopyPath source folder user) = false)
    (hsource : fs.find source = none) :
    copyConfig fs fault source folder user = (.error .runtimeError, fs) := by
  simp [copyConfig, hnew, hsource]

/-- A copy that is tried. -/
theorem copyConfig_of_new (hnew : fs.contains (configCopyPath source folder user) = false)
    (hsource : fs.find source = some text) :
    copyConfig fs fault source folder user =
      (if fault.returns then .ok (configCopyPath source folder user) else .error .runtimeError,
        (fault.leaves text (authTokenLine folder user)).elim fs
          (fs.insert (configCopyPath source folder user))) := by
  rcases fault with - | (- | left) | - | written
  all_goals simp [copyConfig, hnew, hsource, CopyFault.returns, CopyFault.leaves]

/-- A call that goes through leaves something. -/
theorem exists_leaves (h : fault.returns = true) (line : Str) :
    ∃ copy, fault.leaves text line = some copy := by
  rcases fault with - | left | - | written
  · exact ⟨_, rfl⟩
  · cases h
  · cases h
  · exact ⟨_, rfl⟩

/-- **A copy is complete exactly if the call that has made it has finished it.** -/
theorem leaves_eq_personalConfig_iff :
    fault.leaves text (authTokenLine folder user) = some (personalConfig folder user text) ↔
      fault.Finishes (authTokenLine folder user) := by
  have hline : authTokenLine folder user ≠ [] := List.cons_ne_nil _ _
  rw [personalConfig_eq]
  generalize authTokenLine folder user = line at hline
  rcases fault with - | (- | left) | - | written
  · exact iff_of_true rfl ⟨rfl, rfl⟩
  · exact iff_of_false (fun h ↦ by cases h) fun h ↦ by cases h.1
  · refine iff_of_false (fun h ↦ ?_) fun h ↦ by cases h.1
    -- part of the text is shorter than the text with the line
    have hlength := congrArg List.length (Option.some.inj h)
    rw [List.length_take, List.length_append] at hlength
    have := List.length_pos_iff.2 hline
    omega
  · refine iff_of_false (fun h ↦ ?_) fun h ↦ by cases h.1
    exact hline (List.self_eq_append_right.1 (Option.some.inj h))
  · refine Iff.trans ?_ (and_iff_right rfl).symm
    rw [CopyFault.leaves, Option.some.injEq, List.append_cancel_left_eq]

/-! ### One call -/

/-- A call either leaves all as it was, or makes its copy. -/
theorem step_cases (h : s.step folder call = some t) :
    t = s ∨ ∃ text copy, s.files.contains (configCopyPath call.source folder call.user) = false ∧
      s.files.find call.source = some text ∧
      call.fault.leaves text (authTokenLine folder call.user) = some copy ∧
      t = ⟨s.files.insert (configCopyPath call.source folder call.user) copy,
        s.makers.insert (configCopyPath call.source folder call.user) call⟩ := by
  obtain rfl := Option.some.inj h
  rcases hold : s.files.contains (configCopyPath call.source folder call.user) with - | -
  · rcases hsource : s.files.find call.source with - | text
    · rw [copyConfig_of_missing hold hsource, hold]
      exact Or.inl rfl
    · rw [copyConfig_of_new hold hsource]
      rcases hleaves : call.fault.leaves text (authTokenLine folder call.user) with - | copy
      · left
        simp [hold]
      · right
        refine ⟨text, copy, rfl, rfl, hleaves, ?_⟩
        simp
  · rw [copyConfig_of_old hold]
    left
    simp [hold]

/-- No call changes a file that is there. -/
theorem grows_step (h : s.step folder call = some t) : Grows s.files t.files := by
  rcases step_cases h with rfl | ⟨text, copy, hnew, -, -, rfl⟩
  · exact fun _ _ hfind ↦ hfind
  · exact grows_insert hnew

/-- **The makers stay known.** -/
theorem kept_copyStep (hs : s.Kept folder) (h : s.step folder call = some t) : t.Kept folder := by
  have hgrows := grows_step h
  rcases step_cases h with rfl | ⟨text, copy, hnew, hsource, hleaves, rfl⟩
  · exact hs
  · intro destination m hm
    rw [Table.find_insert] at hm
    split_ifs at hm with hpath
    · obtain rfl := Option.some.inj hm
      exact ⟨hpath, text, copy, hgrows _ _ hsource, hleaves, hpath ▸ Table.find_insert_self _ _ _⟩
    · obtain ⟨hplace, text', copy', hsource', hleaves', hcopy'⟩ := hs destination m hm
      exact ⟨hplace, text', copy', hgrows _ _ hsource', hleaves', hgrows _ _ hcopy'⟩

/-- A call that finds a file. -/
theorem returnsComplete_of_old {copy : Str}
    (hcopy : s.files.find (configCopyPath call.source folder call.user) = some copy) :
    call.ReturnsComplete folder s ↔ ∃ text, s.files.find call.source = some text ∧
      copy = personalConfig folder call.user text := by
  have hold := Table.contains_eq_true.2 ⟨copy, hcopy⟩
  rw [ConfigCall.ReturnsComplete, copyConfig_of_old hold]
  constructor
  · intro hall
    obtain ⟨text, hsource, hpersonal⟩ := hall _ rfl
    exact ⟨text, hsource, Option.some.inj (hcopy.symm.trans hpersonal)⟩
  · rintro ⟨text, hsource, rfl⟩ path hpath
    obtain rfl := Except.ok.inj hpath
    exact ⟨text, hsource, hcopy⟩

/-- A call that finds no file. -/
theorem returnsComplete_of_new
    (hnew : s.files.contains (configCopyPath call.source folder call.user) = false) :
    call.ReturnsComplete folder s ↔ (s.files.contains call.source = true →
      call.fault.returns = true →
        call.fault.reaches (authTokenLine folder call.user) = authTokenLine folder call.user) := by
  rcases hsource : s.files.find call.source with - | text
  · rw [ConfigCall.ReturnsComplete, copyConfig_of_missing hnew hsource, Table.contains, hsource]
    exact iff_of_true (fun path hpath ↦ by cases hpath) fun hthere ↦ by cases hthere
  · have hthere := Table.contains_eq_true.2 ⟨text, hsource⟩
    rw [ConfigCall.ReturnsComplete, copyConfig_of_new hnew hsource, imp_iff_right hthere]
    rcases hreturns : call.fault.returns with - | -
    · exact iff_of_true (fun path hpath ↦ by cases hpath) fun hyes ↦ by cases hyes
    · have hfinishes := @leaves_eq_personalConfig_iff call.fault folder call.user text
      rw [CopyFault.Finishes, hreturns, and_iff_right rfl] at hfinishes
      obtain ⟨copy, hleaves⟩ :=
        @exists_leaves _ text hreturns (authTokenLine folder call.user)
      have hkept := @grows_insert s.files _ copy hnew _ _ hsource
      rw [imp_iff_right rfl, ← hfinishes, hleaves, if_pos rfl, Option.some.injEq]
      constructor
      · intro hall
        obtain ⟨text', hsource', hpersonal⟩ := hall _ rfl
        obtain rfl := Option.some.inj (hkept.symm.trans hsource')
        exact Option.some.inj ((Table.find_insert_self _ _ _).symm.trans hpersonal)
      · rintro rfl path hpath
        obtain rfl := Except.ok.inj hpath
        exact ⟨text, hkept, Table.find_insert_self _ _ _⟩

/-! ### Where the file comes from -/

/-- There is no file, and so no call has made it. -/
theorem findsComplete_of_new
    (hnew : s.files.contains (configCopyPath call.source folder call.user) = false)
    (hm : s.makers.find (configCopyPath call.source folder call.user) = none) :
    call.FindsComplete folder s ↔ (s.files.contains call.source = true →
      call.fault.returns = true →
        call.fault.reaches (authTokenLine folder call.user) = authTokenLine folder call.user) := by
  refine ⟨fun h ↦ h.new hnew, fun hwhole ↦ ⟨fun _ ↦ hwhole, fun m hm' ↦ ?_, fun m hm' ↦ ?_,
    fun _ copy hcopy ↦ ?_⟩⟩
  · cases hm.symm.trans hm'
  · cases hm.symm.trans hm'
  · cases (Table.contains_eq_false.1 hnew).symm.trans hcopy

/-- The file was there from the start. -/
theorem findsComplete_of_old {copy : Str}
    (hcopy : s.files.find (configCopyPath call.source folder call.user) = some copy)
    (hm : s.makers.find (configCopyPath call.source folder call.user) = none) :
    call.FindsComplete folder s ↔ ∃ text, s.files.find call.source = some text ∧
      copy = personalConfig folder call.user text := by
  refine ⟨fun h ↦ h.old hm copy hcopy, fun hcomplete ↦ ⟨fun hnew ↦ ?_, fun m hm' ↦ ?_,
    fun m hm' ↦ ?_, fun _ copy' hcopy' ↦ ?_⟩⟩
  · cases (Table.contains_eq_false.1 hnew).symm.trans hcopy
  · cases hm.symm.trans hm'
  · cases hm.symm.trans hm'
  · obtain rfl := Option.some.inj (hcopy.symm.trans hcopy')
    exact hcomplete

/-- An earlier call has made the file. -/
theorem findsComplete_of_made {copy : Str}
    (hcopy : s.files.find (configCopyPath call.source folder call.user) = some copy)
    (hm : s.makers.find (configCopyPath call.source folder call.user) = some m) :
    call.FindsComplete folder s ↔
      (m.source = call.source → m.fault.Finishes (authTokenLine folder m.user)) ∧
      (m.source ≠ call.source → ∃ text theirs, s.files.find call.source = some text ∧
        s.files.find m.source = some theirs ∧ m.fault.leaves theirs (authTokenLine folder m.user) =
          some (personalConfig folder call.user text)) := by
  refine ⟨fun h ↦ ⟨h.same m hm, h.other m hm⟩, fun ⟨hsame, hother⟩ ↦ ⟨fun hnew ↦ ?_,
    fun m' hm' ↦ ?_, fun m' hm' ↦ ?_, fun hnone ↦ ?_⟩⟩
  · cases (Table.contains_eq_false.1 hnew).symm.trans hcopy
  · obtain rfl := Option.some.inj (hm.symm.trans hm')
    exact hsame
  · obtain rfl := Option.some.inj (hm.symm.trans hm')
    exact hother
  · cases hm.symm.trans hnone

/-- A file that an earlier call has made is complete if that call has finished it, or has by chance
left the same of other settings. -/
theorem made_complete_iff {copy : Str} (hs : s.Kept folder)
    (hcopy : s.files.find (configCopyPath call.source folder call.user) = some copy)
    (hm : s.makers.find (configCopyPath call.source folder call.user) = some m) :
    (∃ text, s.files.find call.source = some text ∧
        copy = personalConfig folder call.user text) ↔ call.FindsComplete folder s := by
  obtain ⟨hplace, text, copy', hsource, hleaves, hthere⟩ := hs _ m hm
  obtain rfl := Option.some.inj (hcopy.symm.trans hthere)
  rw [findsComplete_of_made hcopy hm]
  by_cases hsame : m.source = call.source
  · have huser : m.user = call.user := by
      rw [hsame] at hplace
      exact (configCopyPath_inj.1 hplace).symm
    have hfinishes := @leaves_eq_personalConfig_iff m.fault folder m.user text
    rw [hleaves, Option.some.injEq, huser] at hfinishes
    rw [hsame] at hsource
    rw [imp_iff_right hsame, and_iff_left fun hne ↦ absurd hsame hne, huser, ← hfinishes]
    constructor
    · rintro ⟨text', hsource', hpersonal⟩
      obtain rfl := Option.some.inj (hsource.symm.trans hsource')
      exact hpersonal
    · exact fun hpersonal ↦ ⟨text, hsource, hpersonal⟩
  · rw [imp_iff_right hsame, and_iff_right fun heq ↦ absurd heq hsame]
    constructor
    · rintro ⟨mine, hmine, hpersonal⟩
      exact ⟨mine, text, hmine, hsource, by rw [hleaves, hpersonal]⟩
    · rintro ⟨mine, theirs, hmine, htheirs, hsameText⟩
      obtain rfl := Option.some.inj (hsource.symm.trans htheirs)
      exact ⟨mine, hmine, Option.some.inj (hleaves.symm.trans hsameText)⟩

/-- **When a call returns a complete copy.** -/
theorem returnsComplete_iff (hs : s.Kept folder) :
    call.ReturnsComplete folder s ↔ call.FindsComplete folder s := by
  rcases hm : s.makers.find (configCopyPath call.source folder call.user) with - | m
  · rcases hcopy : s.files.find (configCopyPath call.source folder call.user) with - | copy
    · have hnew := Table.contains_eq_false.2 hcopy
      rw [returnsComplete_of_new hnew, findsComplete_of_new hnew hm]
    · rw [returnsComplete_of_old hcopy, findsComplete_of_old hcopy hm]
  · obtain ⟨-, text, copy, -, -, hcopy⟩ := hs _ m hm
    rw [returnsComplete_of_old hcopy, made_complete_iff hs hcopy hm]

/-! ### Runs -/

theorem kept_copyStart (folder : Str) (files : FileSystem) :
    CopyHistory.Kept folder { files } :=
  fun _ _ hm ↦ by cases hm

/-- **When `copyConfig` is all or nothing.** For any files, any folder, and any sequence of calls,
wherever each of them may fail: every path that is returned leads to a complete copy exactly if
every call finds what it needs. -/
theorem complete_iff (folder : Str) (files : FileSystem) (calls : List ConfigCall) :
    StepsMeet (CopyHistory.step folder) (fun s call ↦ call.ReturnsComplete folder s) { files }
        calls ↔
      StepsMeet (CopyHistory.step folder) (fun s call ↦ call.FindsComplete folder s) { files }
        calls :=
  @stepsMeet_iff _ _ (CopyHistory.step folder) (CopyHistory.Kept folder) _ _
    (fun _ _ _ hs hstep ↦ ⟨returnsComplete_iff hs, fun _ ↦ kept_copyStep hs hstep⟩) calls _
    (kept_copyStart folder files)

/-- The maker of a copy stays its maker. -/
theorem makers_kept (hs : s.Kept folder) {destination : Str}
    (hm : s.makers.find destination = some m) {calls : List ConfigCall}
    (hrun : exec (CopyHistory.step folder) s calls = some t) :
    t.Kept folder ∧ t.makers.find destination = some m := by
  refine @run_induction _ _ (CopyHistory.step folder) s (fun _ ↦ True)
    (fun _ t ↦ t.Kept folder ∧ t.makers.find destination = some m) ⟨hs, hm⟩ ?_ calls
    (fun _ _ ↦ trivial) t hrun
  rintro - call s t ⟨hs, hm⟩ - hstep
  refine ⟨kept_copyStep hs hstep, ?_⟩
  rcases step_cases hstep with rfl | ⟨text, copy, hnew, -, -, rfl⟩
  · exact hm
  · obtain ⟨-, text', copy', -, -, hthere⟩ := hs _ m hm
    rw [Table.find_insert, if_neg, hm]
    rintro rfl
    cases (Table.contains_eq_false.1 hnew).symm.trans hthere

/-- **A copy that is not finished is returned for ever.** Whatever is called in between, no later
call for the same settings and user returns a complete one. -/
theorem not_returnsComplete_of_unfinished (hs : s.Kept folder)
    (hm : s.makers.find (configCopyPath m.source folder m.user) = some m)
    (hunfinished : ¬ m.fault.Finishes (authTokenLine folder m.user)) {calls : List ConfigCall}
    (hrun : exec (CopyHistory.step folder) s calls = some t) (fault : CopyFault) :
    ¬ (⟨m.source, m.user, fault⟩ : ConfigCall).ReturnsComplete folder t := by
  obtain ⟨ht, hmaker⟩ := makers_kept hs hm hrun
  rw [returnsComplete_iff ht]
  exact fun h ↦ hunfinished (h.same m hmaker rfl)

end Complete

/-- **A call that has thrown leaves a copy without the line**, and the next call returns it. -/
theorem not_complete_openDestination :
    ¬ (∀ (folder : Str) (files : FileSystem) (calls : List ConfigCall),
        StepsMeet (CopyHistory.step folder) (fun s call ↦ call.ReturnsComplete folder s) { files }
          calls) ∧
    (exec (CopyHistory.step "t/".toList) { files := threeSettings }
      [⟨"d/a.cfg".toList, ['j'], .openDestination⟩]).map (fun s ↦
        ((copyConfig s.files .none "d/a.cfg".toList "t/".toList ['j']).1,
          s.files.find "t/a_j.cfg".toList)) =
      some (.ok "t/a_j.cfg".toList, some "rucio_host = a\n".toList) := by
  refine ⟨fun hall ↦ ?_, by decide +kernel⟩
  obtain ⟨-, hnext⟩ := hall "t/".toList threeSettings
    [⟨"d/a.cfg".toList, ['j'], .openDestination⟩, ⟨"d/a.cfg".toList, ['j'], .none⟩] _ rfl
  obtain ⟨hcomplete, -⟩ := hnext _ rfl
  refine not_returnsComplete_of_unfinished (m := ⟨"d/a.cfg".toList, ['j'], .openDestination⟩)
    (kept_copyStep (kept_copyStart _ _) rfl) ?_ (fun h ↦ by cases h.1) (exec_nil _ _) .none
    hcomplete
  decide +kernel

end FusePosix
