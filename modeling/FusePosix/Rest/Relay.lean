import FusePosix.Rest.Auth
import FusePosix.Lib.Descriptors

/-!
# The login terminal

A login at an identity provider is a conversation: the download client asks for it, and prints what
the user has to do. The client runs in a pseudo-terminal, and `relayPtyBidirectional` carries its
text to the terminal of the process that called, and what is typed there back.

The loop sleeps in `select`, and copies what is there in either direction. It does not look at how
much of a chunk `write` has taken, and what was not taken is lost. It ends if one of the two reads
fails, if the calling process has closed its input, or if `select` fails; that the client has closed
its side is no reason to end. `Relay` keeps the two conversations as they were at their beginning
and at their end, and the descriptors that were used.
-/

namespace FusePosix

open Transition

/-! ### What the operating system answers -/

/-- The result of `read`: bytes, none of them at the end of the file, or an error. -/
inductive ReadRet where
  | bytes (s : Str)
  /-- `EAGAIN` or `EWOULDBLOCK`. -/
  | again
  | failed
  deriving DecidableEq, Repr

/-- The answers to one direction of a turn: whether there is something to read, what is read, and
how much of it `write` takes. -/
structure CopyAnswers where
  ready : Bool
  read : ReadRet
  took : ℕ
  deriving DecidableEq, Repr

/-- The answers during one turn of the loop. -/
inductive RelayTurn where
  /-- `select` is interrupted by a signal. -/
  | interrupted
  /-- `select` fails in another way. -/
  | failed
  /-- `select` returns, perhaps because its time is over. -/
  | selected (master stdin : CopyAnswers)
  deriving DecidableEq, Repr

/-- The three descriptors of the calling process; `none` is -1. -/
structure CallingFds where
  stdin : Option ℕ
  stdout : Option ℕ
  stderr : Option ℕ
  deriving DecidableEq, Repr

/-- The descriptors that were opened. -/
def CallingFds.opened (c : CallingFds) : List ℕ :=
  c.stdin.toList ++ c.stdout.toList ++ c.stderr.toList

/-! ### The loop -/

/-- One direction of the conversation: what has been read at one end, and what has been taken at the
other. -/
structure Channel where
  heard : Str := []
  told : Str := []
  deriving DecidableEq, Repr

/-- Write a chunk, whatever becomes of it. -/
def Channel.copy (c : Channel) (chunk : Str) (took : ℕ) : Channel where
  heard := c.heard ++ chunk
  told := c.told ++ chunk.take took

/-- The loop between two turns. -/
structure Relay where
  /-- From the pseudo-terminal to the calling process. -/
  output : Channel := {}
  /-- From the calling process to the pseudo-terminal. -/
  input : Channel := {}
  running : Bool := true
  /-- The descriptors that were used so far, in order. -/
  uses : List ℕ := []
  deriving DecidableEq, Repr

namespace Relay

/-- Read from the pseudo-terminal and write to the calling process. -/
def copyOutput (master stdout : ℕ) (a : CopyAnswers) (r : Relay) : Relay :=
  if !a.ready then r
  else
    let r := { r with uses := r.uses ++ [master] }
    match a.read with
    | .bytes [] => r
    | .bytes chunk =>
      { r with output := r.output.copy chunk a.took, uses := r.uses ++ [stdout] }
    | .again => r
    | .failed => { r with running := false }

/-- Read from the calling process and write to the pseudo-terminal. -/
def copyInput (master stdin : ℕ) (a : CopyAnswers) (r : Relay) : Relay :=
  if !a.ready then r
  else
    let r := { r with uses := r.uses ++ [stdin] }
    match a.read with
    | .bytes [] => { r with running := false }
    | .bytes chunk =>
      { r with input := r.input.copy chunk a.took, uses := r.uses ++ [master] }
    | .again => r
    | .failed => { r with running := false }

/-- One turn of the loop, while it is running. -/
def step (master : ℕ) (stdin : Option ℕ) (stdout : ℕ) (r : Relay) (turn : RelayTurn) :
    Option Relay :=
  if !r.running then none
  else
    let r := { r with uses := r.uses ++ master :: stdin.toList }
    match turn with
    | .interrupted => some r
    | .failed => some { r with running := false }
    | .selected fromMaster fromStdin =>
      let r := r.copyOutput master stdout fromMaster
      -- a break leaves the loop at once
      if !r.running then some r
      else match stdin with
        | none => some r
        | some stdin => some (r.copyInput master stdin fromStdin)

end Relay

/-- `relay_pty_bidirectional`: how the loop ends, and what happens to descriptors; `none` if it does
not end within the given turns. -/
def relayPtyBidirectional (master : ℕ) (calling : CallingFds) (turns : List RelayTurn) :
    Option (Relay × List (Descriptors.Event ℕ)) :=
  let opened := calling.opened.map .opened
  let closed := calling.opened.map .closed
  match calling.stdout, calling.stderr with
  | some stdout, some _ =>
    (exec (Relay.step master calling.stdin stdout) {} turns).bind fun r ↦
      if r.running then none
      else
        -- two calls of `fcntl` stand in front of the loop
        some (r, opened ++ ([master, master] ++ r.uses).map .used ++ closed)
  | _, _ => some ({}, opened ++ closed)

/-! ### What is delivered -/

/-- The chunk a direction copies, with as much of it as is taken. -/
def CopyAnswers.copies (a : CopyAnswers) : List (Str × ℕ) :=
  match a.ready, a.read with
  | true, .bytes chunk => [(chunk, a.took)]
  | _, _ => []

/-- What a turn copies from the pseudo-terminal. -/
def RelayTurn.outputCopies : RelayTurn → List (Str × ℕ)
  | .selected master _ => master.copies
  | _ => []

/-- What a turn copies to the pseudo-terminal, unless the other direction has ended the loop. -/
def RelayTurn.inputCopies (stdin : Option ℕ) : RelayTurn → List (Str × ℕ)
  | .selected master input =>
    if stdin = none ∨ (master.ready = true ∧ master.read = .failed) then [] else input.copies
  | _ => []

/-- A channel behind some copies. -/
def Channel.copyAll (c : Channel) (copies : List (Str × ℕ)) : Channel :=
  copies.foldl (fun c copy ↦ c.copy copy.1 copy.2) c

section Channel

variable {copies : List (Str × ℕ)}

theorem copy_nil (c : Channel) (took : ℕ) : c.copy [] took = c := by
  rw [Channel.copy, List.append_nil, List.take_nil, List.append_nil]

theorem copyAll_eq (c : Channel) (copies : List (Str × ℕ)) : c.copyAll copies =
    ⟨c.heard ++ copies.flatMap Prod.fst,
      c.told ++ copies.flatMap fun copy ↦ copy.1.take copy.2⟩ := by
  induction copies generalizing c with
  | nil => simp [Channel.copyAll]
  | cons copy copies ih =>
    rw [Channel.copyAll, List.foldl_cons, ← Channel.copyAll, ih]
    simp [Channel.copy]

/-- **What is told is what was heard, with gaps**, and without gaps exactly if every chunk was taken
whole. -/
theorem told_of_copies (copies : List (Str × ℕ)) :
    (copies.flatMap fun copy ↦ copy.1.take copy.2).Sublist (copies.flatMap Prod.fst) ∧
      ((copies.flatMap fun copy ↦ copy.1.take copy.2) = copies.flatMap Prod.fst ↔
        ∀ copy ∈ copies, copy.1.length ≤ copy.2) := by
  induction copies with
  | nil => simp
  | cons copy copies ih =>
    obtain ⟨hsub, hiff⟩ := ih
    rw [List.flatMap_cons, List.flatMap_cons, List.forall_mem_cons]
    refine ⟨(List.take_sublist _ _).append hsub, ?_⟩
    constructor
    · intro heq
      -- neither part is longer than its origin, so both are as long
      have hlength := congrArg List.length heq
      rw [List.length_append, List.length_append, List.length_take] at hlength
      have hrest := hsub.length_le
      have hall : (copies.flatMap fun copy ↦ copy.1.take copy.2) = copies.flatMap Prod.fst :=
        hsub.eq_of_length (by omega)
      exact ⟨by omega, hiff.1 hall⟩
    · rintro ⟨hfirst, hrest⟩
      rw [List.take_of_length_le hfirst, hiff.2 hrest]

end Channel

section Runs

variable {master stdout : ℕ} {stdin : Option ℕ} {r r' : Relay} {turn : RelayTurn}

theorem copyOutput_eq (a : CopyAnswers) (r : Relay) :
    (r.copyOutput master stdout a).output = r.output.copyAll a.copies ∧
      (r.copyOutput master stdout a).input = r.input ∧
      (r.copyOutput master stdout a).running =
        (r.running && !(a.ready && a.read == .failed)) := by
  rcases a with ⟨- | -, read, took⟩
  · exact ⟨rfl, rfl, (Bool.and_true _).symm⟩
  cases read with
  | bytes chunk =>
    rcases chunk with - | ⟨c, chunk⟩
    · exact ⟨(copy_nil r.output took).symm, rfl, (Bool.and_true _).symm⟩
    · exact ⟨rfl, rfl, (Bool.and_true _).symm⟩
  | again => exact ⟨rfl, rfl, (Bool.and_true _).symm⟩
  | failed => exact ⟨rfl, rfl, (Bool.and_false _).symm⟩

theorem copyInput_eq {stdin : ℕ} (a : CopyAnswers) (r : Relay) :
    (r.copyInput master stdin a).input = r.input.copyAll a.copies ∧
      (r.copyInput master stdin a).output = r.output := by
  rcases a with ⟨- | -, read, took⟩
  · exact ⟨rfl, rfl⟩
  cases read with
  | bytes chunk =>
    rcases chunk with - | ⟨c, chunk⟩
    · exact ⟨(copy_nil r.input took).symm, rfl⟩
    · exact ⟨rfl, rfl⟩
  | again | failed => exact ⟨rfl, rfl⟩

/-- **What a turn carries over**, in both directions. -/
theorem relay_step (h : r.step master stdin stdout turn = some r') :
    r'.output = r.output.copyAll turn.outputCopies ∧
      r'.input = r.input.copyAll (turn.inputCopies stdin) := by
  rw [Relay.step] at h
  split_ifs at h with hended
  rw [Bool.not_eq_true, Bool.not_eq_false'] at hended
  rcases turn with - | - | ⟨fromMaster, fromStdin⟩
  · rw [← Option.some.inj h]
    exact ⟨rfl, rfl⟩
  · rw [← Option.some.inj h]
    exact ⟨rfl, rfl⟩
  simp only at h
  set s : Relay := { r with uses := r.uses ++ master :: stdin.toList } with hs
  obtain ⟨houtput, hinput, hrunning⟩ := @copyOutput_eq master stdout fromMaster s
  have hstays : s.running = true := hended
  rw [hstays, Bool.true_and] at hrunning
  by_cases hfailed : fromMaster.ready = true ∧ fromMaster.read = .failed
  · -- the loop is left between the two directions
    rw [hrunning, hfailed.1, hfailed.2] at h
    rw [← Option.some.inj h, RelayTurn.outputCopies, RelayTurn.inputCopies,
      if_pos (Or.inr hfailed)]
    exact ⟨houtput, hinput⟩
  · have hgoes : (!(fromMaster.ready && fromMaster.read == .failed)) = true := by
      rw [Bool.not_eq_true', Bool.eq_false_iff, ne_eq, Bool.and_eq_true, beq_iff_eq]
      exact hfailed
    rw [hrunning, hgoes] at h
    rw [RelayTurn.outputCopies, RelayTurn.inputCopies]
    rcases stdin with - | stdin
    · rw [← Option.some.inj h, if_pos (Or.inl rfl)]
      exact ⟨houtput, hinput⟩
    · obtain ⟨hinput', houtput'⟩ := @copyInput_eq master stdin fromStdin
        (s.copyOutput master stdout fromMaster)
      have hboth : ¬(some stdin = none ∨ (fromMaster.ready = true ∧ fromMaster.read = .failed)) :=
        not_or.2 ⟨Option.some_ne_none stdin, hfailed⟩
      rw [← Option.some.inj h, if_neg hboth, houtput', hinput', hinput]
      exact ⟨houtput, rfl⟩

theorem copyAll_append (c : Channel) (as bs : List (Str × ℕ)) :
    c.copyAll (as ++ bs) = (c.copyAll as).copyAll bs :=
  List.foldl_append

/-- **What a run of the loop carries over.** -/
theorem relay_run {turns : List RelayTurn} : ∀ {r : Relay},
    exec (Relay.step master stdin stdout) r turns = some r' →
      r'.output = r.output.copyAll (turns.flatMap RelayTurn.outputCopies) ∧
        r'.input = r.input.copyAll (turns.flatMap (RelayTurn.inputCopies stdin)) := by
  induction turns with
  | nil =>
    intro r h
    rw [← Option.some.inj h]
    exact ⟨rfl, rfl⟩
  | cons turn turns ih =>
    intro r h
    obtain ⟨r₁, hstep, hrest⟩ := Option.bind_eq_some_iff.1 h
    obtain ⟨houtput, hinput⟩ := relay_step hstep
    obtain ⟨houtputs, hinputs⟩ := ih hrest
    rw [List.flatMap_cons, List.flatMap_cons, copyAll_append, copyAll_append]
    exact ⟨houtput ▸ houtputs, hinput ▸ hinputs⟩

/-- Every chunk of a direction was taken whole. -/
def TakenWhole (copies : List (Str × ℕ)) : Prop := ∀ copy ∈ copies, copy.1.length ≤ copy.2

instance (copies : List (Str × ℕ)) : Decidable (TakenWhole copies) :=
  List.decidableBAll _ copies

/-- What a channel that starts empty has told of what it heard. -/
theorem delivered_iff {c : Channel} {copies : List (Str × ℕ)}
    (h : c = Channel.copyAll {} copies) :
    c.heard = copies.flatMap Prod.fst ∧ c.told.Sublist c.heard ∧
      (c.told = c.heard ↔ TakenWhole copies) := by
  rw [copyAll_eq] at h
  obtain ⟨hsub, hiff⟩ := told_of_copies copies
  rw [h]
  exact ⟨rfl, hsub, hiff⟩

/-- **The relay delivers everything exactly if no write is short.** Behind any number of turns,
whatever is typed and printed meanwhile and however the loop goes on: the calling process has been
shown a part of what the pseudo-terminal has said so far, in order, and the pseudo-terminal has been
given a part of what was typed; and each of them is all of it exactly if `write` took every chunk of
that direction whole. -/
theorem relay_delivers_iff {turns : List RelayTurn}
    (hrun : exec (Relay.step master stdin stdout) {} turns = some r) :
    (r.output.heard = (turns.flatMap RelayTurn.outputCopies).flatMap Prod.fst ∧
      r.output.told.Sublist r.output.heard ∧
      (r.output.told = r.output.heard ↔ TakenWhole (turns.flatMap RelayTurn.outputCopies))) ∧
    (r.input.heard = (turns.flatMap (RelayTurn.inputCopies stdin)).flatMap Prod.fst ∧
      r.input.told.Sublist r.input.heard ∧
      (r.input.told = r.input.heard ↔
        TakenWhole (turns.flatMap (RelayTurn.inputCopies stdin)))) := by
  obtain ⟨houtput, hinput⟩ := relay_run hrun
  exact ⟨delivered_iff houtput, delivered_iff hinput⟩

end Runs

/-- Two chunks from the pseudo-terminal, the second of which is cut, and then the end of the input.
-/
def sampleTurns : List RelayTurn := [
  .selected ⟨true, .bytes "go to ".toList, 6⟩ ⟨false, .again, 0⟩,
  .interrupted,
  .selected ⟨true, .bytes "https://x".toList, 5⟩ ⟨true, .bytes "y\n".toList, 2⟩,
  .selected ⟨true, .bytes [], 0⟩ ⟨true, .bytes [], 0⟩]

/-- What was typed gets through, what was printed does not. -/
theorem relay_delivers_sample : ∃ r, exec (Relay.step 3 (some 4) 5) {} sampleTurns = some r ∧
    r.input.told = r.input.heard ∧ r.output.told ≠ r.output.heard ∧ r.running = false := by
  refine ⟨(exec (Relay.step 3 (some 4) 5) {} sampleTurns).getD {}, by decide, ?_⟩
  obtain ⟨⟨-, -, hout⟩, -, -, hin⟩ := @relay_delivers_iff 3 5 (some 4)
    ((exec (Relay.step 3 (some 4) 5) {} sampleTurns).getD {}) sampleTurns (by decide)
  refine ⟨hin.2 (by decide), fun heq ↦ ?_, by decide⟩
  exact absurd (hout.1 heq) (by decide)

/-! ### The descriptors of a login -/

/-- What the operating system answers during a login. -/
structure OidcWorld where
  /-- The two ends of the pseudo-terminal, if it could be opened. -/
  pty : Option (ℕ × ℕ)
  forked : Bool
  calling : CallingFds
  turns : List RelayTurn
  exitedZero : Bool
  /-- The user's token file, if it can be opened. -/
  tokenFile : Option (ℕ × Str)

/-- The login without its descriptors. -/
def OidcWorld.run (w : OidcWorld) : OidcRun where
  ptyOpened := w.pty.isSome
  forked := w.forked
  exitedZero := w.exitedZero
  tokenFile := w.tokenFile.map Prod.snd

/-- `GET_OIDC` with what the process does to descriptors; `none` if the relay does not end. -/
def getOIDCTraced (w : OidcWorld) : Option (Str × List (Descriptors.Event ℕ)) :=
  match w.pty with
  | none => some ([], [])
  | some (master, slave) =>
    let opened : List (Descriptors.Event ℕ) := [.opened master, .opened slave]
    if !w.forked then some ([], opened ++ [.closed master, .closed slave])
    else
      (relayPtyBidirectional master w.calling w.turns).bind fun relay ↦
        let events := opened ++ [.closed slave] ++ relay.2 ++ [.closed master]
        if !w.exitedZero then some ([], events)
        else match w.tokenFile with
          | none => some ([], events)
          -- the stream closes its file when it goes out of scope
          | some (file, token) =>
            some (dropLineEnds token, events ++ [.opened file, .used file, .closed file])

/-- The kernel hands out descriptors that are not open. -/
structure OidcWorld.Fresh (w : OidcWorld) (s : Finset ℕ) : Prop where
  pty : ∀ master slave, w.pty = some (master, slave) → master ≠ slave ∧ master ∉ s ∧ slave ∉ s
  nodup : w.calling.opened.Nodup
  calling : ∀ fd ∈ w.calling.opened, fd ∉ s ∧ ∀ pty ∈ w.pty, fd ≠ pty.1
  tokenFile : ∀ file ∈ w.tokenFile, file.1 ∉ s

section Descriptors

variable {master stdout : ℕ} {stdin : Option ℕ} {r r' : Relay} {turn : RelayTurn}

theorem uses_copyOutput (a : CopyAnswers) :
    (r.copyOutput master stdout a).uses ⊆ r.uses ++ [master, stdout] := by
  rcases a with ⟨- | -, read, took⟩
  · exact List.subset_append_left _ _
  rcases read with (- | ⟨c, chunk⟩) | - | -
  all_goals
    intro fd hfd
    simp only [Relay.copyOutput, Bool.not_true, Bool.false_eq_true, if_false, List.mem_append,
      List.mem_cons, List.not_mem_nil, or_false] at hfd ⊢
    tauto

theorem uses_copyInput {stdin : ℕ} (a : CopyAnswers) :
    (r.copyInput master stdin a).uses ⊆ r.uses ++ [stdin, master] := by
  rcases a with ⟨- | -, read, took⟩
  · exact List.subset_append_left _ _
  rcases read with (- | ⟨c, chunk⟩) | - | -
  all_goals
    intro fd hfd
    simp only [Relay.copyInput, Bool.not_true, Bool.false_eq_true, if_false, List.mem_append,
      List.mem_cons, List.not_mem_nil, or_false] at hfd ⊢
    tauto

/-- A turn uses the pseudo-terminal and the descriptors of the calling process only. -/
theorem uses_step {fds : List ℕ} (hmaster : master ∈ fds) (hstdout : stdout ∈ fds)
    (hstdin : stdin.toList ⊆ fds) (hr : r.uses ⊆ fds)
    (h : r.step master stdin stdout turn = some r') : r'.uses ⊆ fds := by
  have hselect : r.uses ++ master :: stdin.toList ⊆ fds :=
    List.append_subset.2 ⟨hr, List.cons_subset.2 ⟨hmaster, hstdin⟩⟩
  rw [Relay.step] at h
  split_ifs at h
  rcases turn with - | - | ⟨fromMaster, fromStdin⟩
  · rw [← Option.some.inj h]
    exact hselect
  · rw [← Option.some.inj h]
    exact hselect
  simp only at h
  set s : Relay := { r with uses := r.uses ++ master :: stdin.toList } with hs
  have houtput : (s.copyOutput master stdout fromMaster).uses ⊆ fds :=
    List.Subset.trans (uses_copyOutput fromMaster) (List.append_subset.2
      ⟨hselect, List.cons_subset.2 ⟨hmaster, List.cons_subset.2 ⟨hstdout, List.nil_subset _⟩⟩⟩)
  split_ifs at h
  · rw [← Option.some.inj h]
    exact houtput
  rcases stdin with - | stdin
  · rw [← Option.some.inj h]
    exact houtput
  · rw [← Option.some.inj h]
    have hopen : stdin ∈ fds := hstdin (List.mem_singleton_self stdin)
    exact List.Subset.trans (uses_copyInput fromStdin) (List.append_subset.2
      ⟨houtput, List.cons_subset.2 ⟨hopen, List.cons_subset.2 ⟨hmaster, List.nil_subset _⟩⟩⟩)

theorem uses_run {fds : List ℕ} (hmaster : master ∈ fds) (hstdout : stdout ∈ fds)
    (hstdin : stdin.toList ⊆ fds) {turns : List RelayTurn} : ∀ {r : Relay}, r.uses ⊆ fds →
    exec (Relay.step master stdin stdout) r turns = some r' → r'.uses ⊆ fds := by
  induction turns with
  | nil =>
    intro r hr h
    rw [← Option.some.inj h]
    exact hr
  | cons turn turns ih =>
    intro r hr h
    obtain ⟨r₁, hstep, hrest⟩ := Option.bind_eq_some_iff.1 h
    exact ih (uses_step hmaster hstdout hstdin hr hstep) hrest

/-- **The relay leaves the open descriptors as they are**, once it ends. -/
theorem exec_relay {calling : CallingFds} {turns : List RelayTurn} {s : Finset ℕ}
    {relay : Relay × List (Descriptors.Event ℕ)} (hmaster : master ∈ s)
    (hnodup : calling.opened.Nodup) (hfresh : ∀ fd ∈ calling.opened, fd ∉ s)
    (h : relayPtyBidirectional master calling turns = some relay) :
    exec Descriptors.step s relay.2 = some s := by
  rw [relayPtyBidirectional] at h
  split at h
  · rename_i stdout stderr hstdout hstderr
    obtain ⟨r, hrun, h⟩ := Option.bind_eq_some_iff.1 h
    split_ifs at h with hrunning
    rw [← Option.some.inj h]
    refine Descriptors.exec_bracket hnodup hfresh (Descriptors.exec_uses fun fd hfd ↦ ?_)
    have hout : stdout ∈ master :: calling.opened := by
      simp [CallingFds.opened, hstdout]
    have hin : calling.stdin.toList ⊆ master :: calling.opened := by
      intro x hx
      simp [CallingFds.opened, hx]
    have huses := uses_run List.mem_cons_self hout hin (List.nil_subset _) hrun
    have hall : [master, master] ++ r.uses ⊆ master :: calling.opened :=
      List.append_subset.2 ⟨by simp, huses⟩
    rw [Finset.mem_union, List.mem_toFinset]
    rcases List.mem_cons.1 (hall hfd) with rfl | hfd
    · exact Or.inr hmaster
    · exact Or.inl hfd
  · rw [← Option.some.inj h]
    have hnothing := @Descriptors.exec_bracket ℕ _ s calling.opened [] hnodup hfresh rfl
    rwa [List.append_nil] at hnothing

/-- The pseudo-terminal and the relay in it. -/
theorem exec_terminal {calling : CallingFds} {turns : List RelayTurn} {s : Finset ℕ} {slave : ℕ}
    {relay : Relay × List (Descriptors.Event ℕ)} (hpty : master ≠ slave ∧ master ∉ s ∧ slave ∉ s)
    (hnodup : calling.opened.Nodup) (hfresh : ∀ fd ∈ calling.opened, fd ∉ s ∧ fd ≠ master)
    (h : relayPtyBidirectional master calling turns = some relay) :
    exec Descriptors.step s
      ([.opened master, .opened slave] ++ [.closed slave] ++ relay.2 ++ [.closed master]) =
        some s := by
  obtain ⟨hne, hmaster, hslave⟩ := hpty
  refine @Descriptors.exec_bracket ℕ _ s [master]
    (([slave].map .opened ++ [] ++ [slave].map .closed) ++ relay.2) (List.nodup_singleton _)
    (by simpa using hmaster) ?_
  have hclosed : exec Descriptors.step ([master].toFinset ∪ s)
      ([slave].map .opened ++ [] ++ [slave].map .closed) = some ([master].toFinset ∪ s) := by
    refine Descriptors.exec_bracket (List.nodup_singleton _) ?_ rfl
    simpa using ⟨hne.symm, hslave⟩
  rw [exec_append, hclosed, Option.bind_some]
  refine exec_relay (by simp) hnodup (fun fd hfd ↦ ?_) h
  obtain ⟨hout, hother⟩ := hfresh fd hfd
  simpa using ⟨hother, hout⟩

/-- Whatever goes wrong, a login ends with the descriptors it began with. -/
theorem exec_getOIDC {w : OidcWorld} {s : Finset ℕ} {token : Str}
    {events : List (Descriptors.Event ℕ)} (hfresh : w.Fresh s)
    (h : getOIDCTraced w = some (token, events)) :
    token = getOIDC w.run ∧ exec Descriptors.step s events = some s := by
  rw [getOIDCTraced] at h
  rcases hpty : w.pty with - | ⟨master, slave⟩
  · rw [hpty] at h
    obtain ⟨rfl, rfl⟩ := Prod.mk.inj (Option.some.inj h)
    exact ⟨by rw [getOIDC, OidcWorld.run, hpty]; rfl, rfl⟩
  rw [hpty] at h
  have hopened := hfresh.pty master slave hpty
  rcases hforked : w.forked with - | -
  · rw [hforked] at h
    obtain ⟨rfl, rfl⟩ := Prod.mk.inj (Option.some.inj h)
    refine ⟨by rw [getOIDC, OidcWorld.run, hpty, hforked]; rfl, ?_⟩
    refine @Descriptors.exec_bracket ℕ _ s [master, slave] [] ?_ ?_ rfl
    · simpa using hopened.1
    · simpa using hopened.2
  rw [hforked] at h
  obtain ⟨relay, hrelay, h⟩ := Option.bind_eq_some_iff.1 h
  have hcalling : ∀ fd ∈ w.calling.opened, fd ∉ s ∧ fd ≠ master := fun fd hfd ↦
    ⟨(hfresh.calling fd hfd).1, (hfresh.calling fd hfd).2 (master, slave) hpty⟩
  -- everything up to the exit of the child is bracketed by the master: what follows starts from `s`
  -- again
  have hterminal := exec_terminal hopened hfresh.nodup hcalling hrelay
  have hrun : w.run = ⟨true, true, w.exitedZero, w.tokenFile.map Prod.snd⟩ := by
    rw [OidcWorld.run, hpty, hforked]
    rfl
  rw [hrun]
  rcases hexited : w.exitedZero with - | -
  · rw [hexited] at h
    obtain ⟨rfl, rfl⟩ := Prod.mk.inj (Option.some.inj h)
    exact ⟨rfl, hterminal⟩
  rw [hexited] at h
  rcases hfile : w.tokenFile with - | ⟨file, text⟩
  · rw [hfile] at h
    obtain ⟨rfl, rfl⟩ := Prod.mk.inj (Option.some.inj h)
    exact ⟨rfl, hterminal⟩
  · rw [hfile] at h
    obtain ⟨rfl, rfl⟩ := Prod.mk.inj (Option.some.inj h)
    refine ⟨rfl, ?_⟩
    rw [exec_append, hterminal, Option.bind_some]
    refine @Descriptors.exec_bracket ℕ _ s [file] [.used file] (List.nodup_singleton _) ?_ ?_
    · simpa using hfresh.tokenFile (file, text) hfile
    · exact @Descriptors.exec_uses ℕ _ _ [file] (by simp)

/-- **A login gives back every descriptor, and brings what `getOIDC` says.** Whatever goes wrong on
the way, if the relay ends then nothing was used or closed that was not open, the descriptors that
were open before the login are open behind it, and each descriptor was closed as often as opened. -/
theorem getOIDC_descriptors {w : OidcWorld} {s : Finset ℕ} {token : Str}
    {events : List (Descriptors.Event ℕ)} (hfresh : w.Fresh s)
    (h : getOIDCTraced w = some (token, events)) :
    token = getOIDC w.run ∧ exec Descriptors.step s events = some s ∧
      ∀ fd, events.count (.opened fd) = events.count (.closed fd) := by
  obtain ⟨htoken, hexec⟩ := exec_getOIDC hfresh h
  exact ⟨htoken, hexec, fun fd ↦ Nat.add_right_cancel (Descriptors.count_opened fd hexec)⟩

end Descriptors

/-- A login that brings a token, in the terminal of `sampleTurns`. The kernel hands out the number
of the closed end of the pseudo-terminal again. -/
def sampleLoginWorld : OidcWorld where
  pty := some (3, 4)
  forked := true
  calling := ⟨some 4, some 5, some 6⟩
  turns := sampleTurns
  exitedZero := true
  tokenFile := some (4, "t\n".toList)

theorem getOIDC_descriptors_sample : ∃ events,
    getOIDCTraced sampleLoginWorld = some (['t'], events) ∧
      exec Descriptors.step {0, 1, 2} events = some {0, 1, 2} := by
  have hfresh : sampleLoginWorld.Fresh {0, 1, 2} := by
    refine ⟨?_, by decide, by decide, by decide⟩
    rintro master slave ⟨⟩
    decide
  have htoken : (getOIDCTraced sampleLoginWorld).map Prod.fst = some ['t'] := by decide +kernel
  obtain ⟨⟨token, events⟩, hrun, htoken⟩ := Option.map_eq_some_iff.1 htoken
  obtain rfl : token = ['t'] := htoken
  exact ⟨events, hrun, (getOIDC_descriptors hfresh hrun).2.1⟩

end FusePosix
