import FusePosix.Fuse.Callbacks
import FusePosix.Lib.Transition
import Mathlib.Data.Int.Order.Basic

/-!
# Reads that share a handle

There is one open handle for a file, whoever reads it. A read first seeks in it and then reads from
it, and other reads of the same file may step in between. `OpenFile` is such a handle with all its
reads, `OpenFile.step` the one step one of them takes, and `readFile` the run of a read that is left
alone (`readFile_eq_alone`).

What a read returns is no count of the bytes it has got: it is worked out from the size that is
recorded for the path. So there are two ways for the bytes to be wrong, and `reads_deliver_iff` says
that there are no others: the handle does not stand where the read has put it, or the local copy
ends before the recorded size does.
-/

namespace FusePosix

open Transition

/-! ### The steps of a read -/

/-- How far a read of an open file has come. -/
inductive HandlePoint where
  /-- Next is `fseeko`. -/
  | fseeko
  /-- Next is `fread`. -/
  | fread
  /-- The call has returned. -/
  | returned (result : ℤ)
  deriving DecidableEq, Repr

/-- A read that has found its file in the cache. `fileSize` is what is recorded for its path. -/
structure OpenRead where
  size : ℕ
  offset : ℕ
  fileSize : ℤ
  buffer : Str
  point : HandlePoint
  deriving DecidableEq, Repr

/-- `std::min(size, (size_t)(file_size - offset))`, as an `int`: the bytes that are due. -/
def OpenRead.due (r : OpenRead) : ℤ :=
  ((min r.size (r.fileSize - r.offset).toNat : ℕ) : ℤ).bmod (2 ^ 32)

/-- The buffer behind an `fread`. -/
def freadInto (content : Str) (position size : ℕ) (buffer : Str) : Str :=
  let bytes := (content.drop position).take size
  bytes ++ buffer.drop bytes.length

/-- An open file, the position of its handle, and the reads that use it. -/
structure OpenFile where
  content : Str
  position : ℕ := 0
  reads : List OpenRead := []
  deriving DecidableEq, Repr

namespace OpenFile

/-- A read comes to the handle. Past the recorded end it returns at once. -/
def enter (f : OpenFile) (size offset : ℕ) (fileSize : ℤ) (buffer : Str) : OpenFile :=
  let point := if fileSize < offset then .returned 0 else .fseeko
  { f with reads := f.reads ++ [{ size, offset, fileSize, buffer, point }] }

/-- `fseeko`. -/
def fseeko (f : OpenFile) (k : ℕ) (r : OpenRead) : OpenFile :=
  { f with position := r.offset, reads := f.reads.set k { r with point := .fread } }

/-- `fread`, and the return. -/
def fread (f : OpenFile) (k : ℕ) (r : OpenRead) : OpenFile :=
  { f with
    position := f.position + ((f.content.drop f.position).take r.size).length
    reads := f.reads.set k
      { r with
        buffer := freadInto f.content f.position r.size r.buffer
        point := .returned r.due } }

end OpenFile

/-- A step on an open file. -/
inductive HandleStep where
  | enter (size offset : ℕ) (fileSize : ℤ) (buffer : Str)
  | fseeko (k : ℕ)
  | fread (k : ℕ)
  deriving DecidableEq, Repr

/-- One atomic step of one of the reads. -/
def OpenFile.step (f : OpenFile) : HandleStep → Option OpenFile
  | .enter size offset fileSize buffer => some (f.enter size offset fileSize buffer)
  | .fseeko k => (f.reads[k]?.filter fun r ↦ r.point = .fseeko).map (f.fseeko k)
  | .fread k => (f.reads[k]?.filter fun r ↦ r.point = .fread).map (f.fread k)

/-! ### What a read delivers -/

/-- The first `n` bytes of the buffer are those of the file from the offset on, and there are as
many. -/
structure OpenRead.Delivers (content : Str) (r : OpenRead) (n : ℤ) : Prop where
  within : n ≤ r.size
  inside : 0 < n → r.offset + n ≤ content.length
  bytes : r.buffer.take n.toNat = (content.drop r.offset).take n.toNat

/-- Every read that has returned has delivered what it says. -/
def OpenFile.ReadsDeliver (f : OpenFile) : Prop :=
  ∀ r ∈ f.reads, ∀ n, r.point = .returned n → r.Delivers f.content n

/-- What `fread` finds is what the read is after: the handle stands at its offset, or the bytes
are the same where it stands. Behind the end of the file the buffer keeps what it held. -/
def OpenRead.Placed (f : OpenFile) (r : OpenRead) : Prop :=
  f.position = r.offset ∨ ∀ i : ℕ, i < r.due →
    f.content[f.position + i]?.or r.buffer[i]? = f.content[r.offset + i]?

/-- The condition, on the last step of a read: nothing is due, or the local copy is long enough and
the handle stands right. -/
def OpenFile.Sound (f : OpenFile) : HandleStep → Prop
  | .fread k => ∀ r, f.reads[k]? = some r →
      r.due ≤ 0 ∨ r.offset + r.due ≤ f.content.length ∧ r.Placed f
  | _ => True

section Reads

variable {f g : OpenFile} {r : OpenRead} {k : ℕ}

theorem bmod_le (v : ℕ) : (v : ℤ).bmod (2 ^ 32) ≤ v := by
  rw [Int.bmod_def]
  split_ifs
  · omega
  · omega

theorem due_le (r : OpenRead) : r.due ≤ r.size :=
  (bmod_le _).trans (Int.ofNat_le.2 (Nat.min_le_left _ _))

theorem delivers_of_nonpos {content : Str} {n : ℤ} (h : n ≤ 0) : r.Delivers content n := by
  refine ⟨h.trans (Int.natCast_nonneg _), fun hpos ↦ absurd hpos (Int.not_lt.2 h), ?_⟩
  rw [Int.toNat_of_nonpos h, List.take_zero, List.take_zero]

/-- The bytes in the buffer behind an `fread`. -/
theorem getElem?_freadInto {content buffer : Str} {position size i : ℕ} (h : i < size) :
    (freadInto content position size buffer)[i]? =
      content[position + i]?.or buffer[i]? := by
  have hbytes : ((content.drop position).take size)[i]? = content[position + i]? := by
    rw [List.getElem?_take_of_lt h, List.getElem?_drop]
  rw [freadInto]
  rcases hat : content[position + i]? with - | c
  · rw [hat, List.getElem?_eq_none_iff] at hbytes
    rw [List.getElem?_append_right hbytes, List.getElem?_drop, Nat.add_sub_cancel' hbytes,
      Option.none_or]
  · rw [hat] at hbytes
    obtain ⟨hlt, -⟩ := List.getElem?_eq_some_iff.1 hbytes
    rw [List.getElem?_append_left hlt, hbytes, Option.some_or]

theorem take_eq_take_iff {n : ℕ} {l l' : Str} :
    l.take n = l'.take n ↔ ∀ i < n, l[i]? = l'[i]? := by
  constructor
  · intro h i hi
    rw [← List.getElem?_take_of_lt hi, h, List.getElem?_take_of_lt hi]
  · intro h
    refine List.ext_getElem? fun i ↦ ?_
    by_cases hi : i < n
    · rw [List.getElem?_take_of_lt hi, List.getElem?_take_of_lt hi, h i hi]
    · rw [List.getElem?_take_eq_none (not_lt.1 hi), List.getElem?_take_eq_none (not_lt.1 hi)]

/-- **When a read delivers what it returns.** -/
theorem delivers_fread_iff (f : OpenFile) (r : OpenRead) :
    ({ r with
        buffer := freadInto f.content f.position r.size r.buffer
        point := .returned r.due } : OpenRead).Delivers f.content r.due ↔
      r.due ≤ 0 ∨ r.offset + r.due ≤ f.content.length ∧ r.Placed f := by
  rcases lt_or_ge 0 r.due with hsome | hnone
  · -- the bytes of the buffer are those at the position of the handle
    have hsame : (∀ i < r.due.toNat, (freadInto f.content f.position r.size r.buffer)[i]? =
        (f.content.drop r.offset)[i]?) ↔ ∀ i : ℕ, i < r.due →
          f.content[f.position + i]?.or r.buffer[i]? = f.content[r.offset + i]? := by
      refine forall_congr' fun i ↦ ?_
      rw [Int.lt_toNat]
      refine forall_congr' fun hi ↦ ?_
      have hsize : i < r.size := Int.ofNat_lt.1 (hi.trans_le (due_le r))
      rw [getElem?_freadInto hsize, List.getElem?_drop]
    constructor
    · rintro ⟨-, hinside, hbytes⟩
      exact Or.inr ⟨hinside hsome, Or.inr (hsame.1 (take_eq_take_iff.1 hbytes))⟩
    · rintro (hnone | ⟨hinside, hplaced⟩)
      · exact delivers_of_nonpos hnone
      · refine ⟨due_le r, fun _ ↦ hinside, take_eq_take_iff.2 (hsame.2 fun i hi ↦ ?_)⟩
        rcases hplaced with hat | hsame
        · -- the file is long enough to fill the buffer
          have hlt : r.offset + i < f.content.length := by omega
          rw [hat, List.getElem?_eq_getElem hlt, Option.some_or]
        · exact hsame i hi
  · exact iff_of_true (delivers_of_nonpos hnone) (Or.inl hnone)

/-! ### Runs -/

theorem fseeko_eq_some (h : f.step (.fseeko k) = some g) :
    ∃ r, f.reads[k]? = some r ∧ r.point = .fseeko ∧ g = f.fseeko k r := by
  obtain ⟨r, hr, rfl⟩ := Option.map_eq_some_iff.1 h
  obtain ⟨hr, hpoint⟩ := Option.filter_eq_some_iff.1 hr
  exact ⟨r, hr, of_decide_eq_true hpoint, rfl⟩

theorem fread_eq_some (h : f.step (.fread k) = some g) :
    ∃ r, f.reads[k]? = some r ∧ r.point = .fread ∧ g = f.fread k r := by
  obtain ⟨r, hr, rfl⟩ := Option.map_eq_some_iff.1 h
  obtain ⟨hr, hpoint⟩ := Option.filter_eq_some_iff.1 hr
  exact ⟨r, hr, of_decide_eq_true hpoint, rfl⟩

/-- A step that replaces one read of the file by another. -/
theorem readsDeliver_set {reads : List OpenRead} {position : ℕ} {r' : OpenRead}
    (hr : f.reads[k]? = some r) (hreads : reads = f.reads.set k r') (h : f.ReadsDeliver) :
    ({ f with position, reads } : OpenFile).ReadsDeliver ↔
      ∀ n, r'.point = .returned n → r'.Delivers f.content n := by
  obtain ⟨hk, -⟩ := List.getElem?_eq_some_iff.1 hr
  subst hreads
  constructor
  · exact fun hall ↦ hall r' (List.mem_set hk r')
  · intro hnew q hq
    rcases List.mem_or_eq_of_mem_set hq with hold | rfl
    · exact h q hold
    · exact hnew

/-- **One step.** -/
theorem readsDeliver_step {a : HandleStep} (h : f.ReadsDeliver) (hstep : f.step a = some g) :
    g.ReadsDeliver ↔ f.Sound a := by
  -- only `fread` fills a buffer; the step into a read can return too, but then it returns zero
  -- bytes
  cases a with
  | enter size offset fileSize buffer =>
    obtain rfl := Option.some.inj hstep
    refine iff_of_true (fun r hr n hn ↦ ?_) trivial
    rcases List.mem_append.1 hr with hold | hnew
    · exact h r hold n hn
    · obtain rfl := List.mem_singleton.1 hnew
      have hzero : n = 0 := by
        by_cases hpast : fileSize < offset
        · rw [if_pos hpast] at hn
          exact (HandlePoint.returned.inj hn).symm
        · rw [if_neg hpast] at hn
          cases hn
      exact delivers_of_nonpos hzero.le
  | fseeko k =>
    obtain ⟨r, hr, -, rfl⟩ := fseeko_eq_some hstep
    exact iff_of_true ((readsDeliver_set hr rfl h).2 fun n hn ↦ by cases hn) trivial
  | fread k =>
    obtain ⟨r, hr, -, rfl⟩ := fread_eq_some hstep
    refine (readsDeliver_set hr rfl h).trans ?_
    have hsound : f.Sound (.fread k) ↔
        (r.due ≤ 0 ∨ r.offset + r.due ≤ f.content.length ∧ r.Placed f) := by
      constructor
      · exact fun hall ↦ hall r hr
      · intro hr' q hq
        obtain rfl := Option.some.inj (hr.symm.trans hq)
        exact hr'
    rw [hsound, ← delivers_fread_iff]
    constructor
    · exact fun hall ↦ hall _ rfl
    · intro hdelivers n hn
      obtain rfl := HandlePoint.returned.inj hn
      exact hdelivers

/-- **When reads deliver what they return.** For every file, every position of its handle and every
interleaving of reads of it, with any sizes and offsets and any recorded sizes: always, exactly if
the last step of every read meets the condition. -/
theorem reads_deliver_iff (content : Str) (position : ℕ) (steps : List HandleStep) :
    Along OpenFile.step OpenFile.ReadsDeliver { content, position } steps ↔
      StepsMeet OpenFile.step OpenFile.Sound { content, position } steps := by
  refine @along_iff_stepsMeet _ _ OpenFile.step (fun _ ↦ True) _ _ (fun f a g _ hf hstep ↦ ?_)
    steps { content, position } trivial ?_
  · exact ⟨trivial, readsDeliver_step hf hstep⟩
  · exact fun r hr ↦ absurd hr List.not_mem_nil

/-! ### A read that is left alone -/

/-- **A recorded size that does not go past the local copy is harmless.** -/
theorem inside_of_fileSize_le {content : Str} (h : r.fileSize ≤ content.length) :
    r.due ≤ 0 ∨ r.offset + r.due ≤ content.length := by
  have hdue : r.due ≤ (min r.size (r.fileSize - r.offset).toNat : ℕ) := bmod_le _
  omega

/-- Behind its own seek a read goes wrong only by the recorded size. -/
theorem sound_fseeko_iff (hr : f.reads[k]? = some r) :
    (f.fseeko k r).Sound (.fread k) ↔ r.due ≤ 0 ∨ r.offset + r.due ≤ f.content.length := by
  obtain ⟨hk, -⟩ := List.getElem?_eq_some_iff.1 hr
  have hmine : (f.fseeko k r).reads[k]? = some { r with point := .fread } :=
    List.getElem?_set_self hk
  constructor
  · intro hsound
    rcases hsound _ hmine with hnone | ⟨hinside, -⟩
    · exact Or.inl hnone
    · exact Or.inr hinside
  · intro hlong q hq
    obtain rfl := Option.some.inj (hmine.symm.trans hq)
    exact hlong.imp_right fun hinside ↦ ⟨hinside, Or.inl rfl⟩

end Reads

/-- The steps of a read that no other read interrupts. -/
def aloneSteps (size offset : ℕ) (fileSize : ℤ) : List HandleStep :=
  .enter size offset fileSize [] ::
    if fileSize < offset then [] else [.fseeko 0, .fread 0]

/-- **`readFile` is a read that is left alone**, wherever the handle stands before it. -/
theorem readFile_eq_alone {io : Io} {wanted : Wanted} {caller : Caller} {m : Mount} {content : Str}
    {fileSize : ℤ} {t : State} (hfile : m.getFile wanted.cachePath = some content)
    (hsize : rucioGetSize io wanted.path caller m.rest = .ok (fileSize, t))
    (position size offset : ℕ) :
    ∃ f r n, exec OpenFile.step { content, position } (aloneSteps size offset fileSize) = some f ∧
      f.reads = [r] ∧ r.point = .returned n ∧
      readFile io wanted caller size offset m =
        .ok ((n, r.buffer), { m.setDownloaded wanted.path with rest := t }) := by
  have hrest : onRest (rucioGetSize io wanted.path caller) (m.setDownloaded wanted.path) =
      .ok (fileSize, { m.setDownloaded wanted.path with rest := t }) := by
    rw [onRest]
    show (rucioGetSize io wanted.path caller m.rest >>= _) = _
    rw [hsize]
    rfl
  have hopen : (m.setDownloaded wanted.path).getFile wanted.cachePath = some content := hfile
  simp only [readFile, hrest, ok_bind, hopen]
  -- `rucio_read` compares the offset with the size the server reports before it touches the handle
  by_cases hpast : fileSize < offset
  · rw [aloneSteps, if_pos hpast, if_pos hpast]
    refine ⟨_, _, 0, rfl, rfl, ?_, rfl⟩
    show (if fileSize < offset then HandlePoint.returned 0 else .fseeko) = _
    rw [if_pos hpast]
  · rw [aloneSteps, if_neg hpast, if_neg hpast]
    have henter : ({ content, position } : OpenFile).enter size offset fileSize [] =
        { content, position, reads := [⟨size, offset, fileSize, [], .fseeko⟩] } := by
      rw [OpenFile.enter]
      show ({ content, position, reads := [] ++ [_] } : OpenFile) = _
      rw [if_neg hpast]
      rfl
    have hrun : exec OpenFile.step { content, position }
        [.enter size offset fileSize [], .fseeko 0, .fread 0] =
        exec OpenFile.step (({ content, position } : OpenFile).enter size offset fileSize [])
          [.fseeko 0, .fread 0] := rfl
    rw [hrun, henter]
    refine ⟨_, _, _, rfl, rfl, rfl, ?_⟩
    rw [freadInto, List.drop_nil, List.append_nil]
    rfl

/-- **Two reads in step, or a recorded size that is too large**, and the bytes are wrong. -/
theorem not_reads_deliver_abcd :
    ¬ (∀ (content : Str) (position : ℕ) (steps : List HandleStep),
        Along OpenFile.step OpenFile.ReadsDeliver { content, position } steps) ∧
    (exec OpenFile.step { content := ['a', 'b', 'c', 'd'] } [.enter 2 0 4 [], .enter 2 2 4 [],
      .fseeko 0, .fseeko 1, .fread 0]).map (fun f ↦ f.reads.head?) =
        some (some ⟨2, 0, 4, ['c', 'd'], .returned 2⟩) ∧
    exec OpenFile.step { content := ['a'] } (aloneSteps 3 0 3) =
      some ⟨['a'], 1, [⟨3, 0, 3, ['a'], .returned 3⟩]⟩ := by
  have hshort : exec OpenFile.step { content := ['a'] } (aloneSteps 3 0 3) =
      some ⟨['a'], 1, [⟨3, 0, 3, ['a'], .returned 3⟩]⟩ := by
    decide
  refine ⟨fun hall ↦ ?_, by decide, hshort⟩
  have hdeliver := along_end (hall ['a'] 0 (aloneSteps 3 0 3)) hshort
  obtain ⟨-, hinside, -⟩ := hdeliver ⟨3, 0, 3, ['a'], .returned 3⟩ (by decide) 3 rfl
  exact absurd (hinside (by decide)) (by decide)

end FusePosix
