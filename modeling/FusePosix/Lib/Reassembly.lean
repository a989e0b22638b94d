import FusePosix.Lib.Text

/-!
# Reassembling records from a stream that arrives in pieces

A stream carries records, one a line. Each record begins with an opening mark, ends with a closing
mark and contains neither of them nor the line separator in between (`Flat`). The stream arrives in
pieces that may be cut anywhere, so a reader must carry the consumed part of an unfinished record
over to the next piece.

The reader here is the *letter machine* `feed`: it buffers letters, hands out a record at each
closing mark and ignores separators. Working letter by letter it cannot see where the pieces end
(`feed_append`), so on a stream of flat records it hands out exactly the records, however the stream
is cut (`feed_joined`).

A reader that looks at whole lines, and decides by their first and last letter, is not of this form.
It agrees with the letter machine only on streams in which every mark stands where it should. That
condition is the automaton `scan` with its three phases, and a reader that agrees with `feed` on
every piece `scan` accepts inherits its independence of the cuts (`feedAll_eq_of_agrees`).
-/

namespace Reassembly

variable {α : Type*} [DecidableEq α]

/-- The three letters with a meaning. -/
structure Marks (α : Type*) where
  /-- The letter a record begins with. -/
  opening : α
  /-- The letter a record ends with. -/
  closing : α
  /-- The letter between two records. -/
  sep : α
  opening_ne_closing : opening ≠ closing
  opening_ne_sep : opening ≠ sep
  closing_ne_sep : closing ≠ sep

variable (M : Marks α)

/-- A letter list without any mark. -/
def Plain (w : List α) : Prop :=
  M.opening ∉ w ∧ M.closing ∉ w ∧ M.sep ∉ w

/-- A flat record: plain text between the two marks. -/
def Flat (r : List α) : Prop :=
  ∃ w, Plain M w ∧ r = M.opening :: (w ++ [M.closing])

/-- The records joined by separators, with or without a last separator. -/
def joined (rs : List (List α)) (final : Bool) : List α :=
  [M.sep].intercalate rs ++ if final then [M.sep] else []

variable {M}

omit [DecidableEq α] in
theorem plain_cons {c : α} {w : List α} :
    Plain M (c :: w) ↔ (c ≠ M.opening ∧ c ≠ M.closing ∧ c ≠ M.sep) ∧ Plain M w := by
  simp only [Plain, List.mem_cons, not_or, ne_eq, eq_comm]
  tauto

/-! ### The letter machine -/

variable (M) in
/-- Read letters from buffer `b` on: the buffer afterwards, and the records handed out. -/
def feed : List α → List α → List α × List (List α)
  | b, [] => (b, [])
  | b, c :: cs =>
    if c = M.closing then ((feed [] cs).1, (b ++ [c]) :: (feed [] cs).2)
    else if c = M.sep then feed b cs
    else feed (b ++ [c]) cs

/-- **The letter machine does not see where a piece ends.** -/
theorem feed_append (x y : List α) : ∀ b : List α,
    feed M b (x ++ y) =
      ((feed M (feed M b x).1 y).1, (feed M b x).2 ++ (feed M (feed M b x).1 y).2) := by
  induction x with
  | nil => intro b; rfl
  | cons c x ih =>
    intro b
    simp only [List.cons_append, feed]
    split_ifs
    · rw [ih]; rfl
    · exact ih b
    · exact ih (b ++ [c])

/-- Plain text goes into the buffer. -/
theorem feed_plain {w : List α} (h : Plain M w) : ∀ b : List α, feed M b w = (b ++ w, []) := by
  induction w with
  | nil => intro b; simp [feed]
  | cons c w ih =>
    intro b
    obtain ⟨⟨-, hclose, hsep⟩, hw⟩ := plain_cons.1 h
    rw [feed, if_neg hclose, if_neg hsep, ih hw]
    simp

/-- A closing mark behind plain text hands out the buffer. -/
theorem feed_plain_closing {w : List α} (h : Plain M w) (b : List α) :
    feed M b (w ++ [M.closing]) = ([], [b ++ w ++ [M.closing]]) := by
  rw [feed_append, feed_plain h]
  simp [feed]

/-- A flat record passes through. -/
theorem feed_flat {r : List α} (h : Flat M r) : feed M [] r = ([], [r]) := by
  obtain ⟨w, hw, rfl⟩ := h
  rw [feed, if_neg M.opening_ne_closing, if_neg M.opening_ne_sep, feed_plain_closing hw]
  simp

/-- A separator is ignored. -/
theorem feed_sep (b : List α) : feed M b [M.sep] = (b, []) := by
  rw [feed, if_neg M.closing_ne_sep.symm, if_pos rfl]
  rfl

/-- **The letter machine hands out the records of a joined stream**, and keeps nothing. -/
theorem feed_joined {rs : List (List α)} (h : ∀ r ∈ rs, Flat M r) (final : Bool) :
    feed M [] (joined M rs final) = ([], rs) := by
  have hrecords : feed M [] ([M.sep].intercalate rs) = ([], rs) := by
    induction rs with
    | nil => rfl
    | cons r rs ih =>
      have hr := feed_flat (h r (by simp))
      cases rs with
      | nil => simpa using hr
      | cons s rs =>
        have hrest := ih fun t ht ↦ h t (by simp [ht])
        rw [List.intercalate_cons_cons, feed_append, feed_append, hr, feed_sep, hrest]
        rfl
  rw [joined, feed_append, hrecords]
  cases final with
  | true => simp [feed_sep]
  | false => simp [feed]

/-! ### Streams with every mark in its place -/

/-- Where in the stream a reader stands. -/
inductive Phase where
  /-- At the start of a line. -/
  | lineStart
  /-- Inside of a record. -/
  | inside
  /-- Behind a closing mark. -/
  | closed
  deriving DecidableEq

variable (M) in
/-- The phase behind one more letter, if the letter may stand here. -/
def Phase.next : Phase → α → Option Phase
  | .lineStart, c =>
    if c = M.opening then some .inside else if c = M.sep then some .lineStart else none
  | .inside, c =>
    if c = M.closing then some .closed
    else if c = M.opening ∨ c = M.sep then none else some .inside
  | .closed, c => if c = M.sep then some .lineStart else none

variable (M) in
/-- The phase behind a text, if every letter of it may stand where it does. -/
def scan : Phase → List α → Option Phase
  | p, [] => some p
  | p, c :: cs => (p.next M c).bind fun q ↦ scan q cs

theorem scan_append (x y : List α) : ∀ p : Phase,
    scan M p (x ++ y) = (scan M p x).bind fun q ↦ scan M q y := by
  induction x with
  | nil => intro p; rfl
  | cons c x ih =>
    intro p
    simp only [List.cons_append, scan]
    rcases p.next M c with - | q
    · rfl
    · exact ih q

theorem scan_inside_plain {w : List α} (h : Plain M w) : scan M .inside w = some .inside := by
  induction w with
  | nil => rfl
  | cons c w ih =>
    obtain ⟨⟨hopen, hclose, hsep⟩, hw⟩ := plain_cons.1 h
    simp [scan, Phase.next, hopen, hclose, hsep, ih hw]

/-- A flat record leads from the start of a line behind its closing mark. -/
theorem scan_flat {r : List α} (h : Flat M r) : scan M .lineStart r = some .closed := by
  obtain ⟨w, hw, rfl⟩ := h
  simp [scan, Phase.next, scan_append, scan_inside_plain hw]

/-- **A joined stream of flat records is accepted**, and ends outside of a record. -/
theorem scan_joined {rs : List (List α)} (h : ∀ r ∈ rs, Flat M r) (final : Bool) :
    ∃ q, scan M .lineStart (joined M rs final) = some q ∧ q ≠ .inside := by
  have hrecords : scan M .lineStart ([M.sep].intercalate rs) =
      some (if rs = [] then .lineStart else .closed) := by
    induction rs with
    | nil => rfl
    | cons r rs ih =>
      have hr := scan_flat (h r (by simp))
      cases rs with
      | nil => simpa using hr
      | cons s rs =>
        have hrest := ih fun t ht ↦ h t (by simp [ht])
        rw [List.intercalate_cons_cons, scan_append, scan_append, hr]
        simpa [scan, Phase.next] using hrest
  rw [joined, scan_append, hrecords]
  by_cases hnil : rs = [] <;> cases final <;>
    simp [hnil, scan, Phase.next, M.opening_ne_sep.symm]

/-- Inside of a record the buffer holds its opening mark. -/
theorem opening_mem_feed (x : List α) : ∀ (p : Phase) (b : List α),
    (p = .inside → M.opening ∈ b) → scan M p x = some .inside → M.opening ∈ (feed M b x).1 := by
  -- `inside` is reached from a line start through the opening mark alone, and left through the
  -- closing one
  induction x with
  | nil => exact fun p b hb h ↦ hb (Option.some.inj h)
  | cons c x ih =>
    intro p b hb h
    rw [scan, Option.bind_eq_some_iff] at h
    obtain ⟨r, hr, hrest⟩ := h
    rw [feed]
    by_cases hclose : c = M.closing
    · rw [if_pos hclose]
      refine ih r [] (fun hin ↦ ?_) hrest
      subst hclose hin
      cases p <;> simp [Phase.next, M.opening_ne_closing.symm] at hr
    · rw [if_neg hclose]
      by_cases hsep : c = M.sep
      · rw [if_pos hsep]
        refine ih r b (fun hin ↦ ?_) hrest
        subst hsep hin
        cases p <;> simp [Phase.next, M.opening_ne_sep.symm, hclose] at hr
      · rw [if_neg hsep]
        refine ih r (b ++ [c]) (fun hin ↦ ?_) hrest
        subst hin
        cases p with
        | lineStart =>
          have hc : c = M.opening := by
            by_contra hopen
            simp [Phase.next, hopen, hsep] at hr
          simp [hc]
        | inside => exact List.mem_append_left _ (hb rfl)
        | closed => simp [Phase.next, hsep] at hr

/-! ### Pieces of a line -/

/-- At the start of a line only an opening mark, or nothing, can stand. -/
theorem scan_lineStart_piece {l : List α} (hl : M.sep ∉ l) {q : Phase}
    (h : scan M .lineStart l = some q) :
    (l = [] ∧ q = .lineStart) ∨ ∃ w, l = M.opening :: w ∧ scan M .inside w = some q := by
  cases l with
  | nil => exact Or.inl ⟨rfl, by simpa [scan] using h.symm⟩
  | cons c w =>
    have hsep : c ≠ M.sep := fun e ↦ hl (by simp [e])
    by_cases hc : c = M.opening
    · subst hc
      exact Or.inr ⟨w, rfl, by simpa [scan, Phase.next] using h⟩
    · simp [scan, Phase.next, hc, hsep] at h

/-- Behind a closing mark a line can only end. -/
theorem scan_closed_piece {l : List α} (hl : M.sep ∉ l) {q : Phase}
    (h : scan M .closed l = some q) : l = [] ∧ q = .closed := by
  cases l with
  | nil => exact ⟨rfl, by simpa [scan] using h.symm⟩
  | cons c w =>
    have hsep : c ≠ M.sep := fun e ↦ hl (by simp [e])
    simp [scan, Phase.next, hsep] at h

/-- Inside of a record a piece of its line is plain, or plain up to the closing mark at its end. -/
theorem scan_inside_piece {l : List α} (hl : M.sep ∉ l) {q : Phase}
    (h : scan M .inside l = some q) :
    (Plain M l ∧ q = .inside) ∨ ∃ w, Plain M w ∧ l = w ++ [M.closing] ∧ q = .closed := by
  induction l with
  | nil => exact Or.inl ⟨by simp [Plain], by simpa [scan] using h.symm⟩
  | cons c l ih =>
    have hsep : c ≠ M.sep := fun e ↦ hl (by simp [e])
    have hl' : M.sep ∉ l := fun e ↦ hl (List.mem_cons_of_mem _ e)
    by_cases hclose : c = M.closing
    · subst hclose
      obtain ⟨rfl, rfl⟩ := scan_closed_piece hl' (by simpa [scan, Phase.next] using h)
      exact Or.inr ⟨[], by simp [Plain], rfl, rfl⟩
    · by_cases hopen : c = M.opening
      · simp [scan, Phase.next, hopen, M.opening_ne_closing] at h
      · have hrest : scan M .inside l = some q := by
          simpa [scan, Phase.next, hclose, hopen, hsep] using h
        have hc : c ≠ M.opening ∧ c ≠ M.closing ∧ c ≠ M.sep := ⟨hopen, hclose, hsep⟩
        rcases ih hl' hrest with ⟨hw, rfl⟩ | ⟨w, hw, rfl, rfl⟩
        · exact Or.inl ⟨plain_cons.2 ⟨hc, hw⟩, rfl⟩
        · exact Or.inr ⟨c :: w, plain_cons.2 ⟨hc, hw⟩, rfl, rfl⟩

/-! ### Readers that agree with the letter machine -/

/-- A reader: buffer and piece in, buffer and records out. -/
abbrev Reader (α : Type*) := List α → List α → List α × List (List α)

/-- Read the pieces one after the other. -/
def feedAll (read : Reader α) : List α → List (List α) → List α × List (List α)
  | b, [] => (b, [])
  | b, c :: cs =>
    ((feedAll read (read b c).1 cs).1, (read b c).2 ++ (feedAll read (read b c).1 cs).2)

/-- The buffer holds something exactly inside of a record. -/
def Buffered (p : Phase) (b : List α) : Prop :=
  p = .inside ↔ b ≠ []

variable (M) in
/-- The reader does what the letter machine does on every piece that fits where it stands, and the
buffer stays what the phase says. -/
def Agrees (read : Reader α) : Prop :=
  ∀ (p q : Phase) (b piece : List α), Buffered p b → scan M p piece = some q →
    read b piece = feed M b piece ∧ Buffered q (feed M b piece).1

/-- Reading a well-formed stream piece by piece is feeding it to the letter machine. -/
theorem feedAll_eq_of_agrees {read : Reader α} (h : Agrees M read) (pieces : List (List α)) :
    ∀ (p q : Phase) (b : List α), Buffered p b → scan M p pieces.flatten = some q →
      feedAll read b pieces = feed M b pieces.flatten := by
  induction pieces with
  | nil => intro p q b _ _; rfl
  | cons piece pieces ih =>
    intro p q b hb hscan
    rw [List.flatten_cons, scan_append, Option.bind_eq_some_iff] at hscan
    obtain ⟨r, hpiece, hrest⟩ := hscan
    obtain ⟨hread, hb'⟩ := h p r b piece hb hpiece
    rw [feedAll, hread, ih r q _ hb' hrest, List.flatten_cons, feed_append]

/-- **Independence of the cuts.** A reader that agrees with the letter machine reads off a joined
stream of flat records exactly the records, however the stream is cut, and keeps nothing. -/
theorem feedAll_joined {read : Reader α} (h : Agrees M read) {rs : List (List α)}
    (hrs : ∀ r ∈ rs, Flat M r) (final : Bool) {pieces : List (List α)}
    (hpieces : pieces.flatten = joined M rs final) : feedAll read [] pieces = ([], rs) := by
  obtain ⟨q, hq, -⟩ := scan_joined hrs final
  rw [feedAll_eq_of_agrees h pieces .lineStart q [] (by simp [Buffered]) (hpieces ▸ hq), hpieces,
    feed_joined hrs final]

end Reassembly
