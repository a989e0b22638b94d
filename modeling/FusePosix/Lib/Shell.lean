import Mathlib.Algebra.GroupWithZero.Nat
import Mathlib.Data.List.Basic
import Mathlib.Tactic.Common

/-!
# Reading a shell command as one simple command

Token recognition of a POSIX shell, as far as a text without control structure goes. Unquoted
blanks separate words, the three quoting characters are removed and protect what they quote, a `#`
at the start of a word opens a comment, and every unquoted operator, newline or expansion character
makes the text something other than one simple command of literal words: then `words` is `none`.
Expansions keep their meaning inside of double quotes. An unfinished quotation, and a backslash at
the very end, whose meaning is left open, are `none` as well.

Pathname and tilde expansion happen after the words are recognised and depend on the file system
and the user database; they are not part of this reading.

The result is `shellWords_join_iff`: a list of words, joined by single blanks without any quoting,
is read back as that list exactly if every word is **bare**. One direction is a run of the reader.
For the other, each character the reader removes makes the words it returns shorter than the text
has room for (`room_le_of_words`), and a list that comes back whole leaves no room for a removal.
-/

namespace Shell

/-- The unquoted characters that separate words. -/
def isBlank (c : Char) : Bool := c == ' ' || c == '\t'

/-- The unquoted characters that end a simple command or ask for an expansion. -/
def isOperator (c : Char) : Bool :=
  [';', '&', '|', '<', '>', '(', ')', '$', '`', '\n'].contains c

/-- The characters that quote. -/
def isQuote (c : Char) : Bool := ['\'', '"', '\\'].contains c

/-- Where in the text the reader stands. -/
inductive Mode where
  /-- In unquoted text. -/
  | bare
  /-- Behind an unquoted backslash. -/
  | escape
  /-- Between single quotes. -/
  | single
  /-- Between double quotes. -/
  | double
  /-- Behind a backslash between double quotes. -/
  | doubleEscape
  /-- In a comment. -/
  | comment
  deriving DecidableEq

/-- Put one more letter behind the word that is being read, if any. -/
def grow (cur : Option (List Char)) (u : List Char) : Option (List Char) :=
  some (cur.getD [] ++ u)

/-- One letter: the word it closes if any, the mode behind it and the unfinished word; `none` if the
letter makes the text more than one simple command of literal words. -/
def next : Mode → Option (List Char) → Char →
    Option (List (List Char) × Mode × Option (List Char))
  | .bare, cur, c =>
    if isBlank c then some (cur.toList, .bare, none)
    else if isOperator c then none
    else if c = '\'' then some ([], .single, grow cur [])
    else if c = '"' then some ([], .double, grow cur [])
    else if c = '\\' then some ([], .escape, cur)
    else if c = '#' ∧ cur = none then some ([], .comment, none)
    else some ([], .bare, grow cur [c])
  | .escape, cur, c =>
    -- a quoted newline joins two lines
    if c = '\n' then some ([], .bare, cur) else some ([], .bare, grow cur [c])
  | .single, cur, c =>
    if c = '\'' then some ([], .bare, cur) else some ([], .single, grow cur [c])
  | .double, cur, c =>
    if c = '"' then some ([], .bare, cur)
    else if c = '$' ∨ c = '`' then none
    else if c = '\\' then some ([], .doubleEscape, cur)
    else some ([], .double, grow cur [c])
  | .doubleEscape, cur, c =>
    if c = '\n' then some ([], .double, cur)
    else if ['$', '`', '"', '\\'].contains c then some ([], .double, grow cur [c])
    else some ([], .double, grow cur ['\\', c])
  | .comment, cur, c => if c = '\n' then none else some ([], .comment, cur)

/-- The words of a text, read from a mode and an unfinished word on. -/
def words : Mode → Option (List Char) → List Char → Option (List (List Char))
  | .bare, cur, [] => some cur.toList
  | .comment, cur, [] => some cur.toList
  | _, _, [] => none
  | m, cur, c :: cs => (next m cur c).bind fun r ↦ (words r.2.1 r.2.2 cs).map (r.1 ++ ·)

/-- The words of a command, if it is one simple command of literal words. -/
def shellWords (command : List Char) : Option (List (List Char)) :=
  words .bare none command

/-- The words joined by single blanks. -/
def join (ws : List (List Char)) : List Char := [' '].intercalate ws

/-- The letters of the words, with one more place behind each. -/
def room (ws : List (List Char)) : ℕ := (ws.map fun w ↦ w.length + 1).sum

@[simp] theorem room_nil : room [] = 0 := rfl

@[simp] theorem room_cons (w : List Char) (ws : List (List Char)) :
    room (w :: ws) = w.length + 1 + room ws := rfl

theorem length_join_cons (w : List Char) (ws : List (List Char)) :
    (join (w :: ws)).length + 1 = room (w :: ws) := by
  induction ws generalizing w with
  | nil => simp [join]
  | cons v ws ih =>
    have hrest := ih v
    simp only [join, List.intercalate_cons_cons, List.length_append, List.length_singleton] at *
    rw [room_cons]
    omega

/-! ### Reading only removes -/

theorem words_cons (m : Mode) (cur : Option (List Char)) (c : Char) (cs : List Char) :
    words m cur (c :: cs) =
      (next m cur c).bind fun r ↦ (words r.2.1 r.2.2 cs).map (r.1 ++ ·) := by
  cases m <;> rfl

/-- Letters held back: the unfinished word, a place behind it, and an undecided backslash. -/
def held (m : Mode) (cur : Option (List Char)) : ℕ :=
  (cur.getD []).length + if m = .doubleEscape then 2 else 1

/-- **One letter needs at most its own place.** -/
theorem held_of_next {m m' : Mode} {cur cur' : Option (List Char)} {c : Char}
    {out : List (List Char)} (h : next m cur c = some (out, m', cur')) :
    room out + held m' cur' ≤ held m cur + 1 := by
  cases m <;> simp only [next] at h <;> split_ifs at h <;>
    simp only [Option.some.injEq, Prod.mk.injEq] at h <;> obtain ⟨rfl, rfl, rfl⟩ := h <;>
    cases cur <;> simp [held, grow]

/-- A quoting character leaves its place empty. -/
theorem held_of_next_quote {m' : Mode} {cur cur' : Option (List Char)} {c : Char}
    {out : List (List Char)} (hc : isQuote c = true)
    (h : next .bare cur c = some (out, m', cur')) : room out + held m' cur' ≤ held .bare cur := by
  simp only [isQuote, List.contains_eq_mem, List.mem_cons, List.not_mem_nil, or_false,
    decide_eq_true_eq] at hc
  rcases hc with rfl | rfl | rfl <;>
    simp [next, isBlank, isOperator] at h <;> obtain ⟨rfl, rfl, rfl⟩ := h <;>
    cases cur <;> simp [held, grow]

/-- What reading a letter brings stands in front of the rest. -/
theorem words_cons_eq_some {m : Mode} {cur : Option (List Char)} {c : Char} {s : List Char}
    {ws : List (List Char)} (h : words m cur (c :: s) = some ws) : ∃ out m' cur' vs,
      next m cur c = some (out, m', cur') ∧ words m' cur' s = some vs ∧ ws = out ++ vs ∧
        room ws = room out + room vs := by
  rw [words_cons, Option.bind_eq_some_iff] at h
  obtain ⟨⟨out, m', cur'⟩, hnext, h⟩ := h
  obtain ⟨vs, hvs, rfl⟩ := Option.map_eq_some_iff.1 h
  exact ⟨out, m', cur', vs, hnext, hvs, rfl, by simp [room]⟩

/-- **Reading only removes letters**: the words, each with one place for its separator, fit into the
text and what is held back. -/
theorem room_le_of_words (s : List Char) : ∀ (m : Mode) (cur : Option (List Char))
    (ws : List (List Char)), words m cur s = some ws → room ws ≤ held m cur + s.length := by
  induction s with
  | nil =>
    intro m cur ws h
    cases m <;> simp only [words, Option.some.injEq, reduceCtorEq] at h <;> subst h <;>
      cases cur <;> simp [held]
  | cons c s ih =>
    intro m cur ws h
    obtain ⟨out, m', cur', vs, hnext, hvs, -, hroom⟩ := words_cons_eq_some h
    have hstep := held_of_next hnext
    have hrest := ih m' cur' vs hvs
    rw [hroom, List.length_cons]
    omega

/-! ### Bare words -/

/-- A letter that stands for itself in unquoted text. -/
def isOrdinary (c : Char) : Bool := !isBlank c && !isOperator c && !isQuote c

/-- A word that reads as itself without quoting. -/
def Bare (w : List Char) : Prop :=
  w ≠ [] ∧ w.head? ≠ some '#' ∧ ∀ c ∈ w, isOrdinary c = true

instance (w : List Char) : Decidable (Bare w) :=
  decidable_of_iff (w ≠ [] ∧ w.head? ≠ some '#' ∧ w.all isOrdinary = true)
    (and_congr_right' (and_congr_right' List.all_eq_true))

/-- An ordinary letter goes behind the unfinished word, unless it would open a comment. -/
theorem next_ordinary {c : Char} (hc : isOrdinary c = true) {cur : Option (List Char)}
    (hcur : c = '#' → cur ≠ none) : next .bare cur c = some ([], .bare, grow cur [c]) := by
  simp only [isOrdinary, Bool.and_eq_true, Bool.not_eq_true', isQuote, List.contains_eq_mem,
    List.mem_cons, List.not_mem_nil, or_false, decide_eq_false_iff_not, not_or] at hc
  obtain ⟨⟨hblank, hop⟩, h1, h2, h3⟩ := hc
  have hcomment : ¬ (c = '#' ∧ cur = none) := fun h ↦ hcur h.1 h.2
  simp [next, hblank, hop, h1, h2, h3, hcomment]

theorem words_cons_ordinary {c : Char} (hc : isOrdinary c = true) {cur : Option (List Char)}
    (hcur : c = '#' → cur ≠ none) (s : List Char) :
    words .bare cur (c :: s) = words .bare (grow cur [c]) s := by
  rw [words_cons, next_ordinary hc hcur, Option.bind_some]
  simp

/-- Ordinary letters go behind the unfinished word. -/
theorem words_ordinary {v : List Char} (hv : ∀ c ∈ v, isOrdinary c = true) (t : List Char) :
    ∀ u : List Char, words .bare (some u) (v ++ t) = words .bare (some (u ++ v)) t := by
  induction v with
  | nil => intro u; simp
  | cons c v ih =>
    intro u
    rw [List.cons_append, words_cons_ordinary (hv c (by simp)) (by simp)]
    have hrest := ih (fun d hd ↦ hv d (by simp [hd])) (u ++ [c])
    simpa [grow] using hrest

/-- A bare word becomes the unfinished word. -/
theorem words_bare {w : List Char} (hw : Bare w) (t : List Char) :
    words .bare none (w ++ t) = words .bare (some w) t := by
  obtain ⟨hne, hhash, hord⟩ := hw
  obtain ⟨c, v, rfl⟩ := List.exists_cons_of_ne_nil hne
  have hc : c ≠ '#' := by simpa using hhash
  rw [List.cons_append, words_cons_ordinary (hord c (by simp)) (fun e ↦ absurd e hc)]
  exact words_ordinary (fun d hd ↦ hord d (List.mem_cons_of_mem c hd)) t [c]

/-- A blank closes the unfinished word. -/
theorem words_blank (w t : List Char) :
    words .bare (some w) (' ' :: t) = (words .bare none t).map (w :: ·) := by
  rw [words_cons]
  simp [next, isBlank]

/-- **Bare words read back as they are.** -/
theorem shellWords_join_of_bare {ws : List (List Char)} (h : ∀ w ∈ ws, Bare w) :
    shellWords (join ws) = some ws := by
  induction ws with
  | nil => rfl
  | cons w ws ih =>
    have hw := h w (by simp)
    have hws := ih fun v hv ↦ h v (by simp [hv])
    cases ws with
    | nil =>
      have hread := words_bare hw []
      rw [List.append_nil] at hread
      rw [join, List.intercalate_singleton, shellWords, hread]
      rfl
    | cons v ws =>
      rw [join, List.intercalate_cons_cons, shellWords, List.append_assoc, words_bare hw,
        List.singleton_append, words_blank]
      show Option.map _ (shellWords (join (v :: ws))) = _
      rw [hws, Option.map_some]

/-! ### Words that read back are bare -/

/-- A comment has no words. -/
theorem words_comment (s : List Char) {ws : List (List Char)}
    (h : words .comment none s = some ws) : ws = [] := by
  induction s generalizing ws with
  | nil => simpa [words] using h.symm
  | cons c s ih =>
    rw [words_cons] at h
    by_cases hc : c = '\n'
    · simp [next, hc] at h
    · rw [next, if_neg hc, Option.bind_some] at h
      obtain ⟨vs, hvs, rfl⟩ := Option.map_eq_some_iff.1 h
      rw [ih hvs]
      rfl

/-- An unquoted letter that is not ordinary closes the word, ends the reading or is removed. -/
theorem next_not_ordinary {c : Char} (hc : isOrdinary c = false) {cur cur' : Option (List Char)}
    {m' : Mode} {out : List (List Char)} (h : next .bare cur c = some (out, m', cur')) :
    (out = cur.toList ∧ m' = .bare ∧ cur' = none) ∨
      room out + held m' cur' ≤ held .bare cur := by
  by_cases hblank : isBlank c = true
  · rw [next, if_pos hblank, Option.some.injEq, Prod.mk.injEq, Prod.mk.injEq] at h
    exact Or.inl ⟨h.1.symm, h.2.1.symm, h.2.2.symm⟩
  by_cases hop : isOperator c = true
  · rw [next, if_neg hblank, if_pos hop] at h
    exact absurd h (by simp)
  have hquote : isQuote c = true := by simpa [isOrdinary, hblank, hop] using hc
  exact Or.inr (held_of_next_quote hquote h)

/-- If no place is lost, an unquoted letter that is not ordinary has closed the word. -/
theorem closes_of_words {c : Char} (hc : isOrdinary c = false) {cur : Option (List Char)}
    {s : List Char} {ws : List (List Char)} (h : words .bare cur (c :: s) = some ws)
    (hroom : held .bare cur + (c :: s).length ≤ room ws) :
    ∃ vs, words .bare none s = some vs ∧ ws = cur.toList ++ vs := by
  obtain ⟨out, m', cur', vs, hnext, hvs, hout, hsplit⟩ := words_cons_eq_some h
  rcases next_not_ordinary hc hnext with ⟨rfl, rfl, rfl⟩ | hlost
  · exact ⟨vs, hvs, hout⟩
  · have hle := room_le_of_words s m' cur' vs hvs
    rw [List.length_cons] at hroom
    omega

/-- If a word comes back whole and no place is lost, its letters behind an unfinished part of it are
ordinary. -/
theorem ordinary_of_words {v : List Char} (t : List Char) : ∀ (u : List Char)
    (rest : List (List Char)), words .bare (some u) (v ++ t) = some ((u ++ v) :: rest) →
      held .bare (some u) + (v ++ t).length ≤ room ((u ++ v) :: rest) →
      ∀ c ∈ v, isOrdinary c = true := by
  induction v with
  | nil => intro u rest _ _ c hc; simp at hc
  | cons c v ih =>
    intro u rest h hroom
    rw [List.cons_append] at h hroom
    rcases hc : isOrdinary c with - | -
    · -- the word was closed too early
      obtain ⟨vs, -, hout⟩ := closes_of_words hc h hroom
      have hhead : u ++ c :: v = u := (List.cons.inj hout).1
      simp at hhead
    · have hword : u ++ c :: v = (u ++ [c]) ++ v := by simp
      rw [words_cons_ordinary hc (by simp), hword] at h
      rw [hword] at hroom
      have hrest := ih (u ++ [c]) rest h (by
        simp only [held, List.length_cons, List.length_append, Option.getD_some,
          List.length_nil] at hroom ⊢
        omega)
      intro d hd
      rcases List.mem_cons.1 hd with rfl | hd
      · exact hc
      · exact hrest d hd

/-- If no place is lost, a text begins with an ordinary letter. -/
theorem isOrdinary_head_of_words {c : Char} {s : List Char} {ws : List (List Char)}
    (h : words .bare none (c :: s) = some ws)
    (hroom : held .bare none + (c :: s).length ≤ room ws) : isOrdinary c = true := by
  by_contra hc
  obtain ⟨vs, hvs, hws⟩ := closes_of_words (Bool.eq_false_iff.2 hc) h hroom
  have hle := room_le_of_words s .bare none vs hvs
  rw [hws, Option.toList_none, List.nil_append, List.length_cons] at hroom
  omega

/-- A comment brings no word. -/
theorem words_hash_ne (s w : List Char) (rest : List (List Char)) :
    words .bare none ('#' :: s) ≠ some (w :: rest) := by
  intro h
  obtain ⟨out, m', cur', vs, hnext, hvs, hout, -⟩ := words_cons_eq_some h
  have hcomment : next .bare none '#' = some ([], .comment, none) := by decide
  rw [hcomment, Option.some.injEq, Prod.mk.injEq, Prod.mk.injEq] at hnext
  obtain ⟨rfl, rfl, rfl⟩ := hnext
  rw [words_comment _ hvs] at hout
  cases hout

/-- **A word that comes back whole, with no place lost, is bare.** -/
theorem bare_of_words {w t : List Char} (ht : t = [] ∨ ∃ t', t = ' ' :: t')
    {rest : List (List Char)} (h : words .bare none (w ++ t) = some (w :: rest))
    (hroom : held .bare none + (w ++ t).length ≤ room (w :: rest)) : Bare w := by
  cases w with
  | nil =>
    exfalso
    rcases ht with rfl | ⟨t', rfl⟩
    · simp [words] at h
    · exact absurd (isOrdinary_head_of_words h hroom) (by decide)
  | cons c v =>
    rw [List.cons_append] at h hroom
    have hc := isOrdinary_head_of_words h hroom
    have hhash : c ≠ '#' := by
      rintro rfl
      exact words_hash_ne _ _ _ h
    rw [words_cons_ordinary hc fun e ↦ absurd e hhash] at h
    have hv := ordinary_of_words t [c] rest h (by
      show _ ≤ room ((c :: v) :: rest)
      simp only [held, Option.getD_none, Option.getD_some, List.length_nil, List.length_cons]
        at hroom ⊢
      omega)
    refine ⟨by simp, by simpa using hhash, ?_⟩
    intro d hd
    rcases List.mem_cons.1 hd with rfl | hd
    · exact hc
    · exact hv d hd

/-- **Quoting is needed exactly for words that are not bare.** A list of words, joined by single
blanks, is read back as that list if and only if each of them is bare. -/
theorem shellWords_join_iff {ws : List (List Char)} :
    shellWords (join ws) = some ws ↔ ∀ w ∈ ws, Bare w := by
  refine ⟨?_, shellWords_join_of_bare⟩
  induction ws with
  | nil => simp
  | cons w ws ih =>
    intro h
    have hlen := length_join_cons w ws
    -- the joined text has just the room its words need: a mark that is read as none of their
    -- characters leaves too little
    have hheld : held .bare none = 1 := rfl
    cases ws with
    | nil =>
      have hword : join [w] = w ++ [] := by simp [join]
      rw [shellWords, hword] at h
      rw [hword] at hlen
      have hw := bare_of_words (Or.inl rfl) h (by omega)
      simpa using hw
    | cons v ws =>
      have hword : join (w :: v :: ws) = w ++ ' ' :: join (v :: ws) := by
        simp [join, List.intercalate_cons_cons]
      rw [shellWords, hword] at h
      rw [hword] at hlen
      have hw := bare_of_words (Or.inr ⟨_, rfl⟩) h (by omega)
      rw [words_bare hw, words_blank] at h
      have hrest : shellWords (join (v :: ws)) = some (v :: ws) := by
        obtain ⟨us, hus, hcons⟩ := Option.map_eq_some_iff.1 h
        rw [shellWords, hus, (List.cons.inj hcons).2]
      intro u hu
      rcases List.mem_cons.1 hu with rfl | hu
      · exact hw
      · exact ih hrest u hu

end Shell
