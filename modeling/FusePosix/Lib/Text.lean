import Mathlib.Data.List.Basic
import Mathlib.Data.List.Infix
import Mathlib.Data.Set.Finite.List

/-!
# Searching, cutting and splitting texts

The positional string operations of a systems language, over lists of an arbitrary alphabet with
decidable equality: search for the first occurrence of a text or of a letter, search for the last
occurrence of a letter, erasure of a range, and splitting into lines.

Positions are natural numbers and a failed search is `none`. Every operation comes with the lemma
that says what it does on a text *cut at the place it looks for*: that is the form in which callers
meet it, since a well-formed text is described by its parts rather than by its positions.

`getlines` is the line reader, not a splitter: a separator at the very end of the text closes the
last line and does not open an empty one after it, and the empty text has no line at all.
-/

namespace Text

variable {α : Type*} [DecidableEq α]

/-! ### Erasure -/

/-- Erase `n` letters from position `pos` on. -/
def eraseAt (pos n : ℕ) (l : List α) : List α :=
  l.take pos ++ l.drop (pos + n)

omit [DecidableEq α] in
/-- Erasing everything from a position on keeps the letters before it. -/
theorem eraseAt_length_self (a b : List α) : eraseAt a.length (a ++ b).length (a ++ b) = a := by
  simp [eraseAt]

omit [DecidableEq α] in
/-- Erasing at the front drops. -/
theorem eraseAt_zero (n : ℕ) (l : List α) : eraseAt 0 n l = l.drop n := by
  simp [eraseAt]

omit [DecidableEq α] in
/-- Behind a letter stands what follows it. -/
theorem drop_append_cons (c : α) (a b : List α) : (a ++ c :: b).drop (a.length + 1) = b := by
  rw [List.append_cons, List.drop_left' (by simp)]

/-! ### First occurrences -/

/-- The position of the first occurrence of `p`. -/
def find (p : List α) : List α → Option ℕ
  | [] => if p = [] then some 0 else none
  | c :: cs => if p.isPrefixOf (c :: cs) then some 0 else (find p cs).map (· + 1)

/-- A leading occurrence is the first one, whatever follows. -/
theorem find_append_left (p l : List α) : find p (p ++ l) = some 0 := by
  rcases h : p ++ l with - | ⟨c, cs⟩
  · obtain ⟨rfl, -⟩ := List.append_eq_nil_iff.1 h
    rfl
  · have hpre : p.isPrefixOf (c :: cs) = true := by
      rw [List.isPrefixOf_iff_prefix, ← h]
      exact List.prefix_append p l
    rw [find, if_pos hpre]

/-- A text is found exactly if it occurs. -/
theorem find_isSome_iff {p l : List α} : (find p l).isSome = true ↔ p <:+: l := by
  induction l with
  | nil => simp [find]
  | cons c cs ih =>
    rw [find, List.infix_cons_iff, ← ih, ← List.isPrefixOf_iff_prefix]
    by_cases h : p.isPrefixOf (c :: cs) = true <;> simp [h]

/-- At the position that is found stands what was looked for. -/
theorem prefix_drop_of_find {p l : List α} {k : ℕ} (h : find p l = some k) : p <+: l.drop k := by
  induction l generalizing k with
  | nil =>
    rw [find] at h
    split_ifs at h with hp
    simp [hp]
  | cons c cs ih =>
    rw [find] at h
    split_ifs at h with hp
    · obtain rfl := Option.some.inj h
      exact List.isPrefixOf_iff_prefix.1 hp
    · obtain ⟨j, hj, rfl⟩ := Option.map_eq_some_iff.1 h
      exact ih hj

/-- The position that is found lies in the text. -/
theorem le_length_of_find {p l : List α} {k : ℕ} (h : find p l = some k) : k ≤ l.length := by
  induction l generalizing k with
  | nil =>
    rw [find] at h
    split_ifs at h
    exact (Option.some.inj h).ge
  | cons c cs ih =>
    rw [find] at h
    split_ifs at h
    · exact (Option.some.inj h).ge.trans (Nat.zero_le _)
    · obtain ⟨j, hj, rfl⟩ := Option.map_eq_some_iff.1 h
      exact Nat.succ_le_succ (ih hj)

/-- What is found cuts the text in front of itself. -/
theorem eq_append_of_find {p l : List α} {k : ℕ} (h : find p l = some k) :
    ∃ a b, l = a ++ p ++ b ∧ a.length = k := by
  obtain ⟨b, hb⟩ := prefix_drop_of_find h
  refine ⟨l.take k, b, ?_, List.length_take_of_le (le_length_of_find h)⟩
  rw [List.append_assoc, hb, List.take_append_drop]

/-- The first occurrence of a letter cuts the text where the letter first stands. -/
theorem idxOf?_append_cons {c : α} {a : List α} (h : c ∉ a) (b : List α) :
    (a ++ c :: b).idxOf? c = some a.length := by
  induction a with
  | nil => simp [List.idxOf?_cons]
  | cons x a ih =>
    have hx : x ≠ c := fun e ↦ h (by simp [e])
    have ha : c ∉ a := fun e ↦ h (List.mem_cons_of_mem _ e)
    rw [List.cons_append, List.idxOf?_cons, ih ha]
    simp [hx]

/-! ### Places of a separator -/

omit [DecidableEq α] in
/-- A text that is cut at a separator is cut at the first one or behind it. -/
theorem append_cons_eq_append_cons {d : α} {a b x y : List α} (ha : d ∉ a)
    (h : a ++ d :: b = x ++ d :: y) :
    (x = a ∧ y = b) ∨ ∃ z, x = a ++ d :: z ∧ b = z ++ d :: y := by
  rcases List.append_eq_append_iff.1 h with ⟨z, rfl, hz⟩ | ⟨z, rfl, hz⟩
  · cases z with
    | nil => exact Or.inl ⟨by simp, (List.cons.inj hz).2.symm⟩
    | cons e z =>
      obtain ⟨rfl, rfl⟩ := List.cons.inj hz
      exact Or.inr ⟨z, rfl, rfl⟩
  · cases z with
    | nil => exact Or.inl ⟨by simp, (List.cons.inj hz).2⟩
    | cons e z =>
      obtain ⟨rfl, -⟩ := List.cons.inj hz
      exact absurd (List.mem_append_right _ List.mem_cons_self) ha

omit [DecidableEq α] in
/-- An end without a separator lies behind the last one. -/
theorem suffix_of_suffix_append_cons {d : α} {s a b : List α} (hs : d ∉ s)
    (h : s <:+ a ++ d :: b) : s <:+ b := by
  obtain ⟨t, ht⟩ := h
  rcases List.append_eq_append_iff.1 ht with ⟨z, -, rfl⟩ | ⟨z, -, hz⟩
  · exact absurd (List.mem_append_right _ List.mem_cons_self) hs
  · cases z with
    | nil =>
      rw [List.nil_append] at hz
      exact absurd (hz ▸ List.mem_cons_self) hs
    | cons e z => exact ⟨z, (List.cons.inj hz).2.symm⟩

omit [DecidableEq α] in
/-- The last place of a separator is one place. -/
theorem append_cons_inj_of_notMem_right {d : α} {a b x y : List α} (hb : d ∉ b) (hy : d ∉ y)
    (h : a ++ d :: b = x ++ d :: y) : a = x ∧ b = y := by
  have hsuffix : ∀ {u v w : List α}, d ∉ v → u ++ d :: v = w → v <:+ w := fun _ e ↦
    (List.suffix_cons d _).trans ⟨_, e⟩
  have hby : b <:+ y := suffix_of_suffix_append_cons hb (hsuffix hb h)
  have hyb : y <:+ b := suffix_of_suffix_append_cons hy (hsuffix hy h.symm)
  have heq : b = y := hby.eq_of_length (le_antisymm hby.length_le hyb.length_le)
  subst heq
  exact ⟨List.append_cancel_right h, rfl⟩

omit [DecidableEq α] in
/-- A place in a text that comes in pieces lies in one piece. -/
theorem eq_of_place {p a b x y : List α} (hp : p ≠ []) {front rest front' rest' : List (List α)}
    (h : front ++ (a ++ p ++ b) :: rest = front' ++ (x ++ p ++ y) :: rest')
    (hplace : front.flatten ++ a = front'.flatten ++ x) :
    front = front' ∧ a = x ∧ b = y ∧ rest = rest' := by
  have hpos : 0 < p.length := List.length_pos_iff.2 hp
  have hlength := congrArg List.length hplace
  -- one list of pieces starts with the other; a piece more would put the place further back by at
  -- least `p`
  rcases List.append_eq_append_iff.1 h with ⟨z, rfl, hz⟩ | ⟨z, rfl, hz⟩
  · cases z with
    | nil =>
      obtain ⟨hpiece, rfl⟩ := List.cons.inj hz
      rw [List.append_nil] at hplace
      obtain rfl := List.append_cancel_left hplace
      rw [List.append_assoc, List.append_assoc] at hpiece
      exact ⟨(List.append_nil _).symm, rfl,
        List.append_cancel_left (List.append_cancel_left hpiece), rfl⟩
    | cons c z =>
      obtain ⟨rfl, -⟩ := List.cons.inj hz
      simp only [List.flatten_append, List.flatten_cons, List.length_append] at hlength
      omega
  · cases z with
    | nil =>
      obtain ⟨hpiece, rfl⟩ := List.cons.inj hz
      rw [List.append_nil] at hplace
      obtain rfl := List.append_cancel_left hplace
      rw [List.append_assoc, List.append_assoc] at hpiece
      exact ⟨List.append_nil _, rfl,
        (List.append_cancel_left (List.append_cancel_left hpiece)).symm, rfl⟩
    | cons c z =>
      obtain ⟨rfl, -⟩ := List.cons.inj hz
      simp only [List.flatten_append, List.flatten_cons, List.length_append] at hlength
      omega

omit [DecidableEq α] in
/-- A text with a single place in a text that comes in pieces lies in one piece at most. -/
theorem only_piece {p lead : List α} (hp : p ≠ []) {pieces : List (List α)}
    (hlead : ∀ front rest x y, pieces = front ++ (x ++ p ++ y) :: rest → front.flatten ++ x = lead)
    {front rest : List (List α)} {a b : List α} (h : pieces = front ++ (a ++ p ++ b) :: rest) :
    (∀ piece ∈ front, ¬ p <:+: piece) ∧ ∀ x y, x ++ p ++ y ∈ pieces → y = b := by
  have honly : ∀ front' rest' x y,
      pieces = front' ++ (x ++ p ++ y) :: rest' → front = front' ∧ b = y := by
    intro front' rest' x y hcut
    obtain ⟨hfronts, -, hy, -⟩ := eq_of_place hp (h.symm.trans hcut)
      ((hlead front rest a b h).trans (hlead front' rest' x y hcut).symm)
    exact ⟨hfronts, hy⟩
  refine ⟨?_, fun x y hxy ↦ ?_⟩
  · rintro piece hpiece ⟨x, y, rfl⟩
    obtain ⟨front', rest', rfl⟩ := List.append_of_mem hpiece
    have hcut : pieces = front' ++ (x ++ p ++ y) :: (rest' ++ (a ++ p ++ b) :: rest) := by
      rw [h]
      simp
    have hlength := congrArg List.length (honly _ _ _ _ hcut).1
    simp only [List.length_append, List.length_cons] at hlength
    omega
  · obtain ⟨front', rest', hcut⟩ := List.append_of_mem hxy
    exact (honly front' rest' x y hcut).2.symm

/-! ### Last occurrences -/

/-- The position of the last occurrence of a letter. -/
def findLast (c : α) (l : List α) : Option ℕ :=
  (l.reverse.idxOf? c).map fun k ↦ l.length - 1 - k

/-- The last occurrence of a letter cuts the text where the letter last stands. -/
theorem findLast_append_cons {c : α} {b : List α} (h : c ∉ b) (a : List α) :
    findLast c (a ++ c :: b) = some a.length := by
  have hrev : (a ++ c :: b).reverse = b.reverse ++ c :: a.reverse := by simp
  rw [findLast, hrev, idxOf?_append_cons (by simpa using h), Option.map_some]
  congr 1
  simp only [List.length_append, List.length_cons, List.length_reverse]
  omega

/-! ### Lines -/

/-- Put a letter in front of the first line; a text without lines gets one. -/
def consHead (c : α) : List (List α) → List (List α)
  | [] => [[c]]
  | l :: ls => (c :: l) :: ls

/-- The lines a reader takes from the text, one after the other, until the text is used up. -/
def getlines (d : α) : List α → List (List α)
  | [] => []
  | c :: cs => if c = d then [] :: getlines d cs else consHead c (getlines d cs)

/-- A closed first line is read off, and reading goes on behind its separator. -/
theorem getlines_append_cons {d : α} {l : List α} (h : d ∉ l) (rest : List α) :
    getlines d (l ++ d :: rest) = l :: getlines d rest := by
  induction l with
  | nil => simp [getlines]
  | cons c l ih =>
    have hc : c ≠ d := fun e ↦ h (by simp [e])
    have hl : d ∉ l := fun e ↦ h (List.mem_cons_of_mem _ e)
    rw [List.cons_append, getlines, if_neg hc, ih hl, consHead]

/-- A text without separator is its own only line, unless it is empty. -/
theorem getlines_of_notMem {d : α} {l : List α} (h : d ∉ l) :
    getlines d l = if l = [] then [] else [l] := by
  induction l with
  | nil => rfl
  | cons c l ih =>
    have hc : c ≠ d := fun e ↦ h (by simp [e])
    have hl : d ∉ l := fun e ↦ h (List.mem_cons_of_mem _ e)
    rw [getlines, if_neg hc, ih hl]
    by_cases hnil : l = []
    · subst hnil
      rfl
    · rw [if_neg hnil, if_neg (List.cons_ne_nil c l), consHead]

/-- A line has no letters of its own. -/
theorem mem_of_mem_getlines {x d : α} {text line : List α} (hline : line ∈ getlines d text)
    (hx : x ∈ line) : x ∈ text := by
  induction text generalizing line with
  | nil => exact absurd hline List.not_mem_nil
  | cons y text ih =>
    rw [getlines] at hline
    split_ifs at hline with hsep
    · rcases List.mem_cons.1 hline with rfl | hline
      · exact absurd hx List.not_mem_nil
      · exact List.mem_cons_of_mem _ (ih hline hx)
    · rcases hlines : getlines d text with - | ⟨first, lines⟩
      · rw [hlines, consHead, List.mem_singleton] at hline
        rw [hline, List.mem_singleton] at hx
        exact hx ▸ List.mem_cons_self
      · rw [hlines, consHead] at hline
        rcases List.mem_cons.1 hline with rfl | hline
        · rcases List.mem_cons.1 hx with rfl | hx
          · exact List.mem_cons_self
          · exact List.mem_cons_of_mem _ (ih (hlines ▸ List.mem_cons_self) hx)
        · exact List.mem_cons_of_mem _ (ih (hlines ▸ List.mem_cons_of_mem _ hline) hx)

/-- **A reader takes as many lines as there are separators**, and one more if something follows the
last of them. -/
theorem length_getlines (d : α) (l : List α) : (getlines d l).length =
    l.count d + if l = [] ∨ l.getLast? = some d then 0 else 1 := by
  induction l with
  | nil => rfl
  | cons c l ih =>
    rw [getlines]
    rcases l with - | ⟨e, l⟩
    · by_cases hc : c = d <;> simp [getlines, consHead, hc]
    · have hlast : (c :: e :: l).getLast? = (e :: l).getLast? := List.getLast?_cons_cons
      have hne : ∀ x : α, x :: l ≠ [] := fun x ↦ List.cons_ne_nil x l
      rw [hlast]
      by_cases hc : c = d
      · rw [if_pos hc, List.length_cons, ih, hc, List.count_cons_self]
        simp only [reduceCtorEq, false_or]
        omega
      · have hlines : (consHead c (getlines d (e :: l))).length = (getlines d (e :: l)).length := by
          rcases h : getlines d (e :: l) with - | ⟨line, lines⟩
          · by_cases he : e = d
            · simp [getlines, he] at h
            · rw [getlines, if_neg he] at h
              rcases hl : getlines d l with - | ⟨line, lines⟩ <;> simp [hl, consHead] at h
          · rfl
        rw [if_neg hc, hlines, ih, List.count_cons_of_ne hc]
        simp only [reduceCtorEq, false_or]

/-- Words are read back from the text that joins them. -/
theorem getlines_intercalate {d : α} {words : List (List α)} (hne : ∀ w ∈ words, w ≠ [])
    (hd : ∀ w ∈ words, d ∉ w) : getlines d ([d].intercalate words) = words := by
  induction words with
  | nil => rfl
  | cons w words ih =>
    have hw := hd w List.mem_cons_self
    rcases words with - | ⟨v, words⟩
    · rw [List.intercalate_singleton, getlines_of_notMem hw, if_neg (hne w List.mem_cons_self)]
    · rw [List.intercalate_cons_cons, List.append_assoc, List.singleton_append,
        getlines_append_cons hw, ih (fun u hu ↦ hne u (List.mem_cons_of_mem _ hu))
          fun u hu ↦ hd u (List.mem_cons_of_mem _ hu)]

omit [DecidableEq α] in
/-- A text either has no separator, or splits at the first one into a line and a shorter rest. -/
theorem notMem_or_exists_line (d : α) (l : List α) :
    d ∉ l ∨ ∃ line rest, d ∉ line ∧ l = line ++ d :: rest := by
  refine or_iff_not_imp_left.2 fun h ↦ ?_
  obtain ⟨line, rest, rfl, hline⟩ := List.eq_append_cons_of_mem (not_not.1 h)
  exact ⟨line, rest, hline, rfl⟩

omit [DecidableEq α] in
/-- Behind a line without separator, two separators in a row begin with the one that ends it, or
stand in the rest. -/
theorem doubled_infix_append_cons_iff {d : α} {line : List α} (h : d ∉ line) (rest : List α) :
    [d, d] <:+: line ++ d :: rest ↔ rest.head? = some d ∨ [d, d] <:+: rest := by
  induction line with
  | nil =>
    rw [List.nil_append, List.infix_cons_iff]
    refine or_congr_left ?_
    rcases rest with - | ⟨c, rest⟩
    · simp
    · simp [List.cons_prefix_cons, eq_comm]
  | cons c line ih =>
    have hc : d ≠ c := fun e ↦ h (e ▸ List.mem_cons_self)
    have hprefix : ¬ [d, d] <+: c :: (line ++ d :: rest) := fun hp ↦
      hc (List.cons_prefix_cons.1 hp).1
    rw [List.cons_append, List.infix_cons_iff, ih fun hd ↦ h (List.mem_cons_of_mem _ hd)]
    exact or_iff_right hprefix

/-- **A reader takes an empty line** exactly from a text that begins with a separator or has two of
them in a row. -/
theorem nil_mem_getlines_iff (d : α) (l : List α) :
    [] ∈ getlines d l ↔ l.head? = some d ∨ [d, d] <:+: l := by
  induction hn : l.length using Nat.strong_induction_on generalizing l with
  | _ n ih =>
    rcases notMem_or_exists_line d l with hline | ⟨line, rest, hline, rfl⟩
    · have hhead : ¬ (l.head? = some d) := fun hd ↦ hline (List.mem_of_head? hd)
      have hdoubled : ¬ [d, d] <:+: l := fun hi ↦ hline (hi.subset List.mem_cons_self)
      rw [getlines_of_notMem hline]
      split_ifs <;> simp_all
    · have hlt : rest.length < n := by
        rw [← hn, List.length_append, List.length_cons]
        omega
      have hfirst : (line ++ d :: rest).head? = some d ↔ line = [] := by
        rcases line with - | ⟨c, line⟩
        · simp
        · have hc : d ≠ c := fun e ↦ hline (e ▸ List.mem_cons_self)
          simp [hc.symm]
      rw [getlines_append_cons hline, List.mem_cons, ih _ hlt rest rfl, hfirst,
        doubled_infix_append_cons_iff hline, eq_comm]

/-! ### Finite alphabets -/

omit [DecidableEq α] in
/-- **Over a finite alphabet there are finitely many texts below a length.** -/
theorem finite_of_length_lt {alphabet : Set α} (h : alphabet.Finite) (n : ℕ) :
    {l : List α | l.length < n ∧ ∀ c ∈ l, c ∈ alphabet}.Finite := by
  have := h.to_subtype
  refine ((List.finite_length_lt alphabet n).image (List.map Subtype.val)).subset ?_
  rintro l ⟨hlength, hmem⟩
  exact ⟨l.attachWith (· ∈ alphabet) hmem, by simpa using hlength,
    List.attachWith_map_subtype_val hmem⟩

end Text
