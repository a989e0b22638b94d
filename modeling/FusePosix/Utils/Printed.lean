import FusePosix.Utils.Records

/-!
# Places in a printed record

The lookups of single DIDs do not parse a record, they search its text. What they find is decided by
where a quoted word can stand in a printed record: words contain no colon and no comma, so a
separator that follows a quoted word is one that the printer has put there.

* In front of a comma stands the end of a field (`exists_field_of_comma`), so a quoted word there is
  the value of the field (`exists_field_of_quoted_comma`).
* In front of a colon stands the key of a field (`exists_field_of_colon`), so a quoted word there is
  a key (`exists_field_of_quoted_colon`).
-/

namespace FusePosix

open Reassembly

/-! ### Fields in a row -/

/-- Fields with something behind them. -/
def leadText (fields : List DidField) : Str := fields.flatMap fun f ↦ f.text ++ [',']

/-- Fields with something in front of them. -/
def tailText (fields : List DidField) : Str := fields.flatMap fun f ↦ ',' :: f.text

@[simp] theorem leadText_nil : leadText [] = [] := rfl

@[simp] theorem leadText_cons (f : DidField) (fields : List DidField) :
    leadText (f :: fields) = f.text ++ ',' :: leadText fields := by
  simp [leadText]

@[simp] theorem tailText_nil : tailText [] = [] := rfl

@[simp] theorem tailText_cons (f : DidField) (fields : List DidField) :
    tailText (f :: fields) = ',' :: (f.text ++ tailText fields) := rfl

theorem intercalate_cons_eq (f : DidField) (fields : List DidField) :
    [','].intercalate ((f :: fields).map DidField.text) = f.text ++ tailText fields := by
  induction fields generalizing f with
  | nil => simp
  | cons g fields ih =>
    rw [List.map_cons, List.map_cons, List.intercalate_cons_cons, ← List.map_cons, ih,
      tailText_cons, List.append_assoc, List.singleton_append]

/-- A record as it stands around one of its fields. -/
theorem text_eq_of_fields {r : DidRecord} {before after : List DidField} {f : DidField}
    (h : r.fields = before ++ f :: after) :
    r.text = '{' :: leadText before ++ (f.text ++ tailText after) ++ ['}'] := by
  have hjoined : ∀ before : List DidField,
      [','].intercalate ((before ++ f :: after).map DidField.text) =
        leadText before ++ (f.text ++ tailText after) := by
    intro before
    induction before with
    | nil => exact intercalate_cons_eq f after
    | cons g before ih =>
      obtain ⟨e, fields, hfields⟩ : ∃ e fields, before ++ f :: after = e :: fields := by
        cases before <;> exact ⟨_, _, rfl⟩
      rw [List.cons_append, leadText_cons, List.append_assoc, List.cons_append, ← ih, hfields,
        intercalate_cons_eq, tailText_cons, ← intercalate_cons_eq]
  rw [DidRecord.text, h, hjoined]
  rfl

/-! ### Separators -/

theorem colon_notMem_keyText (f : DidField) : ':' ∉ f.keyText := by
  simp [DidField.keyText, inQuotes, blanks, f.key.notMem (c := ':') (by decide)]

theorem colon_notMem_valueText (f : DidField) : ':' ∉ f.valueText := by
  rw [DidField.valueText, DidField.literal]
  split_ifs <;> simp [inQuotes, blanks, f.value.notMem (c := ':') (by decide)]

/-- In front of a comma stands the end of a field. -/
theorem exists_field_of_comma (fields : List DidField) : ∀ (f : DidField) (lead rest x y : Str),
    ',' ∉ lead → ',' ∉ rest → lead ++ (f.text ++ tailText fields ++ rest) = x ++ ',' :: y →
      ∃ before g after, f :: fields = before ++ g :: after ∧
        x = lead ++ (leadText before ++ g.text) := by
  induction fields with
  | nil =>
    intro f lead rest x y hlead hrest h
    have hmem : ',' ∈ lead ++ (f.text ++ tailText [] ++ rest) :=
      h ▸ List.mem_append_right _ List.mem_cons_self
    simp [hlead, hrest, notMem_fieldText (f := f) (c := ',') (by decide)] at hmem
  | cons g fields ih =>
    intro f lead rest x y hlead hrest h
    have hnotMem : ',' ∉ lead ++ f.text := by
      simp [hlead, notMem_fieldText (f := f) (c := ',') (by decide)]
    have hcut : (lead ++ f.text) ++ ',' :: ([] ++ (g.text ++ tailText fields ++ rest)) =
        x ++ ',' :: y := by simpa using h
    rcases Text.append_cons_eq_append_cons hnotMem hcut with ⟨rfl, -⟩ | ⟨z, rfl, hz⟩
    · exact ⟨[], f, g :: fields, rfl, rfl⟩
    · obtain ⟨before, e, after, hfields, rfl⟩ := ih g [] rest z y List.not_mem_nil hrest hz
      exact ⟨f :: before, e, after, by rw [hfields, List.cons_append], by simp⟩

/-- In front of a colon stands the key of a field. -/
theorem exists_field_of_colon (fields : List DidField) : ∀ (f : DidField) (lead rest x y : Str),
    ':' ∉ lead → ':' ∉ rest → lead ++ (f.text ++ tailText fields ++ rest) = x ++ ':' :: y →
      ∃ before g after, f :: fields = before ++ g :: after ∧
        x = lead ++ (leadText before ++ g.keyText) ∧ y = g.valueText ++ tailText after ++ rest := by
  induction fields with
  | nil =>
    intro f lead rest x y hlead hrest h
    have hkey : ':' ∉ lead ++ f.keyText := by simp [hlead, colon_notMem_keyText]
    have hcut : (lead ++ f.keyText) ++ ':' :: (f.valueText ++ rest) = x ++ ':' :: y := by
      simpa [DidField.text] using h
    rcases Text.append_cons_eq_append_cons hkey hcut with ⟨rfl, rfl⟩ | ⟨z, rfl, hz⟩
    · exact ⟨[], f, [], rfl, by simp, by simp⟩
    · have hmem : ':' ∈ f.valueText ++ rest := hz ▸ List.mem_append_right _ List.mem_cons_self
      simp [hrest, colon_notMem_valueText] at hmem
  | cons g fields ih =>
    intro f lead rest x y hlead hrest h
    have hkey : ':' ∉ lead ++ f.keyText := by simp [hlead, colon_notMem_keyText]
    have hcut : (lead ++ f.keyText) ++
        ':' :: ((f.valueText ++ [',']) ++ (g.text ++ tailText fields ++ rest)) = x ++ ':' :: y := by
      simpa [DidField.text] using h
    rcases Text.append_cons_eq_append_cons hkey hcut with ⟨rfl, rfl⟩ | ⟨z, rfl, hz⟩
    · exact ⟨[], f, g :: fields, rfl, by simp, by simp⟩
    · have hvalue : ':' ∉ f.valueText ++ [','] := by simp [colon_notMem_valueText]
      obtain ⟨before, e, after, hfields, rfl, hy⟩ := ih g _ rest z y hvalue hrest hz
      exact ⟨f :: before, e, after, by rw [hfields, List.cons_append], by simp [DidField.text], hy⟩

/-! ### Quoted words -/

/-- A quoted word ends in a quote. -/
theorem getLast?_append_inQuotes (a w : Str) : (a ++ inQuotes w).getLast? = some '"' := by
  rw [inQuotes, ← List.cons_append, ← List.append_assoc, List.getLast?_concat]

/-- What ends in a quote has no blanks behind it. -/
theorem eq_zero_of_quote_blanks {a : Str} {n : ℕ} (h : (a ++ blanks n).getLast? = some '"') :
    n = 0 := by
  cases n with
  | zero => rfl
  | succ n =>
    rw [blanks, List.replicate_succ', ← List.append_assoc, List.getLast?_concat] at h
    exact absurd (Option.some.inj h) (by decide)

/-- A quoted word at the end is the last quoted word there is. -/
theorem eq_of_inQuotes_suffix {w v a : Str} {n : ℕ} (hw : '"' ∉ w) (hv : '"' ∉ v)
    (h : inQuotes w <:+ a ++ inQuotes v ++ blanks n) : n = 0 ∧ w = v := by
  obtain ⟨t, ht⟩ := h
  obtain rfl := eq_zero_of_quote_blanks (ht ▸ getLast?_append_inQuotes t w)
  have hcut : (t ++ '"' :: w) ++ ['"'] = (a ++ '"' :: v) ++ ['"'] := by
    simpa [inQuotes, blanks] using ht
  exact ⟨rfl, (Text.append_cons_inj_of_notMem_right hw hv (List.append_cancel_right hcut)).2⟩

/-- A value that ends in a quote is a string. -/
theorem quoted_of_getLast? {f : DidField} (h : f.valueText.getLast? = some '"') :
    f.quoted = true := by
  by_contra hbare
  have hback := eq_zero_of_quote_blanks h
  rw [DidField.valueText, DidField.literal, if_neg hbare, hback, List.append_assoc,
    List.getLast?_append, show f.value.text ++ blanks 0 = f.value.text from List.append_nil _,
    List.getLast?_eq_some_getLast f.value.ne_nil] at h
  have hmem : '"' ∈ f.value.text := by
    rw [← Option.some.inj h]
    exact List.getLast_mem f.value.ne_nil
  exact f.value.notMem (by decide) hmem

/-- The body of one record. -/
theorem joined_text (r : DidRecord) (final : Bool) :
    joined didMarks [r.text] final = r.text ++ if final then ['\n'] else [] := by
  cases final <;> simp [joined, didMarks]

/-- A body of one record as it stands around its fields. -/
theorem joined_text_eq {r : DidRecord} {f : DidField} {fields : List DidField}
    (h : r.fields = f :: fields) (final : Bool) :
    joined didMarks [r.text] final =
      ['{'] ++ (f.text ++ tailText fields ++ ('}' :: if final then ['\n'] else [])) := by
  have hfields : r.fields = [] ++ f :: fields := h
  rw [joined_text, text_eq_of_fields hfields]
  simp

section Quoted

variable {r : DidRecord} {final : Bool} {w x y : Str}

/-- **A quoted word in front of a comma is the value of a field.** -/
theorem exists_field_of_quoted_comma (hquote : '"' ∉ w) (hcolon : ':' ∉ w)
    (h : joined didMarks [r.text] final = x ++ inQuotes w ++ ',' :: y) :
    ∃ before f after, r.fields = before ++ f :: after ∧ f.quoted = true ∧ f.value.text = w ∧
      f.back = 0 ∧ x ++ inQuotes w = '{' :: (leadText before ++ f.text) := by
  rcases hfields : r.fields with - | ⟨g, fields⟩
  · have hmem : ',' ∈ joined didMarks [r.text] final :=
      h ▸ List.mem_append_right _ List.mem_cons_self
    rw [joined_text, DidRecord.text, hfields] at hmem
    cases final <;> exact absurd hmem (by decide)
  · rw [joined_text_eq hfields] at h
    have hrest : ',' ∉ '}' :: if final then ['\n'] else [] := by cases final <;> decide
    obtain ⟨before, f, after, hsplit, hx⟩ :=
      exists_field_of_comma fields g ['{'] _ _ y (by decide) hrest h
    have hsuffix : inQuotes w <:+ f.valueText := by
      refine Text.suffix_of_suffix_append_cons (d := ':') (by simp [inQuotes, hcolon]) (a := '{' ::
        (leadText before ++ f.keyText)) ?_
      exact ⟨x, by rw [hx]; simp [DidField.text]⟩
    have hliteral : f.quoted = true := by
      obtain ⟨t, ht⟩ := hsuffix
      exact quoted_of_getLast? (ht ▸ getLast?_append_inQuotes t w)
    rw [DidField.valueText, DidField.literal, if_pos hliteral] at hsuffix
    obtain ⟨hback, hw⟩ := eq_of_inQuotes_suffix hquote (f.value.notMem (by decide)) hsuffix
    exact ⟨before, f, after, hsplit, hliteral, hw.symm, hback, hx⟩

/-- **A quoted word in front of a colon is the key of a field.** -/
theorem exists_field_of_quoted_colon (hquote : '"' ∉ w)
    (h : joined didMarks [r.text] final = x ++ inQuotes w ++ ':' :: y) :
    ∃ before f after, r.fields = before ++ f :: after ∧ f.key.text = w ∧ f.beforeColon = 0 ∧
      x ++ inQuotes w = '{' :: (leadText before ++ f.keyText) ∧
      y = f.valueText ++ tailText after ++ ('}' :: if final then ['\n'] else []) := by
  rcases hfields : r.fields with - | ⟨g, fields⟩
  · have hmem : ':' ∈ joined didMarks [r.text] final :=
      h ▸ List.mem_append_right _ List.mem_cons_self
    rw [joined_text, DidRecord.text, hfields] at hmem
    cases final <;> exact absurd hmem (by decide)
  · rw [joined_text_eq hfields] at h
    have hrest : ':' ∉ '}' :: if final then ['\n'] else [] := by cases final <;> decide
    obtain ⟨before, f, after, hsplit, hx, hy⟩ :=
      exists_field_of_colon fields g ['{'] _ _ y (by decide) hrest h
    have hsuffix : inQuotes w <:+
        ('{' :: (leadText before ++ blanks f.front)) ++ inQuotes f.key.text ++
          blanks f.beforeColon :=
      ⟨x, by rw [hx]; simp [DidField.keyText]⟩
    obtain ⟨hback, hw⟩ := eq_of_inQuotes_suffix hquote (f.key.notMem (by decide)) hsuffix
    exact ⟨before, f, after, hsplit, hw.symm, hback, hx, hy⟩

end Quoted

end FusePosix
