import FusePosix.Rest.Direct

/-!
# File sizes

The size of a file reaches the cache in two ways. A listing parses the record of the file and turns
the text of its field `bytes` into an `int`. A lookup of the size searches the chunks of the record
for the text in front of that number, takes what follows in the same chunk up to a comma, and turns
it into an `int` as well.

So both ways lose what does not fit into 32 bits, and the second one also depends on where the
chunks end: it reads no more digits than are left in its chunk. `sizeOfPayload_record` says what it
reads, and `sizes_exact_iff` when both ways give the size.
-/

namespace FusePosix

open Reassembly

/-! ### Reading digits -/

/-- A text that does not begin with a digit. -/
def NoDigitFirst (s : Str) : Prop := ∀ c ∈ s.head?, c.isDigit = false

/-- Digits are read up to the first other character, or to the end of the text. -/
theorem takeWhile_isDigit_of_prefix {digits post : Str}
    (hdigits : ∀ c ∈ digits, c.isDigit = true) (hpost : NoDigitFirst post) :
    ∀ {b : Str}, b <+: digits ++ post → b.takeWhile Char.isDigit = digits.take b.length := by
  induction digits with
  | nil =>
    intro b hb
    rcases b with - | ⟨c, b⟩
    · rfl
    · obtain ⟨t, rfl⟩ := hb
      rw [List.takeWhile_cons_of_neg (by simp [hpost c rfl]), List.take_nil]
  | cons d digits ih =>
    intro b hb
    rcases b with - | ⟨c, b⟩
    · rfl
    · obtain ⟨rfl, hrest⟩ := List.cons_prefix_cons.1 hb
      rw [List.takeWhile_cons_of_pos (hdigits c List.mem_cons_self), List.length_cons,
        List.take_succ_cons, ih (fun e he ↦ hdigits e (List.mem_cons_of_mem _ he)) hrest]

/-- `stoll` of a text that begins with a digit, cut down to an `int`. -/
theorem sizeOfText_of_isDigit {c : Char} (hc : c.isDigit = true) (w : Str)
    (hfits : digitsValue ((c :: w).takeWhile Char.isDigit) < 2 ^ 63) :
    sizeOfText (c :: w) =
      (digitsValue ((c :: w).takeWhile Char.isDigit) : ℤ).bmod (2 ^ 32) := by
  obtain ⟨hminus, hplus⟩ := ne_sign_of_isDigit hc
  have hne : (c :: w).takeWhile Char.isDigit ≠ [] := by
    rw [List.takeWhile_cons_of_pos hc]
    exact List.cons_ne_nil _ _
  rw [sizeOfText, List.dropWhile_cons_of_neg (by simp [isSpaceChar_of_isDigit hc])]
  split
  rename_i hsign
  split at hsign
  · rename_i heq
    exact absurd (List.cons.inj heq).1 hminus
  · rename_i heq
    exact absurd (List.cons.inj heq).1 hplus
  · obtain ⟨rfl, rfl⟩ := Prod.mk.inj hsign
    simp only [Bool.false_eq_true, if_false]
    refine if_neg ?_
    rintro (h | h | h)
    · exact hne h
    · omega
    · omega

/-- What is read of digits that are cut off is the value of the digits that are left. -/
theorem sizeOfText_of_prefix {digits post b : Str} (hdigits : ∀ c ∈ digits, c.isDigit = true)
    (hne : digits ≠ []) (hpost : NoDigitFirst post) (hb : b <+: digits ++ post)
    (hfits : digitsValue (digits.take b.length) < 2 ^ 63) :
    sizeOfText (b.takeWhile (· ≠ ',')) =
      (digitsValue (digits.take b.length) : ℤ).bmod (2 ^ 32) := by
  rcases b with - | ⟨c, b⟩
  · rw [List.takeWhile_nil, List.length_nil, List.take_zero]
    decide
  · obtain ⟨d, digits, rfl⟩ := List.exists_cons_of_ne_nil hne
    obtain rfl : c = d := (List.cons_prefix_cons.1 hb).1
    have hc : c.isDigit = true := hdigits c List.mem_cons_self
    have hcomma : ∀ e : Char, e.isDigit = true → e ≠ ',' := by
      rintro e he rfl
      exact absurd he (by decide)
    have hread : ((c :: b).takeWhile (· ≠ ',')).takeWhile Char.isDigit =
        (c :: digits).take (c :: b).length := by
      rw [List.takeWhile_takeWhile, ← takeWhile_isDigit_of_prefix hdigits hpost hb]
      congr 1
      funext e
      by_cases he : e.isDigit = true
      · simp [he, hcomma e he]
      · simp [he]
    rw [List.takeWhile_cons_of_pos (by simpa using hcomma c hc)] at hread ⊢
    rw [sizeOfText_of_isDigit hc _ (hread ▸ hfits), hread]

/-- Of a decimal that is cut off at most a tenth is left. -/
theorem digitsValue_take_toDigits (n k : ℕ) :
    ((Nat.toDigits 10 n).length ≤ k ∧ digitsValue ((Nat.toDigits 10 n).take k) = n) ∨
      (k < (Nat.toDigits 10 n).length ∧ 10 * digitsValue ((Nat.toDigits 10 n).take k) ≤ n) := by
  rcases Nat.lt_or_ge k (Nat.toDigits 10 n).length with hk | hk
  · refine Or.inr ⟨hk, ?_⟩
    have hsplit : n = 10 ^ ((Nat.toDigits 10 n).drop k).length *
        digitsValue ((Nat.toDigits 10 n).take k) + digitsValue ((Nat.toDigits 10 n).drop k) := by
      have happend : Nat.ofDigitChars 10 ((Nat.toDigits 10 n).take k ++
          (Nat.toDigits 10 n).drop k) 0 = n := by
        rw [List.take_append_drop, Nat.ofDigitChars_ten_toDigits]
      rw [Nat.ofDigitChars_append, Nat.ofDigitChars_eq_ofDigitChars_zero] at happend
      exact happend.symm
    have hlength : ((Nat.toDigits 10 n).drop k).length ≠ 0 := by
      rw [List.length_drop]
      omega
    have hpow : 10 ≤ 10 ^ ((Nat.toDigits 10 n).drop k).length := Nat.le_self_pow hlength 10
    calc 10 * digitsValue ((Nat.toDigits 10 n).take k)
        ≤ 10 ^ ((Nat.toDigits 10 n).drop k).length *
            digitsValue ((Nat.toDigits 10 n).take k) := Nat.mul_le_mul_right _ hpow
      _ ≤ n := Nat.le.intro hsplit.symm
  · exact Or.inl ⟨hk, by rw [List.take_of_length_le hk, digitsValue_toDigits]⟩

/-- An `int` that comes from a number and is at least that number is the number. -/
theorem bmod_eq_iff {v n : ℕ} (h : v ≤ n) : (v : ℤ).bmod (2 ^ 32) = n ↔ v = n ∧ n < 2 ^ 31 := by
  rw [Int.bmod_def]
  split_ifs with hv <;> omega

/-! ### Reading chunks -/

/-- Chunks without the text in front of a number are passed over. -/
theorem sizeOfPayload_append {front : List Str}
    (h : ∀ chunk ∈ front, ¬ rucioBytesMetadata <:+: chunk) (rest : List Str) :
    sizeOfPayload (front ++ rest) = sizeOfPayload rest := by
  induction front with
  | nil => rfl
  | cons chunk front ih =>
    have hnone : Text.find rucioBytesMetadata chunk = none := by
      rw [← Option.not_isSome_iff_eq_none, Text.find_isSome_iff]
      exact h chunk List.mem_cons_self
    rw [List.cons_append, sizeOfPayload, hnone]
    exact ih fun other hother ↦ h other (List.mem_cons_of_mem _ hother)

/-- In the first chunk that has it the number ends at the next comma, or with the chunk. -/
theorem sizeOfPayload_cons_of_find {a b : Str}
    (hfind : Text.find rucioBytesMetadata (a ++ rucioBytesMetadata ++ b) = some a.length)
    (rest : List Str) : sizeOfPayload ((a ++ rucioBytesMetadata ++ b) :: rest) =
      some (sizeOfText (b.takeWhile (· ≠ ','))) := by
  have hnumber :
      (a ++ rucioBytesMetadata ++ b).drop (a.length + rucioBytesMetadata.length) = b := by
    rw [← List.length_append, List.drop_left]
  -- the source looks for the comma from the blank before the number on
  have hblank : (a ++ rucioBytesMetadata ++ b).drop (a.length + rucioBytesMetadata.length - 1) =
      ' ' :: b := by
    have hlast : rucioBytesMetadata = "\"bytes\":".toList ++ [' '] := rfl
    have hlength : a.length + rucioBytesMetadata.length - 1 =
        (a ++ "\"bytes\":".toList).length := by
      rw [hlast, List.length_append, List.length_append]
      rfl
    rw [hlength, hlast, ← List.append_assoc, List.append_assoc _ [' '], List.drop_left]
    rfl
  rw [sizeOfPayload, hfind]
  simp only [hnumber, hblank]
  rcases Text.notMem_or_exists_line ',' b with hb | ⟨u, v, hu, rfl⟩
  · have hnone : (' ' :: b).idxOf? ',' = none := by
      rw [List.idxOf?_eq_none_iff]
      simp [hb]
    have hall : b.takeWhile (· ≠ ',') = b :=
      List.takeWhile_eq_self_iff.2 fun c hc ↦ by simpa using fun h : c = ',' ↦ hb (h ▸ hc)
    rw [hnone, hall]
  · have hsome : (' ' :: (u ++ ',' :: v)).idxOf? ',' = some (u.length + 1) :=
      Text.idxOf?_append_cons (a := ' ' :: u) (by simpa using hu) v
    have hcut : (u ++ ',' :: v).takeWhile (· ≠ ',') = u := by
      rw [List.takeWhile_append_of_pos fun c hc ↦ by simpa using fun h : c = ',' ↦ hu (h ▸ hc),
        List.takeWhile_cons_of_neg (by simp), List.append_nil]
    rw [hsome, hcut]
    simp

/-! ### The number in a record -/

/-- A field of a record says a size, as Rucio prints it. -/
structure DidRecord.SaysSize (r : DidRecord) (f : DidField) (n : ℕ) : Prop where
  mem : f ∈ r.fields
  key : f.key.text = "bytes".toList
  value : f.value.text = Nat.toDigits 10 n
  bare : f.quoted = false
  beforeColon : f.beforeColon = 0
  afterColon : f.afterColon = 1

section Record

variable {r : DidRecord} {f : DidField} {n : ℕ} {final : Bool} {chunks : List Str}

/-- What follows a number in a record does not begin with a digit. -/
theorem noDigitFirst_behind (back : ℕ) (after : List DidField) (final : Bool) :
    NoDigitFirst (blanks back ++ (tailText after ++ ('}' :: if final then ['\n'] else []))) := by
  cases back with
  | zero => cases after <;> simp [NoDigitFirst, blanks]
  | succ back => simp [NoDigitFirst, blanks, List.replicate_succ]

/-- **The text in front of the number stands in one place**, and behind it the number. -/
theorem exists_place (h : r.SaysSize f n) : ∃ lead post, NoDigitFirst post ∧
    ∀ x y, joined didMarks [r.text] final = x ++ rucioBytesMetadata ++ y →
      x = lead ∧ y = Nat.toDigits 10 n ++ post := by
  obtain ⟨before, after, hfields⟩ := List.append_of_mem h.mem
  refine ⟨'{' :: (leadText before ++ blanks f.front), _,
    noDigitFirst_behind f.back after final, fun x y hxy ↦ ?_⟩
  have hmetadata : rucioBytesMetadata = inQuotes "bytes".toList ++ [':', ' '] := rfl
  have hcut : joined didMarks [r.text] final =
      x ++ inQuotes "bytes".toList ++ ':' :: (' ' :: y) := by
    rw [hxy, hmetadata]
    simp
  obtain ⟨before', g, after', hfields', hkey, -, hx, hy⟩ :=
    exists_field_of_quoted_colon (by decide) hcut
  have hmem : g ∈ r.fields := hfields' ▸ List.mem_append_right _ List.mem_cons_self
  obtain rfl : g = f := r.eq_of_key hmem h.mem (hkey.trans h.key.symm)
  obtain ⟨rfl, rfl⟩ := r.eq_of_place hfields hfields'
  constructor
  · have hkeyText : g.keyText = blanks g.front ++ inQuotes "bytes".toList := by
      rw [DidField.keyText, h.key, h.beforeColon]
      exact List.append_nil _
    rw [hkeyText, ← List.append_assoc, ← List.cons_append] at hx
    exact List.append_cancel_right hx
  · have hvalue : g.valueText = ' ' :: (Nat.toDigits 10 n ++ blanks g.back) := by
      rw [DidField.valueText, DidField.literal, h.bare, h.value, h.afterColon]
      rfl
    rw [hvalue] at hy
    have htail := (List.cons.inj hy).2
    simpa using htail

/-- **What the chunks of a record say about its size.** The chunk that holds the text in front of
the number whole is read as far as its digits go; without such a chunk nothing is read. -/
theorem sizeOfPayload_record (h : r.SaysSize f n) (hn : n < 2 ^ 63)
    (hchunks : chunks.flatten = joined didMarks [r.text] final) :
    ((∀ chunk ∈ chunks, ¬ rucioBytesMetadata <:+: chunk) ∧ sizeOfPayload chunks = none) ∨
      ∃ a b post, a ++ rucioBytesMetadata ++ b ∈ chunks ∧
        (∀ x y, x ++ rucioBytesMetadata ++ y ∈ chunks → y = b) ∧
        NoDigitFirst post ∧ b <+: Nat.toDigits 10 n ++ post ∧
        sizeOfPayload chunks =
          some ((digitsValue ((Nat.toDigits 10 n).take b.length) : ℤ).bmod (2 ^ 32)) := by
  by_cases hnone : ∀ chunk ∈ chunks, ¬ rucioBytesMetadata <:+: chunk
  · have hall := sizeOfPayload_append hnone []
    rw [List.append_nil] at hall
    exact Or.inl ⟨hnone, hall⟩
  · right
    push Not at hnone
    obtain ⟨chunk, hmem, hinfix⟩ := hnone
    obtain ⟨k, hfind⟩ := Option.isSome_iff_exists.1 (Text.find_isSome_iff.2 hinfix)
    obtain ⟨a, b, rfl, rfl⟩ := Text.eq_append_of_find hfind
    obtain ⟨front, rest, hfront⟩ := List.append_of_mem hmem
    obtain ⟨lead, post, hpost, hplace⟩ := @exists_place r f n final h
    have hat : ∀ front rest x y, chunks = front ++ (x ++ rucioBytesMetadata ++ y) :: rest →
        front.flatten ++ x = lead ∧ y ++ rest.flatten = Nat.toDigits 10 n ++ post := by
      intro front rest x y hcut
      refine hplace _ _ ?_
      rw [← hchunks, hcut]
      simp
    obtain ⟨hfirst, honly⟩ := Text.only_piece (by decide)
      (fun front rest x y hcut ↦ (hat front rest x y hcut).1) hfront
    have hb := (hat front rest a b hfront).2
    have hprefix : b <+: Nat.toDigits 10 n ++ post := ⟨rest.flatten, hb⟩
    have hfits : digitsValue ((Nat.toDigits 10 n).take b.length) < 2 ^ 63 := by
      rcases digitsValue_take_toDigits n b.length with ⟨-, hvalue⟩ | ⟨-, hvalue⟩ <;> omega
    refine ⟨a, b, post, hmem, honly, hpost, hprefix, ?_⟩
    rw [hfront, sizeOfPayload_append hfirst, sizeOfPayload_cons_of_find hfind,
      sizeOfText_of_prefix (fun c hc ↦ isDigit_of_mem_toDigits hc) Nat.toDigits_ne_nil hpost
        hprefix hfits]

/-- A chunk holds the number whole, with the text in front of it. Of a zero nothing need be left,
since a text without digits counts as zero. -/
def HoldsSize (chunks : List Str) (n : ℕ) : Prop :=
  ∃ chunk ∈ chunks, rucioBytesMetadata ++ (if n = 0 then [] else Nat.toDigits 10 n) <:+: chunk

/-- **The lookup reads the size** exactly if it fits an `int` and a chunk holds it. -/
theorem sizeOfPayload_eq_iff (h : r.SaysSize f n) (hn : n < 2 ^ 63)
    (hchunks : chunks.flatten = joined didMarks [r.text] final) :
    sizeOfPayload chunks = some (n : ℤ) ↔ n < 2 ^ 31 ∧ HoldsSize chunks n := by
  -- either no chunk holds the mark, or exactly one does and the number is cut where that chunk ends
  rcases sizeOfPayload_record h hn hchunks with
    ⟨hnone, hread⟩ | ⟨a, b, post, hmem, honly, hpost, hprefix, hread⟩
  · rw [hread]
    refine iff_of_false (by simp) ?_
    rintro ⟨-, chunk, hmem, x, y, rfl⟩
    exact hnone _ hmem ⟨x, (if n = 0 then [] else Nat.toDigits 10 n) ++ y, by simp⟩
  · have hvalue := digitsValue_take_toDigits n b.length
    have hle : digitsValue ((Nat.toDigits 10 n).take b.length) ≤ n := by omega
    rw [hread, Option.some.injEq, bmod_eq_iff hle, and_comm, and_congr_right_iff]
    intro _
    constructor
    · intro heq
      refine ⟨_, hmem, ?_⟩
      -- a cut number has lost a digit and is smaller, unless it is zero, which is read off no
      -- digits as well
      rcases hvalue with ⟨hlength, -⟩ | ⟨-, hcut⟩
      · obtain ⟨t, ht⟩ : Nat.toDigits 10 n <+: b :=
          List.prefix_of_prefix_length_le (List.prefix_append _ _) hprefix hlength
        split_ifs
        · exact ⟨a, b, by simp⟩
        · exact ⟨a, t, by rw [← ht]; simp⟩
      · rw [if_pos (by omega)]
        exact ⟨a, b, by simp⟩
    · rintro ⟨chunk, hchunk, x, y, rfl⟩
      split_ifs at hchunk with hzero
      · omega
      · have hplace : x ++ rucioBytesMetadata ++ (Nat.toDigits 10 n ++ y) ∈ chunks := by
          simpa using hchunk
        have hlength := congrArg List.length (honly _ _ hplace)
        rw [List.length_append] at hlength
        omega

/-- **What a listing reads of the size** is the number, cut down to an `int`. -/
theorem size_listed (h : r.SaysSize f n) (hn : n < 2 ^ 63)
    (htype : r.value? "type".toList = some RucioDataType.rucioFile.word)
    (hchunks : chunks.flatten = joined didMarks [r.text] final) :
    ∃ did containerDid, structurizeAll structurizeDid [] chunks [] = .ok ([], [did]) ∧
      structurizeAll structurizeContainerDid [] chunks [] = .ok ([], [containerDid]) ∧
      did.size = some ((n : ℤ).bmod (2 ^ 32)) ∧
      containerDid.size = some ((n : ℤ).bmod (2 ^ 32)) := by
  obtain ⟨didMap, hfind, hparse⟩ := structurizeAll_record r final hchunks
  have htypeField : field didMap "type".toList = RucioDataType.rucioFile.word := by
    rw [field, hfind, htype, Option.getD_some]
  have hbytes : field didMap "bytes".toList = Nat.toDigits 10 n := by
    rw [field, hfind, ← h.key, r.value?_of_mem h.mem, Option.getD_some, h.value]
  have hsize : (typeAndSize didMap).2 = some ((n : ℤ).bmod (2 ^ 32)) := by
    rw [typeAndSize_snd htypeField, hbytes, if_neg (toDigits_ne_null n), atoi_toDigits hn]
  exact ⟨_, _, hparse didOfMap [], hparse containerDidOfMap [], hsize, hsize⟩

/-! ### Both ways -/

/-- Both ways give the size: the lookup of a path answers and caches it, and so do the DIDs both
structurizers make of the chunks. -/
def SizesExact (io : Io) (path : Str) (caller : Caller) (s : State) (entity : Entity)
    (chunks : List Str) (n : ℕ) : Prop :=
  (∃ u, rucioGetSize io path caller s = .ok ((n : ℤ), u) ∧
    u.fileSizeCache.find (cacheKey entity) = some (some (n : ℤ))) ∧
  (∃ did, structurizeAll structurizeDid [] chunks [] = .ok ([], [did]) ∧
    did.size = some (n : ℤ)) ∧
  ∃ did, structurizeAll structurizeContainerDid [] chunks [] = .ok ([], [did]) ∧
    did.size = some (n : ℤ)

/-- **When file sizes are exact on both paths.** For a record of a file that says its size as Rucio
prints it, cut into chunks anywhere: the lookup of a path whose size is not cached returns and
caches the size, and both structurizers read it, exactly if it is below 2 GiB and one chunk holds
the text in front of the number and the number. -/
theorem sizes_exact_iff {io : Io} {path server scope name : Str} {caller : Caller} {s t : State}
    (htype : r.value? "type".toList = some RucioDataType.rucioFile.word) (h : r.SaysSize f n)
    (hn : n < 2 ^ 63) (hchunks : chunks.flatten = joined didMarks [r.text] final)
    (hentity : entityOfPath path = .ok [server, scope, name])
    (hcold : s.fileSizeCache.find (cacheKey [server, scope, name]) = none)
    (hfetch : fetchDid io server scope name caller s = .ok (some chunks, t)) :
    SizesExact io path caller s [server, scope, name] chunks n ↔
      n < 2 ^ 31 ∧ HoldsSize chunks n := by
  obtain ⟨did, containerDid, hdid, hcontainer, hsize, hcontainerSize⟩ :=
    size_listed h hn htype hchunks
  rw [SizesExact, rucioGetSize_of_fetch hentity hcold hfetch, hdid, hcontainer,
    ← sizeOfPayload_eq_iff h hn hchunks]
  constructor
  · rintro ⟨⟨u, hrun, -⟩, -⟩
    rcases hread : sizeOfPayload chunks with - | size
    · rw [hread] at hrun
      have hminus : (-1 : ℤ) = n := (Prod.mk.inj (Except.ok.inj hrun)).1
      omega
    · rw [hread] at hrun
      rw [(Prod.mk.inj (Except.ok.inj hrun)).1]
  · intro hread
    have hfits := ((sizeOfPayload_eq_iff h hn hchunks).1 hread).1
    refine ⟨⟨_, by rw [hread]; rfl, ?_⟩, ⟨did, rfl, ?_⟩, containerDid, rfl, ?_⟩
    · have hquiet := (fetchDid_eq_ok hfetch).quiet
      have hcontains : t.fileSizeCache.contains (cacheKey [server, scope, name]) = false := by
        rw [hquiet.fileSize, Table.contains, hcold]
        rfl
      show (t.fileSizeCache.emplace _ _).find _ = _
      rw [Table.emplace, hcontains, if_neg (by decide), Table.find_insert_self]
    · rw [hsize, bmod_eq_self_iff.2 hfits]
    · rw [hcontainerSize, bmod_eq_self_iff.2 hfits]

end Record

/-- The sizes of a file of twelve bytes. -/
theorem sizes_exact_twelve :
    SizesExact (sampleAnswering [sampleRecord.text]) samplePath sampleCaller sampleHolder
        [['s'], ['s'], ['f']] [sampleRecord.text] 12 ↔
      12 < 2 ^ 31 ∧ HoldsSize [sampleRecord.text] 12 := by
  obtain ⟨t, hfetch⟩ := exists_fetch_sample [sampleRecord.text]
  obtain ⟨f, hf⟩ : ∃ f, sampleRecord.SaysSize f 12 :=
    ⟨_, List.mem_of_getElem? (i := 2) rfl, rfl, by decide, rfl, rfl, rfl⟩
  exact @sizes_exact_iff sampleRecord f 12 false _ _ _ _ _ _ _ _ _ (by decide) hf (by decide)
    (by rfl) (by rfl) rfl hfetch

/-- The record of a file of three gibibytes. -/
def threeGibRecord : DidRecord where
  fields := [{ sampleType with front := 0 },
    { sampleBytes with value := ⟨"3221225472".toList, by decide, by decide⟩ }, sampleScope,
    sampleName]
  keys_nodup := by decide

/-- That file is looked up, in one chunk, with a negative size. -/
theorem not_sizesExact_threeGib :
    ¬ SizesExact (sampleAnswering [threeGibRecord.text]) samplePath sampleCaller sampleHolder
      [['s'], ['s'], ['f']] [threeGibRecord.text] 3221225472 := by
  rintro ⟨⟨u, hrun, -⟩, -⟩
  have hnegative : (rucioGetSize (sampleAnswering [threeGibRecord.text]) samplePath sampleCaller
      sampleHolder).map Prod.fst = .ok (-1073741824) := by
    decide +kernel
  rw [hrun] at hnegative
  have hsame : ((3221225472 : ℕ) : ℤ) = -1073741824 := Except.ok.inj hnegative
  exact absurd hsame (by decide)

end FusePosix
