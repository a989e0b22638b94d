import FusePosix.TokenPayload

/-!
# The accumulator of the decoder as an `int`

`base64urlDecodeLoop` lets its accumulator wrap around. In the source it is an `int`, and an `int`
that leaves its range has no defined value. `decodeEvaluations` are the values the loop computes,
as integers, and `base64urlDecodeLoopChecked` is the loop as long as they fit.

Nothing ever reduces the accumulator, so it only grows, and all its values fit exactly if the last
one does: the number whose digits are all the letters read (`forall_decodeEvaluations_iff`). It has
thirty-one bits, that is five letters and one bit of a sixth, zeros in front not counted
(`FitsAccumulator`). The position `valb` comes back between minus eight and zero after each byte, so
the shifts are always in range (`valb_lt_of_mem_decodeEvaluations`).
-/

namespace FusePosix

open Base64

/-! ### The loop over integers -/

/-- What a 32-bit `int` can hold. -/
def IsInt32 (v : ℤ) : Prop := -2 ^ 31 ≤ v ∧ v < 2 ^ 31

instance (v : ℤ) : Decidable (IsInt32 v) := inferInstanceAs (Decidable (_ ∧ _))

/-- What `(val << 6) + T[c]` comes to for each letter, with the `valb` of that turn; `val >> valb`
is evaluated in the turns in which that is not negative. -/
def decodeEvaluations : ℤ → ℤ → Str → List (ℤ × ℤ)
  | _, _, [] => []
  | val, valb, c :: input =>
    match base64Chars.idxOf? c with
    | none => []
    | some t =>
      let val := val * 2 ^ 6 + t
      let valb := valb + 6
      (val, valb) :: decodeEvaluations val (if 0 ≤ valb then valb - 8 else valb) input

/-- The decoding loop, with an overflow and a shift out of range undefined. -/
def base64urlDecodeLoopChecked : ℤ → ℤ → Str → Except Fault Str
  | _, _, [] => return []
  | val, valb, c :: input =>
    match base64Chars.idxOf? c with
    | none => return []
    | some t => do
      let val := val * 2 ^ 6 + t
      if ¬ IsInt32 val then throw .undefined
      let valb := valb + 6
      if 0 ≤ valb then
        if 32 ≤ valb then throw .undefined
        let output ← base64urlDecodeLoopChecked val (valb - 8) input
        return Char.ofNat (val / 2 ^ valb.toNat % 2 ^ 8).toNat :: output
      else base64urlDecodeLoopChecked val valb input

/-- What the loop reads of an input: the letters of the standard alphabet, filled up with `=`. -/
def decoderText (input : Str) : Str :=
  let input := input.map fun c ↦ if c = '-' then '+' else c
  let input := input.map fun c ↦ if c = '_' then '/' else c
  padBase64 input

/-- Decode a text in the URL-safe alphabet with an `int` for the accumulator. -/
def base64urlDecodeChecked (input : Str) : Except Fault Str :=
  base64urlDecodeLoopChecked 0 (-8) (decoderText input)

/-! ### The digits in front -/

/-- The digits of the letters in front of the first one that is not in the alphabet. -/
def leadingDigits : Str → List ℕ
  | [] => []
  | c :: input =>
    match base64Chars.idxOf? c with
    | none => []
    | some t => t :: leadingDigits input

/-- A digit has six bits. -/
theorem lt_of_idxOf? {c : Char} {t : ℕ} (h : base64Chars.idxOf? c = some t) : t < 64 := by
  obtain ⟨hlt, -⟩ := List.findIdx?_eq_some_iff_getElem.1 h
  have hlength : base64Chars.length = 64 := by decide
  omega

theorem lt_of_mem_leadingDigits (input : Str) : ∀ t ∈ leadingDigits input, t < 64 := by
  induction input with
  | nil => simp [leadingDigits]
  | cons c input ih =>
    rw [leadingDigits]
    rcases h : base64Chars.idxOf? c with - | t
    · simp
    · intro u hu
      rcases List.mem_cons.1 hu with rfl | hu
      · exact lt_of_idxOf? h
      · exact ih u hu

/-- The padding adds no digit. -/
theorem leadingDigits_append_padding (input : Str) (n : ℕ) :
    leadingDigits (input ++ List.replicate n '=') = leadingDigits input := by
  induction input with
  | nil =>
    cases n with
    | zero => rfl
    | succ n => simp only [List.replicate_succ, List.nil_append, leadingDigits, idxOf?_padding]
  | cons c input ih => rw [List.cons_append, leadingDigits, leadingDigits, ih]

theorem leadingDigits_decoderText (input : Str) :
    leadingDigits (decoderText input) = leadingDigits (input.map standardChar) := by
  have hmap : (input.map fun c ↦ if c = '-' then '+' else c).map
      (fun c ↦ if c = '_' then '/' else c) = input.map standardChar := by
    rw [List.map_map]
    rfl
  rw [decoderText, hmap, padBase64, leadingDigits_append_padding]

/-! ### Overflow -/

theorem isInt32_natCast (v : ℕ) : IsInt32 v ↔ v < 2 ^ 31 := by
  rw [IsInt32]
  omega

/-- **All values fit exactly if the last one does**, the number of all the letters read. -/
theorem forall_decodeEvaluations_iff (input : Str) {v : ℕ} (hv : v < 2 ^ 31) (valb : ℤ) :
    (∀ e ∈ decodeEvaluations v valb input, IsInt32 e.1) ↔
      number v (leadingDigits input) < 2 ^ 31 := by
  induction input generalizing v valb with
  | nil => simpa [decodeEvaluations, leadingDigits] using hv
  | cons c input ih =>
    rw [decodeEvaluations, leadingDigits]
    rcases base64Chars.idxOf? c with - | t
    · simpa using hv
    · have hval : (v : ℤ) * 2 ^ 6 + t = (v * 64 + t : ℕ) := by push_cast; ring
      simp only [hval, List.forall_mem_cons, isInt32_natCast, number_cons]
      rcases Nat.lt_or_ge (v * 64 + t) (2 ^ 31) with hlt | hge
      · rw [and_iff_right hlt, ih hlt]
      · exact iff_of_false (fun h ↦ Nat.not_lt.2 hge h.1)
          (Nat.not_lt.2 (hge.trans (le_number _ _)))

/-- A shift moves by less than six bits. -/
theorem valb_lt_of_mem_decodeEvaluations (input : Str) {val valb : ℤ} (hlow : -8 ≤ valb)
    (hhigh : valb < 0) : ∀ e ∈ decodeEvaluations val valb input, e.2 < 6 := by
  induction input generalizing val valb with
  | nil => simp [decodeEvaluations]
  | cons c input ih =>
    rw [decodeEvaluations]
    rcases base64Chars.idxOf? c with - | t
    · simp
    · intro e he
      rcases List.mem_cons.1 he with rfl | he
      · show valb + 6 < 6
        omega
      · refine ih ?_ ?_ e he
        · split_ifs <;> omega
        · split_ifs <;> omega

/-- The byte that is taken out, as an integer and as a machine word. -/
theorem byte_eq {v : ℕ} (hv : v < 2 ^ 31) {n : ℕ} (hn : n < 8) :
    ((v : ℤ) / 2 ^ n % 2 ^ 8).toNat =
      (((BitVec.ofNat 32 v).sshiftRight n) &&& 0xFF#32).toNat := by
  have hval : (BitVec.ofNat 32 v).toNat = v := by
    rw [BitVec.toNat_ofNat, Nat.mod_eq_of_lt (hv.trans (by norm_num))]
  have hlow : HoldsBits (BitVec.ofNat 32 v) (n + 8) (v % 2 ^ (n + 8)) := by
    rw [HoldsBits, hval]
  have hcast : (v : ℤ) / 2 ^ n % 2 ^ 8 = ((v / 2 ^ n % 2 ^ 8 : ℕ) : ℤ) := by
    push_cast
    rfl
  rw [hlow.byte hn, pow_add, Nat.mod_mul_right_div_self, hcast, Int.toNat_natCast]

/-- **The loop with an `int` is the loop of the model** as long as the accumulator fits, and
undefined from there on. -/
theorem base64urlDecodeLoopChecked_eq (input : Str) {v : ℕ} (hv : v < 2 ^ 31) {valb : ℤ}
    (hlow : -8 ≤ valb) (hhigh : valb < 0) : base64urlDecodeLoopChecked v valb input =
      if number v (leadingDigits input) < 2 ^ 31 then
        .ok (base64urlDecodeLoop (BitVec.ofNat 32 v) valb input)
      else .error .undefined := by
  induction input generalizing v valb with
  | nil =>
    rw [leadingDigits, number_nil, if_pos hv]
    rfl
  | cons c input ih =>
    rw [base64urlDecodeLoopChecked, leadingDigits, base64urlDecodeLoop]
    rcases base64Chars.idxOf? c with - | t
    · show pure [] = if v < 2 ^ 31 then Except.ok [] else Except.error Fault.undefined
      rw [if_pos hv]
      rfl
    -- a digit: the exact accumulator times 64 plus the digit, the same value in 32 bits below the
    -- bound
    have hval : (v : ℤ) * 2 ^ 6 + t = (v * 64 + t : ℕ) := by push_cast; ring
    have hword : (BitVec.ofNat 32 v <<< 6) + BitVec.ofNat 32 t = BitVec.ofNat 32 (v * 64 + t) := by
      rw [BitVec.shiftLeft_eq_mul_twoPow, show BitVec.twoPow 32 6 = BitVec.ofNat 32 64 from rfl,
        ← BitVec.ofNat_mul, ← BitVec.ofNat_add]
    simp only [hval, isInt32_natCast, number_cons, hword]
    rcases Nat.lt_or_ge (v * 64 + t) (2 ^ 31) with hlt | hge
    · rw [if_neg (not_not.2 hlt)]
      -- between two digits `valb` stays below zero, so at most one byte is due and its shift is
      -- below the width
      by_cases hfull : 0 ≤ valb + 6
      · obtain ⟨n, hn⟩ := Int.eq_ofNat_of_zero_le hfull
        have hn' : n < 8 := by omega
        have hshift : ¬ 32 ≤ valb + 6 := by omega
        have hloop := @ih (v * 64 + t) hlt (valb + 6 - 8) (by omega) (by omega)
        have hbyte := byte_eq hlt hn'
        rw [if_pos hfull, if_neg hshift, if_pos hfull, hloop, hn, Int.toNat_natCast, hbyte]
        split_ifs <;> rfl
      · rw [if_neg hfull, if_neg hfull]
        exact ih hlt (by omega) (by omega)
    · rw [if_pos (Nat.not_lt.2 hge), if_neg (Nat.not_lt.2 (hge.trans (le_number _ _)))]
      rfl

/-! ### The letters that count -/

/-- A letter of the standard or of the URL-safe alphabet. -/
def isBase64urlLetter (c : Char) : Bool :=
  decide (c ∈ base64Chars) || c == '-' || c == '_'

/-- The letters in front, without the leading `A`s: the digits of the accumulator. -/
def significantLetters (input : Str) : Str :=
  (input.takeWhile isBase64urlLetter).dropWhile (· == 'A')

/-- At most five letters count, or a sixth if the first of them is a `B`: thirty-one bits. -/
def FitsAccumulator (input : Str) : Prop :=
  (significantLetters input).length ≤ 5 ∨
    (significantLetters input).length = 6 ∧ (significantLetters input).head? = some 'B'

instance (input : Str) : Decidable (FitsAccumulator input) :=
  inferInstanceAs (Decidable (_ ∨ _))

theorem standardChar_of_ne {c : Char} (hminus : c ≠ '-') (hlow : c ≠ '_') :
    standardChar c = c := by
  rw [standardChar, if_neg hminus, if_neg hlow]

theorem idxOf?_standardChar_isSome (c : Char) :
    (base64Chars.idxOf? (standardChar c)).isSome = isBase64urlLetter c := by
  rcases eq_or_ne c '-' with rfl | hminus
  · decide
  rcases eq_or_ne c '_' with rfl | hlow
  · decide
  rw [standardChar_of_ne hminus hlow, isBase64urlLetter, Bool.eq_iff_iff]
  simp [hminus, hlow]

/-- The letter of a digit in the standard alphabet. -/
theorem idxOf?_eq_some_getElem {c : Char} {t : ℕ} (ht : t < base64Chars.length) :
    base64Chars.idxOf? c = some t ↔ c = base64Chars[t] := by
  have hnodup : base64Chars.Nodup := by decide
  rw [List.idxOf?_eq_some_iff]
  refine ⟨fun ⟨_, heq, _⟩ ↦ heq.symm, ?_⟩
  rintro rfl
  exact ⟨ht, rfl, fun j hj heq ↦ hj.ne ((List.getElem_inj hnodup).1 heq)⟩

theorem idxOf?_standardChar_eq_zero {c : Char} :
    base64Chars.idxOf? (standardChar c) = some 0 ↔ c = 'A' := by
  rcases eq_or_ne c '-' with rfl | hminus
  · decide
  rcases eq_or_ne c '_' with rfl | hlow
  · decide
  rw [standardChar_of_ne hminus hlow, idxOf?_eq_some_getElem (by decide)]
  rfl

theorem idxOf?_standardChar_eq_one {c : Char} :
    base64Chars.idxOf? (standardChar c) = some 1 ↔ c = 'B' := by
  rcases eq_or_ne c '-' with rfl | hminus
  · decide
  rcases eq_or_ne c '_' with rfl | hlow
  · decide
  rw [standardChar_of_ne hminus hlow, idxOf?_eq_some_getElem (by decide)]
  rfl

theorem length_leadingDigits (input : Str) : (leadingDigits (input.map standardChar)).length =
    (input.takeWhile isBase64urlLetter).length := by
  induction input with
  | nil => rfl
  | cons c input ih =>
    have hletter := idxOf?_standardChar_isSome c
    rw [List.map_cons, leadingDigits, List.takeWhile_cons, ← hletter]
    rcases base64Chars.idxOf? (standardChar c) with - | t
    · rfl
    · rw [Option.isSome_some, if_pos rfl, List.length_cons, List.length_cons, ih]

/-- **When the number of the letters fits.** -/
theorem number_leadingDigits_lt_iff (input : Str) :
    number 0 (leadingDigits (input.map standardChar)) < 2 ^ 31 ↔ FitsAccumulator input := by
  induction input with
  | nil => simp [leadingDigits, FitsAccumulator, significantLetters]
  | cons c input ih =>
    have hletter := idxOf?_standardChar_isSome c
    have hzero := @idxOf?_standardChar_eq_zero c
    have hone := @idxOf?_standardChar_eq_one c
    rw [List.map_cons, leadingDigits, FitsAccumulator, significantLetters, List.takeWhile_cons,
      ← hletter]
    rcases h : base64Chars.idxOf? (standardChar c) with - | t
    · simp
    have ht : t < 64 := lt_of_idxOf? h
    rw [h, Option.some.injEq] at hzero hone
    rw [Option.isSome_some, if_pos rfl, List.dropWhile_cons]
    rcases Nat.eq_zero_or_pos t with rfl | hpos
    · -- a leading zero moves nothing
      rw [if_pos (by simp [hzero.1 rfl])]
      exact ih
    · have hne : c ≠ 'A' := fun e ↦ hpos.ne' (hzero.2 e)
      rw [if_neg (by simpa using hne), number_cons, Nat.zero_mul, Nat.zero_add,
        show (2 : ℕ) ^ 31 = 2 * 64 ^ 5 by norm_num,
        number_lt_iff (lt_of_mem_leadingDigits _) hpos ht (by norm_num) (by norm_num),
        length_leadingDigits, List.length_cons, List.head?_cons, Option.some.injEq, ← hone]
      omega

/-- **When the accumulator is an `int`.** In the decoding of any text every shift is by less than
thirty-two bits. Every value of the accumulator fits into an `int` exactly if the letters that count
are at most five, or six with a `B` in front; and the decoder with an `int` returns, with the output
of the model, exactly then. -/
theorem base64urlDecode_in_range_iff (input : Str) :
    ((∀ e ∈ decodeEvaluations 0 (-8) (decoderText input), IsInt32 e.1 ∧ (0 ≤ e.2 → e.2 < 32)) ↔
      FitsAccumulator input) ∧
    (base64urlDecodeChecked input = .ok (base64urlDecode input) ↔ FitsAccumulator input) := by
  have hzero : (0 : ℕ) < 2 ^ 31 := by norm_num
  have hnumber : number 0 (leadingDigits (decoderText input)) < 2 ^ 31 ↔ FitsAccumulator input := by
    rw [leadingDigits_decoderText, number_leadingDigits_lt_iff]
  refine ⟨?_, ?_⟩
  · have hshift := @valb_lt_of_mem_decodeEvaluations (decoderText input) 0 (-8) (by norm_num)
      (by norm_num)
    rw [← hnumber, ← forall_decodeEvaluations_iff _ hzero (-8)]
    refine forall₂_congr fun e he ↦ and_iff_left fun _ ↦ ?_
    have hlt := hshift e he
    omega
  · have hloop := base64urlDecodeLoopChecked_eq (decoderText input) hzero
      (show (-8 : ℤ) ≤ -8 from le_rfl) (by norm_num)
    have hchecked : base64urlDecodeChecked input =
        if number 0 (leadingDigits (decoderText input)) < 2 ^ 31 then .ok (base64urlDecode input)
        else .error .undefined := hloop
    rw [hchecked, ← hnumber]
    split_ifs with hfits
    · exact iff_of_true rfl hfits
    · exact iff_of_false (by simp) hfits

/-- **The payload of an ordinary token overflows**: the twelve letters of `\x7b"exp":5\x7d`. -/
theorem base64urlDecode_overflows :
    ¬ ∀ payload : Str, '.' ∉ payload →
      ∀ e ∈ decodeEvaluations 0 (-8) (decoderText payload), IsInt32 e.1 ∧ (0 ≤ e.2 → e.2 < 32) := by
  intro hall
  have hseen := hall "eyJleHAiOjV9".toList (by decide)
  have hsixth : (33053628295, 4) ∈
      decodeEvaluations 0 (-8) (decoderText "eyJleHAiOjV9".toList) := by decide +kernel
  exact absurd (hseen _ hsixth).1 (by decide)

end FusePosix
