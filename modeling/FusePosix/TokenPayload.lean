import FusePosix.Lib.Base64
import FusePosix.Lib.Text
import FusePosix.Token
import Mathlib.Tactic.IntervalCases
import Mathlib.Tactic.Ring

/-!
# The decoder gives back the payload

`base64url` writes bytes in the URL-safe alphabet, padded or not. `get_token_expiry` decodes what
stands between the first two dots of a token, so on a token with such a payload it hands exactly
the bytes to the JSON library (`getTokenExpiry_base64url`).

The decoder never masks its accumulator: after six letters it has overflowed. This does no harm,
since a byte is taken from the low `valb + 8` bits, and these are the bits of the current group
(`HoldsBits`, preserved by `HoldsBits.push`). The padding is not part of the alphabet and ends the
loop.
-/

namespace FusePosix

open Base64

/-! ### The encoder -/

/-- The letters of the URL-safe alphabet, in the order of their values. -/
def base64urlChars : Str :=
  ("ABCDEFGHIJKLMNOPQRSTUVWXYZ" ++ "abcdefghijklmnopqrstuvwxyz" ++ "0123456789-_").toList

/-- The letter of a digit. -/
def base64urlChar (t : ℕ) : Char := base64urlChars.getD t '='

/-- A byte string in the URL-safe alphabet. -/
def base64url (padded : Bool) (payload : Str) : Str :=
  (sextets (payload.map Char.toNat)).map base64urlChar ++
    if padded then List.replicate ((3 - payload.length % 3) % 3) '=' else []

/-! ### One letter -/

/-- The letter the decoder looks up for a letter of the URL-safe alphabet. -/
def standardChar (c : Char) : Char :=
  if (if c = '-' then '+' else c) = '_' then '/' else if c = '-' then '+' else c

theorem standardChar_padding : standardChar '=' = '=' := by decide

/-- The decoder looks up the digit of a letter. -/
theorem idxOf?_standardChar {t : ℕ} (ht : t < 64) :
    base64Chars.idxOf? (standardChar (base64urlChar t)) = some t := by
  have h : ∀ t < 64, base64Chars.idxOf? (standardChar (base64urlChar t)) = some t := by
    decide +kernel
  exact h t ht

theorem idxOf?_padding : base64Chars.idxOf? '=' = none := by decide +kernel

theorem dot_notMem_base64url (padded : Bool) {payload : Str}
    (hpayload : ∀ c ∈ payload, c.toNat < 256) : '.' ∉ base64url padded payload := by
  have hdot : ∀ t < 64, base64urlChar t ≠ '.' := by decide +kernel
  have hdigits : ∀ t ∈ sextets (payload.map Char.toNat), t < 64 :=
    lt_of_mem_sextets (by simpa using hpayload)
  rw [base64url, List.mem_append, not_or]
  refine ⟨fun h ↦ ?_, fun h ↦ ?_⟩
  · obtain ⟨t, ht, htext⟩ := List.mem_map.1 h
    exact hdot t (hdigits t ht) htext
  · rcases padded with - | -
    · simp at h
    · simp at h

/-! ### The accumulator -/

/-- The low `k` bits of the accumulator are `v`. -/
def HoldsBits (val : BitVec 32) (k v : ℕ) : Prop := val.toNat % 2 ^ k = v

/-- A digit is pushed in from below, whatever overflows. -/
theorem HoldsBits.push {val : BitVec 32} {k v t : ℕ} (h : HoldsBits val k v) (hk : k < 8)
    (ht : t < 64) : HoldsBits ((val <<< 6) + BitVec.ofNat 32 t) (k + 6) (v * 64 + t) := by
  have hpow : 2 ^ (k + 6) ∣ 2 ^ 32 := Nat.pow_dvd_pow 2 (by omega)
  have hlow : v < 2 ^ k := h ▸ Nat.mod_lt _ (Nat.two_pow_pos k)
  have hsum : val.toNat * 64 + t = 2 ^ (k + 6) * (val.toNat / 2 ^ k) + (v * 64 + t) := by
    have hdiv := Nat.div_add_mod val.toNat (2 ^ k)
    rw [h] at hdiv
    calc val.toNat * 64 + t = (2 ^ k * (val.toNat / 2 ^ k) + v) * 64 + t := by rw [hdiv]
      _ = 2 ^ (k + 6) * (val.toNat / 2 ^ k) + (v * 64 + t) := by ring
  have hfits : v * 64 + t < 2 ^ (k + 6) := by
    rw [pow_add]
    omega
  rw [HoldsBits, BitVec.toNat_add, BitVec.toNat_shiftLeft, BitVec.toNat_ofNat, Nat.shiftLeft_eq,
    ← Nat.add_mod, Nat.mod_mod_of_dvd _ hpow]
  rw [show (2 : ℕ) ^ 6 = 64 from rfl, hsum, Nat.mul_add_mod, Nat.mod_eq_of_lt hfits]

/-- Fewer low bits. -/
theorem HoldsBits.low {val : BitVec 32} {k v j : ℕ} (h : HoldsBits val k v) (hj : j ≤ k) :
    HoldsBits val j (v % 2 ^ j) := by
  rw [HoldsBits, ← h, Nat.mod_mod_of_dvd _ (Nat.pow_dvd_pow 2 hj)]

/-- The byte the decoder takes out: the upper eight of the low bits. An arithmetic shift moves the
sign in from above, but not as far as here. -/
theorem HoldsBits.byte {val : BitVec 32} {j v : ℕ} (h : HoldsBits val (j + 8) v) (hj : j < 8) :
    ((val.sshiftRight j) &&& 0xFF#32).toNat = v / 2 ^ j := by
  have hv : v / 2 ^ j = val.toNat / 2 ^ j % 2 ^ 8 := by
    rw [← h, pow_add, Nat.mod_mul_right_div_self]
  rw [hv]
  refine Nat.eq_of_testBit_eq fun i ↦ ?_
  rw [Nat.testBit_mod_two_pow, Nat.testBit_div_two_pow, BitVec.testBit_toNat, BitVec.testBit_toNat,
    BitVec.getLsbD_and, BitVec.getLsbD_sshiftRight]
  by_cases hi : i < 8
  · have hin : j + i < 32 := by omega
    have hmask : (0xFF#32).getLsbD i = true := by
      interval_cases i <;> rfl
    simp [hi, hin, hmask, show ¬ 32 ≤ i by omega, Nat.add_comm]
  · have hmask : (0xFF#32).getLsbD i = false := by
      rw [BitVec.getLsbD, BitVec.toNat_ofNat]
      exact Nat.testBit_lt_two_pow (Nat.lt_of_lt_of_le (by norm_num)
        (Nat.pow_le_pow_right (by norm_num) (Nat.le_of_not_lt hi)))
    simp [hi, hmask]

/-! ### The loop -/

/-- **The decoder collects the digits**, up to the padding. -/
theorem base64urlDecodeLoop_eq {padding : Str} (hpadding : ∀ c ∈ padding, c = '=')
    {digits : List ℕ} (hdigits : ∀ t ∈ digits, t < 64) {val : BitVec 32} {k v : ℕ}
    (h : HoldsBits val k v) (hk : k < 8) :
    base64urlDecodeLoop val ((k : ℤ) - 8)
        (digits.map (fun t ↦ standardChar (base64urlChar t)) ++ padding) =
      (collect v k digits).map Char.ofNat := by
  induction digits generalizing val k v with
  | nil =>
    rcases padding with - | ⟨c, padding⟩
    · rfl
    · obtain rfl := hpadding c List.mem_cons_self
      simp only [List.map_nil, List.nil_append, base64urlDecodeLoop, idxOf?_padding, collect]
  | cons t digits ih =>
    have ht : t < 64 := hdigits t List.mem_cons_self
    have hrest : ∀ u ∈ digits, u < 64 := fun u hu ↦ hdigits u (List.mem_cons_of_mem t hu)
    have hpush := h.push hk ht
    simp only [List.map_cons, List.cons_append, base64urlDecodeLoop, idxOf?_standardChar ht,
      collect]
    by_cases hfull : 8 ≤ k + 6
    · obtain ⟨j, rfl⟩ : ∃ j, k = j + 2 := ⟨k - 2, by omega⟩
      have hvalb : ((j + 2 : ℕ) : ℤ) - 8 + 6 = j := by omega
      rw [if_pos (by omega), if_pos hfull, hvalb, Int.toNat_natCast, hpush.byte (by omega),
        ih hrest (hpush.low (Nat.le_add_right j 8)) (by omega), List.map_cons, Nat.add_sub_cancel]
    · have hvalb : (k : ℤ) - 8 + 6 = ((k + 6 : ℕ) : ℤ) - 8 := by omega
      rw [if_neg (by omega), if_neg hfull, hvalb, ih hrest hpush (by omega)]

/-! ### Round trip -/

/-- What the loop reads: the digits of the payload, and padding. -/
theorem exists_padding (padded : Bool) (payload : Str) : ∃ padding : Str,
    (∀ c ∈ padding, c = '=') ∧
    padBase64 ((base64url padded payload).map standardChar) =
      (sextets (payload.map Char.toNat)).map (fun t ↦ standardChar (base64urlChar t)) ++
        padding := by
  refine ⟨(if padded then List.replicate ((3 - payload.length % 3) % 3) '=' else []).map
    standardChar ++ List.replicate
      ((4 - ((base64url padded payload).map standardChar).length % 4) % 4) '=', ?_, ?_⟩
  · intro c hc
    rcases List.mem_append.1 hc with hc | hc
    · obtain ⟨b, hb, rfl⟩ := List.mem_map.1 hc
      rcases padded with - | -
      · simp at hb
      · rw [List.eq_of_mem_replicate hb, standardChar_padding]
    · exact List.eq_of_mem_replicate hc
  · rw [padBase64, ← List.append_assoc]
    congr 1
    rw [base64url, List.map_append, List.map_map]
    rfl

/-- What is written is decoded to the bytes that were written. -/
theorem base64urlDecode_base64url (padded : Bool) {payload : Str}
    (hpayload : ∀ c ∈ payload, c.toNat < 256) :
    base64urlDecode (base64url padded payload) = payload := by
  have hbytes : ∀ b ∈ payload.map Char.toNat, b < 256 := by simpa using hpayload
  obtain ⟨padding, hpadding, htext⟩ := exists_padding padded payload
  have hreplace : ((base64url padded payload).map fun c ↦ if c = '-' then '+' else c).map
      (fun c ↦ if c = '_' then '/' else c) = (base64url padded payload).map standardChar := by
    rw [List.map_map]
    rfl
  have hloop := base64urlDecodeLoop_eq hpadding (lt_of_mem_sextets hbytes)
    (show HoldsBits 0 0 0 from rfl) (by omega)
  rw [base64urlDecode, hreplace, htext]
  calc _ = (collect 0 0 (sextets (payload.map Char.toNat))).map Char.ofNat := hloop
    _ = (payload.map Char.toNat).map Char.ofNat := by rw [collect_sextets hbytes]
    _ = payload := by simp [List.map_map, Function.comp_def, Char.ofNat_toNat]

/-- A text of three parts brings what the JSON library finds in the second one. -/
theorem getTokenExpiry_parts (jsonExp : Str → Except Fault ℤ) {header payload : Str}
    (signature : Str) (hheader : '.' ∉ header) (hpayload : '.' ∉ payload) :
    getTokenExpiry jsonExp (header ++ '.' :: (payload ++ '.' :: signature)) =
      jsonExp (base64urlDecode payload) := by
  rw [getTokenExpiry, Text.idxOf?_append_cons hheader]
  simp only [Text.drop_append_cons]
  rw [Text.idxOf?_append_cons hpayload]
  simp only [List.take_left]

/-- **The JSON library gets the payload.** A token of three parts, the first without a dot and the
second written in the URL-safe alphabet, with or without padding: whatever is done with a decoded
payload is done with exactly the bytes that were written. -/
theorem getTokenExpiry_base64url (jsonExp : Str → Except Fault ℤ) (padded : Bool)
    {header payload : Str} (signature : Str) (hheader : '.' ∉ header)
    (hpayload : ∀ c ∈ payload, c.toNat < 256) :
    getTokenExpiry jsonExp
      (header ++ '.' :: (base64url padded payload ++ '.' :: signature)) = jsonExp payload := by
  have hdot := dot_notMem_base64url padded hpayload
  rw [getTokenExpiry_parts jsonExp signature hheader hdot,
    base64urlDecode_base64url padded hpayload]

/-- The bytes `fb ff`, which use both letters that are not in the standard alphabet. -/
theorem getTokenExpiry_base64url_two : base64url true ['\xfb', '\xff'] = "-_8=".toList ∧
    getTokenExpiry (fun payload ↦ .ok payload.length) "h.-_8=.s".toList = .ok 2 := by
  have htext : base64url true ['\xfb', '\xff'] = "-_8=".toList := by decide +kernel
  have h := @getTokenExpiry_base64url (fun payload ↦ .ok payload.length) true ['h']
    ['\xfb', '\xff'] ['s'] (by decide) (by decide)
  rw [htext] at h
  exact ⟨htext, h⟩

end FusePosix
