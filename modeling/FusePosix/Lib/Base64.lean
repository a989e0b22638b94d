import Mathlib.Tactic.Ring

/-!
# Eight bits as six bits, and back

Three bytes are four digits of six bits. `sextets` cuts bytes into such digits and fills up the last
one with zeros. `collect` reads digits one after the other, most significant first: of the bits read
so far it keeps those that are not part of a finished byte, a number `v` of `k` bits.

`collect_sextets` is the round trip. The zeros at the end never make a byte.

`number` reads digits into one number that is never reduced. It grows with every digit behind the
first one that is not zero, and its size is known from how many these are and from the first of
them (`number_lt_iff`).
-/

namespace Base64

/-- Bytes as digits of six bits. -/
def sextets : List ℕ → List ℕ
  | [] => []
  | [a] => [a / 4, a % 4 * 16]
  | [a, b] => [a / 4, a % 4 * 16 + b / 16, b % 16 * 4]
  | a :: b :: c :: bytes =>
    a / 4 :: (a % 4 * 16 + b / 16) :: (b % 16 * 4 + c / 64) :: c % 64 :: sextets bytes

/-- The bytes that `digits` finish, if `v` is what is left of earlier digits, of `k` bits. -/
def collect (v k : ℕ) : List ℕ → List ℕ
  | [] => []
  | t :: digits =>
    if 8 ≤ k + 6 then
      (v * 64 + t) / 2 ^ (k - 2) :: collect ((v * 64 + t) % 2 ^ (k - 2)) (k - 2) digits
    else collect (v * 64 + t) (k + 6) digits

/-- A digit has six bits. -/
theorem lt_of_mem_sextets {bytes : List ℕ} (hbytes : ∀ b ∈ bytes, b < 256) :
    ∀ t ∈ sextets bytes, t < 64 := by
  induction bytes using sextets.induct with
  | case1 => simp [sextets]
  | case2 a =>
    have ha : a < 256 := hbytes a (by simp)
    simp only [sextets, List.mem_cons, List.not_mem_nil, or_false]
    omega
  | case3 a b =>
    have ha : a < 256 := hbytes a (by simp)
    have hb : b < 256 := hbytes b (by simp)
    simp only [sextets, List.mem_cons, List.not_mem_nil, or_false]
    omega
  | case4 a b c bytes ih =>
    have ha : a < 256 := hbytes a (by simp)
    have hb : b < 256 := hbytes b (by simp)
    have hc : c < 256 := hbytes c (by simp)
    have hrest := ih fun d hd ↦ hbytes d (by simp [hd])
    intro t ht
    simp only [sextets, List.mem_cons] at ht
    rcases ht with h | h | h | h | h
    · omega
    · omega
    · omega
    · omega
    · exact hrest t h

/-- **Round trip.** Reading the digits of bytes gives the bytes. -/
theorem collect_sextets {bytes : List ℕ} (hbytes : ∀ b ∈ bytes, b < 256) :
    collect 0 0 (sextets bytes) = bytes := by
  induction bytes using sextets.induct with
  | case1 => rfl
  | case2 a =>
    have ha : a < 256 := hbytes a (by simp)
    simp only [sextets, collect]
    simp
    omega
  | case3 a b =>
    have ha : a < 256 := hbytes a (by simp)
    have hb : b < 256 := hbytes b (by simp)
    simp only [sextets, collect]
    simp
    omega
  | case4 a b c bytes ih =>
    have ha : a < 256 := hbytes a (by simp)
    have hb : b < 256 := hbytes b (by simp)
    have hc : c < 256 := hbytes c (by simp)
    have hrest := ih fun d hd ↦ hbytes d (by simp [hd])
    -- a group of four leaves nothing behind
    simp only [sextets, collect]
    simp [Nat.mod_one, hrest]
    omega

/-! ### Digits as one number -/

/-- The number whose digits are those of `v` with `digits` behind them. -/
def number (v : ℕ) (digits : List ℕ) : ℕ :=
  digits.foldl (fun v t ↦ v * 64 + t) v

@[simp] theorem number_nil (v : ℕ) : number v [] = v := rfl

@[simp] theorem number_cons (v t : ℕ) (digits : List ℕ) :
    number v (t :: digits) = number (v * 64 + t) digits := rfl

/-- The digits behind `v` only move it up, and fill what it leaves free. -/
theorem number_bounds {digits : List ℕ} (hdigits : ∀ t ∈ digits, t < 64) (v : ℕ) :
    v * 64 ^ digits.length ≤ number v digits ∧ number v digits < (v + 1) * 64 ^ digits.length := by
  induction digits generalizing v with
  | nil => simp
  | cons t digits ih =>
    have ht : t < 64 := hdigits t List.mem_cons_self
    obtain ⟨hlow, hhigh⟩ := ih (fun u hu ↦ hdigits u (List.mem_cons_of_mem t hu)) (v * 64 + t)
    rw [number_cons, List.length_cons, pow_succ']
    refine ⟨?_, ?_⟩
    · calc v * (64 * 64 ^ digits.length) = v * 64 * 64 ^ digits.length := by ring
        _ ≤ (v * 64 + t) * 64 ^ digits.length := Nat.mul_le_mul_right _ (Nat.le_add_right _ t)
        _ ≤ number (v * 64 + t) digits := hlow
    · calc number (v * 64 + t) digits < (v * 64 + t + 1) * 64 ^ digits.length := hhigh
        _ ≤ (v + 1) * 64 * 64 ^ digits.length := Nat.mul_le_mul_right _ (by omega)
        _ = (v + 1) * (64 * 64 ^ digits.length) := by ring

theorem le_number (digits : List ℕ) (v : ℕ) : v ≤ number v digits := by
  induction digits generalizing v with
  | nil => exact le_rfl
  | cons t digits ih =>
    have hstep : v ≤ v * 64 + t := by omega
    exact hstep.trans (ih (v * 64 + t))

/-- **How many digits fit.** A first digit `v` other than zero with `n` more digits behind it stays
below `b` times `64 ^ k` exactly if there are fewer than `k` of them, or `k` and `v < b`. -/
theorem number_lt_iff {digits : List ℕ} (hdigits : ∀ t ∈ digits, t < 64) {v b k : ℕ} (hv : 0 < v)
    (hv' : v < 64) (hb : 0 < b) (hb' : b ≤ 64) : number v digits < b * 64 ^ k ↔
      digits.length < k ∨ digits.length = k ∧ v < b := by
  obtain ⟨hlow, hhigh⟩ := number_bounds hdigits v
  rcases lt_trichotomy digits.length k with hlt | heq | hgt
  · refine iff_of_true ?_ (.inl hlt)
    calc number v digits < (v + 1) * 64 ^ digits.length := hhigh
      _ ≤ 64 * 64 ^ digits.length := Nat.mul_le_mul_right _ hv'
      _ = 64 ^ (digits.length + 1) := (pow_succ' 64 _).symm
      _ ≤ 64 ^ k := Nat.pow_le_pow_right (by omega) hlt
      _ ≤ b * 64 ^ k := Nat.le_mul_of_pos_left _ hb
  · subst heq
    simp only [lt_irrefl, false_or, true_and]
    refine ⟨fun h ↦ Nat.lt_of_mul_lt_mul_right (hlow.trans_lt h), fun h ↦ hhigh.trans_le ?_⟩
    exact Nat.mul_le_mul_right _ h
  · refine iff_of_false (Nat.not_lt.2 ?_) (by omega)
    calc b * 64 ^ k ≤ 64 * 64 ^ k := Nat.mul_le_mul_right _ hb'
      _ = 64 ^ (k + 1) := (pow_succ' 64 k).symm
      _ ≤ 64 ^ digits.length := Nat.pow_le_pow_right (by omega) hgt
      _ ≤ v * 64 ^ digits.length := Nat.le_mul_of_pos_left _ hv
      _ ≤ number v digits := hlow

end Base64
