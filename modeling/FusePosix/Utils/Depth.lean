import FusePosix.Utils.PathAlgebra
import Mathlib.Data.Nat.Find
import Mathlib.Logic.Relation

/-!
# The counting loop of `path_depth`, turn by turn

`path_depth` keeps its position in two places: a pointer that moves over ordinary characters and the
16-bit counter that moves over tokens and is also the result. A `DepthState` is what the loop holds
at the start of a turn, with the number of tokens seen so far as an integer beside the counter, and
`DepthTurn` is one turn; it needs an access inside of the string.

As long as fewer than `2 ^ 15` tokens were seen, the state behind `k` turns is `DepthState.exact k`:
the counter is the number of tokens among the first `k` characters, and the character in view is the
one at position `k`. Token number `2 ^ 15` makes the counter negative. So the loop is sound
(`DepthSound`) exactly on the paths with fewer tokens than that. The access behind the loop needs a
character in front of the terminator (`pathDepth_sound_iff`).
-/

namespace FusePosix

/-! ### Turns -/

/-- What the loop holds at the start of a turn. -/
structure DepthState where
  s : ℕ
  i : Int16
  size : ℕ
  /-- The tokens seen so far. The loop has no such variable; its counter is compared with this. -/
  seen : ℕ
  deriving DecidableEq

namespace DepthState

/-- Before the first turn. -/
def start : DepthState where
  s := 0
  i := 0
  size := 0
  seen := 0

/-- The position of the character in view, `s[i]`. -/
def view (st : DepthState) : ℤ := st.s + st.i.toInt

/-- The state behind a turn with `c` in view. -/
def next (token c : Char) (st : DepthState) : DepthState :=
  if c = token then { st with i := st.i + 1, size := st.size + 1, seen := st.seen + 1 }
  else { st with s := st.s + 1, size := st.size + 1 }

/-- The state behind `k` turns of a counter that does not wrap around. -/
def exact (path : Str) (token : Char) (k : ℕ) : DepthState where
  s := k - (path.take k).count token
  i := Int16.ofNat ((path.take k).count token)
  size := k
  seen := (path.take k).count token

end DepthState

/-- One turn of the loop: there is a character in view, and it is not the terminator. -/
def DepthTurn (path : Str) (token : Char) (st st' : DepthState) : Prop :=
  ∃ c, charAt path st.view = .ok c ∧ c ≠ '\x00' ∧ st' = st.next token c

/-- The states the loop gets to. -/
def DepthReached (path : Str) (token : Char) : DepthState → Prop :=
  Relation.ReflTransGen (DepthTurn path token) .start

/-- A turn is a turn of the model. -/
theorem pathDepthLoop_of_turn {path : Str} {token : Char} {st st' : DepthState}
    (h : DepthTurn path token st st') (turns : ℕ) :
    pathDepthLoop path token (turns + 1) st.s st.i st.size =
      pathDepthLoop path token turns st'.s st'.i st'.size := by
  obtain ⟨c, hc, hnul, rfl⟩ := h
  rw [pathDepthLoop, show (st.s : ℤ) + st.i.toInt = st.view from rfl, hc, ok_bind, if_neg hnul,
    DepthState.next]
  split_ifs <;> rfl

/-- **The loop of the model gets to these states**, with turns to spare. -/
theorem exists_turns_of_reached {path : Str} {token : Char} {st : DepthState}
    (h : DepthReached path token st) : ∃ n, ∀ turns,
      pathDepthLoop path token (turns + n) 0 0 0 =
        pathDepthLoop path token turns st.s st.i st.size := by
  induction h with
  | refl => exact ⟨0, fun turns ↦ rfl⟩
  | tail _ hturn ih =>
    obtain ⟨n, hn⟩ := ih
    refine ⟨n + 1, fun turns ↦ ?_⟩
    calc pathDepthLoop path token (turns + (n + 1)) 0 0 0 =
        pathDepthLoop path token (turns + 1 + n) 0 0 0 := by rw [Nat.add_right_comm, Nat.add_assoc]
      _ = _ := hn (turns + 1)
      _ = _ := pathDepthLoop_of_turn hturn turns

/-- **What is asked of the loop and of the access behind it.** -/
structure DepthSound (path : Str) (token : Char) : Prop where
  /-- `s[i]` is a character of the string or its terminator. -/
  access : ∀ st, DepthReached path token st → 0 ≤ st.view ∧ st.view ≤ path.length
  /-- The counter is the number of tokens seen. -/
  count : ∀ st, DepthReached path token st → st.i.toInt = st.seen
  /-- The loop ends at the terminator, all tokens seen, and `path[size - 1]` is a character of the
  string or its terminator. -/
  ends : ∃ st, DepthReached path token st ∧ st.view = path.length ∧ st.seen = path.count token ∧
    0 ≤ (st.size : ℤ) - 1 ∧ (st.size : ℤ) - 1 ≤ path.length

/-- The same for a call of `path_depth`, which does not get to the loop on a root path. -/
def PathDepthSound (path : Str) (token : Char) : Prop :=
  isRootPath path = false → DepthSound path token

/-! ### A counter that does not wrap around -/

section Exact

variable {path : Str} {token : Char}

theorem DepthState.view_exact {k : ℕ} (hk : k ≤ path.length)
    (hcount : (path.take k).count token < 2 ^ 15) : (DepthState.exact path token k).view = k := by
  have hle : (path.take k).count token ≤ k := by
    calc (path.take k).count token ≤ (path.take k).length := List.count_le_length
      _ = k := by rw [List.length_take, min_eq_left hk]
  show ((k - (path.take k).count token : ℕ) : ℤ) + (Int16.ofNat _).toInt = k
  rw [toInt_int16_ofNat hcount]
  omega

/-- The character in view behind `k` turns. -/
theorem charAt_of_lt {k : ℕ} (hk : k < path.length) : charAt path k = .ok path[k] := by
  have hpath : path.take k ++ path[k] :: path.drop (k + 1) = path := by
    rw [List.getElem_cons_drop, List.take_append_drop]
  have hlength : (path.take k).length = k := by
    rw [List.length_take, min_eq_left hk.le]
  calc charAt path k =
        charAt (path.take k ++ path[k] :: path.drop (k + 1)) (path.take k).length := by
        rw [hpath, hlength]
    _ = .ok path[k] := charAt_append_cons _ _ _

/-- The next state but one is the next one of the exact states. -/
theorem DepthState.next_exact {k : ℕ} (hk : k < path.length) :
    (DepthState.exact path token k).next token path[k] = DepthState.exact path token (k + 1) := by
  have hle : (path.take k).count token ≤ k := by
    calc (path.take k).count token ≤ (path.take k).length := List.count_le_length
      _ = k := by rw [List.length_take, min_eq_left hk.le]
  have htake : path.take (k + 1) = path.take k ++ [path[k]] := List.take_succ_eq_append_getElem hk
  have hcount : (path.take (k + 1)).count token =
      (path.take k).count token + if path[k] = token then 1 else 0 := by
    rw [htake, List.count_append, List.count_singleton]
    simp
  rw [DepthState.next]
  split_ifs with htoken
  · rw [if_pos htoken] at hcount
    simp only [DepthState.exact, hcount, Nat.add_sub_add_right, DepthState.mk.injEq, true_and,
      and_true]
    exact (Int16.ofNat_add _ _).symm
  · replace hcount : (path.take (k + 1)).count token = (path.take k).count token := by
      rw [hcount, if_neg htoken, Nat.add_zero]
    simp only [DepthState.exact, hcount, DepthState.mk.injEq, and_true]
    omega

/-- A prefix has no more tokens. -/
theorem count_take_le (k : ℕ) : (path.take k).count token ≤ path.count token :=
  (List.take_sublist k path).count_le token

/-- **A turn of the exact counter.** -/
theorem depthTurn_exact (hnul : '\x00' ∉ path) {k : ℕ} (hk : k < path.length)
    (hcount : (path.take k).count token < 2 ^ 15) :
    DepthTurn path token (.exact path token k) (.exact path token (k + 1)) := by
  refine ⟨path[k], ?_, fun e ↦ hnul (e ▸ List.getElem_mem hk), (DepthState.next_exact hk).symm⟩
  rw [DepthState.view_exact hk.le hcount, charAt_of_lt hk]

/-- The exact states are reached, up to the first one whose counter has wrapped around. -/
theorem depthReached_exact (hnul : '\x00' ∉ path) {k : ℕ} (hk : k ≤ path.length)
    (hcount : ∀ j < k, (path.take j).count token < 2 ^ 15) :
    DepthReached path token (.exact path token k) := by
  induction k with
  | zero => exact Relation.ReflTransGen.refl
  | succ k ih =>
    have hreached := ih (by omega) fun j hj ↦ hcount j (by omega)
    exact hreached.tail (depthTurn_exact hnul hk (hcount k (by omega)))

/-- **No other state is reached** if the counter does not wrap around. -/
theorem exists_exact_of_reached (hcount : path.count token < 2 ^ 15) {st : DepthState}
    (h : DepthReached path token st) : ∃ k ≤ path.length, st = .exact path token k := by
  induction h with
  | refl => exact ⟨0, Nat.zero_le _, rfl⟩
  | tail _ hturn ih =>
    obtain ⟨k, hk, rfl⟩ := ih
    have hk' : (path.take k).count token < 2 ^ 15 := (count_take_le k).trans_lt hcount
    obtain ⟨c, hc, hne, rfl⟩ := hturn
    rw [DepthState.view_exact hk hk'] at hc
    rcases hk.lt_or_eq with hlt | rfl
    · rw [charAt_of_lt hlt] at hc
      rw [← Except.ok.inj hc]
      exact ⟨k + 1, hlt, DepthState.next_exact hlt⟩
    · rw [charAt_length] at hc
      exact absurd (Except.ok.inj hc).symm hne

/-- The loop of the model gets to the exact states, one turn for each. -/
theorem pathDepthLoop_exact (hnul : '\x00' ∉ path) {k : ℕ} (hk : k ≤ path.length)
    (hcount : ∀ j < k, (path.take j).count token < 2 ^ 15) (turns : ℕ) :
    pathDepthLoop path token (turns + k) 0 0 0 =
      pathDepthLoop path token turns (DepthState.exact path token k).s
        (DepthState.exact path token k).i (DepthState.exact path token k).size := by
  induction k generalizing turns with
  | zero => rfl
  | succ k ih =>
    have hturn := depthTurn_exact hnul hk (hcount k (Nat.lt_succ_self k))
    calc pathDepthLoop path token (turns + (k + 1)) 0 0 0 =
        pathDepthLoop path token (turns + 1 + k) 0 0 0 := by rw [Nat.add_right_comm, Nat.add_assoc]
      _ = _ := ih (by omega) (fun j hj ↦ hcount j (by omega)) (turns + 1)
      _ = _ := pathDepthLoop_of_turn hturn turns

/-- There is one more token at most in one more character. -/
theorem count_take_succ_le (k : ℕ) :
    (path.take (k + 1)).count token ≤ (path.take k).count token + 1 := by
  rw [List.take_add_one, List.count_append]
  refine Nat.add_le_add_left (List.count_le_length.trans ?_) _
  rcases path[k]? with - | c
  · exact Nat.zero_le _
  · exact le_rfl

/-- **A path on which the counter wraps around early.** If token number `2 ^ 15` is among the first
`2 ^ 16 - 1` characters, the next access is in front of the string. -/
theorem pathDepth_eq_undefined (hnul : '\x00' ∉ path) (hroot : isRootPath path = false)
    {k : ℕ} (hk : k ≤ path.length) (hearly : k < 2 ^ 16)
    (hcount : 2 ^ 15 ≤ (path.take k).count token) : pathDepth path token = .error .undefined := by
  have hexists : ∃ k, 2 ^ 15 ≤ (path.take k).count token := ⟨k, hcount⟩
  obtain ⟨n, hn⟩ : ∃ n, Nat.find hexists = n := ⟨_, rfl⟩
  have hmin : ∀ j < n, (path.take j).count token < 2 ^ 15 := fun j hj ↦
    Nat.lt_of_not_le (Nat.find_min hexists (hn ▸ hj))
  have hle : n ≤ k := hn ▸ Nat.find_min' hexists hcount
  have hmany : 2 ^ 15 ≤ (path.take n).count token := hn ▸ Nat.find_spec hexists
  have hexact : (path.take n).count token = 2 ^ 15 := by
    rcases n with - | n
    · simp at hmany
    · have hprevious := hmin n (Nat.lt_succ_self n)
      have hnext := @count_take_succ_le path token n
      omega
  have hturns : pathDepthTurns path = pathDepthTurns path - n - 1 + 1 + n := by
    rw [pathDepthTurns]
    omega
  have hwrap : (Int16.ofNat (2 ^ 15)).toInt = -2 ^ 15 := by decide
  have hfront : ((n - 2 ^ 15 : ℕ) : ℤ) + (Int16.ofNat (2 ^ 15)).toInt < 0 := by
    rw [hwrap]
    omega
  have hloop : pathDepthLoop path token (pathDepthTurns path) 0 0 0 = .error .undefined := by
    rw [hturns, pathDepthLoop_exact hnul (hle.trans hk) hmin, pathDepthLoop]
    simp only [DepthState.exact, hexact, charAt, if_pos hfront]
    rfl
  rw [pathDepth, hroot, if_neg Bool.false_ne_true, hloop]
  rfl

end Exact

/-- **On `2 ^ 15` names of one letter the depth is undefined.** -/
theorem pathDepth_of_letters {cs : List Component} (hletters : ∀ c ∈ cs, c.text.length = 1)
    (hlong : 2 ^ 15 ≤ cs.length) : pathDepth (mkPath cs false) = .error .undefined := by
  have hlength : ∀ ds : List Component, (∀ c ∈ ds, c.text.length = 1) →
      (pathBody ds).length = 2 * ds.length := by
    intro ds hds
    induction ds with
    | nil => rfl
    | cons c ds ih =>
      have hc := hds c List.mem_cons_self
      have hrest := ih fun d hd ↦ hds d (List.mem_cons_of_mem c hd)
      rw [pathBody_cons, List.length_cons, List.length_append, hc, hrest, List.length_cons]
      omega
  -- cut in front of name number `2 ^ 15`
  obtain ⟨ds, c, es, rfl, hds⟩ : ∃ ds c es, cs = ds ++ c :: es ∧ ds.length = 2 ^ 15 - 1 := by
    refine ⟨cs.take (2 ^ 15 - 1), cs[2 ^ 15 - 1], cs.drop (2 ^ 15 - 1 + 1), ?_, ?_⟩
    · rw [List.getElem_cons_drop, List.take_append_drop]
    · rw [List.length_take]
      omega
  have hpath : mkPath (ds ++ c :: es) false = pathBody ds ++ ['/'] ++ (c.text ++ pathBody es) := by
    simp [mkPath]
  have hbody := hlength ds fun d hd ↦ hletters d (List.mem_append_left _ hd)
  have hfront : (pathBody ds ++ ['/']).length = 2 ^ 16 - 1 := by
    rw [List.length_append, hbody, hds]
    rfl
  have htake : (mkPath (ds ++ c :: es) false).take (2 ^ 16 - 1) = pathBody ds ++ ['/'] := by
    rw [hpath, ← hfront, List.take_left']
    rfl
  refine pathDepth_eq_undefined (nul_notMem_mkPath _ _) (isRootPath_mkPath (by simp) _)
    (k := 2 ^ 16 - 1) ?_ (by omega) ?_
  · rw [hpath, List.length_append, hfront]
    omega
  · rw [htake, List.count_append, count_pathBody, hds]
    decide

/-! ### When it is sound -/

theorem depthSound_of_count {path : Str} {token : Char} (hnul : '\x00' ∉ path) (hne : path ≠ [])
    (hcount : path.count token < 2 ^ 15) : DepthSound path token where
  access st hst := by
    obtain ⟨k, hk, rfl⟩ := exists_exact_of_reached hcount hst
    rw [DepthState.view_exact hk ((count_take_le k).trans_lt hcount)]
    omega
  count st hst := by
    obtain ⟨k, -, rfl⟩ := exists_exact_of_reached hcount hst
    exact toInt_int16_ofNat ((count_take_le k).trans_lt hcount)
  ends := by
    have hpos := List.length_pos_of_ne_nil hne
    have hall : ∀ k, (path.take k).count token < 2 ^ 15 := fun k ↦
      (count_take_le k).trans_lt hcount
    refine ⟨.exact path token path.length, depthReached_exact hnul le_rfl fun j _ ↦ hall j,
      DepthState.view_exact le_rfl (hall _), ?_, ?_, ?_⟩
    · show (path.take path.length).count token = path.count token
      rw [List.take_length]
    · show (0 : ℤ) ≤ (path.length : ℤ) - 1
      omega
    · show (path.length : ℤ) - 1 ≤ path.length
      omega

/-- In front of the empty path nothing may be read. -/
theorem not_depthSound_nil (token : Char) : ¬ DepthSound [] token := by
  intro h
  obtain ⟨st, hst, -, -, hlast, -⟩ := h.ends
  obtain ⟨k, hk, rfl⟩ := exists_exact_of_reached (by simp) hst
  have hzero : k = 0 := by simpa using hk
  subst hzero
  have hsize : (0 : ℤ) ≤ (0 : ℕ) - 1 := hlast
  omega

/-- **Token number `2 ^ 15` makes the counter negative.** -/
theorem not_depthSound_of_le_count {path : Str} {token : Char} (hnul : '\x00' ∉ path)
    (hcount : 2 ^ 15 ≤ path.count token) : ¬ DepthSound path token := by
  intro h
  -- the shortest front part with that many tokens
  have hexists : ∃ k, 2 ^ 15 ≤ (path.take k).count token := ⟨path.length, by rwa [List.take_length]⟩
  have hmin : ∀ j < Nat.find hexists, (path.take j).count token < 2 ^ 15 := fun j hj ↦
    Nat.lt_of_not_le (Nat.find_min hexists hj)
  have hle : Nat.find hexists ≤ path.length :=
    Nat.find_min' hexists (by rwa [List.take_length])
  have hreached := depthReached_exact hnul hle hmin
  have hseen := h.count _ hreached
  have hrange := Int16.toInt_lt (Int16.ofNat ((path.take (Nat.find hexists)).count token))
  have hmany := Nat.find_spec hexists
  have hsame : (Int16.ofNat ((path.take (Nat.find hexists)).count token)).toInt =
      ((path.take (Nat.find hexists)).count token : ℤ) := hseen
  omega

/-- **When `path_depth` stays in bounds and counts right.** Of a string without terminator inside,
and whatever the token: exactly if it is a root path, on which nothing is counted, or it is not
empty and has fewer than `2 ^ 15` tokens. -/
theorem pathDepth_sound_iff {path : Str} (hnul : '\x00' ∉ path) (token : Char) :
    PathDepthSound path token ↔
      isRootPath path = true ∨ path ≠ [] ∧ path.count token < 2 ^ 15 := by
  rcases hroot : isRootPath path with - | -
  · have hsound : PathDepthSound path token ↔ DepthSound path token :=
      ⟨fun h ↦ h hroot, fun h _ ↦ h⟩
    rw [hsound, or_iff_right (by decide)]
    refine ⟨fun h ↦ ⟨?_, ?_⟩, fun ⟨hne, hcount⟩ ↦ depthSound_of_count hnul hne hcount⟩
    · rintro rfl
      exact not_depthSound_nil token h
    · exact Nat.lt_of_not_le fun hcount ↦ not_depthSound_of_le_count hnul hcount h
  · exact iff_of_true (fun h ↦ absurd (hroot.symm.trans h) (by decide)) (.inl rfl)

/-- A path of two components. -/
theorem pathDepth_sound_two : PathDepthSound "/a/b".toList '/' :=
  (pathDepth_sound_iff (by decide) '/').2 (.inr ⟨by decide, by decide⟩)

/-- **Two paths on which it fails**: the empty one, in front of which a character is read, and one
of `2 ^ 15` components, whose last slash makes the depth negative. -/
theorem pathDepth_unsound : ¬ PathDepthSound [] '/' ∧
    '\x00' ∉ (List.replicate (2 ^ 15) ['/', 'a']).flatten ∧
    ¬ PathDepthSound (List.replicate (2 ^ 15) ['/', 'a']).flatten '/' := by
  have hnul : '\x00' ∉ (List.replicate (2 ^ 15) ['/', 'a']).flatten := by
    rw [List.mem_flatten]
    rintro ⟨component, hcomponent, hmem⟩
    rw [List.eq_of_mem_replicate hcomponent] at hmem
    exact absurd hmem (by decide)
  have hcount : (List.replicate (2 ^ 15) ['/', 'a']).flatten.count '/' = 2 ^ 15 := by
    rw [List.count_flatten, List.map_replicate, List.sum_replicate_nat]
    rfl
  have hroot : isRootPath (List.replicate (2 ^ 15) ['/', 'a']).flatten = false := by
    show isRootPath (List.replicate (32767 + 1) ['/', 'a']).flatten = false
    rw [List.replicate_succ, List.flatten_cons]
    rfl
  exact ⟨fun h ↦ not_depthSound_nil '/' (h rfl), hnul, fun h ↦
    not_depthSound_of_le_count hnul hcount.ge (h hroot)⟩

end FusePosix
