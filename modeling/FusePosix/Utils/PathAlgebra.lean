import FusePosix.Utils.Path

/-!
# What the path functions compute on well-formed paths

A well-formed path is a list of **components** (`Component`: a non-empty text without slash and
terminator) and the information whether one more slash follows (`mkPath`). On such a path every
function of `FusePosix.Utils.Path` returns, and what it returns is read off the component list:
depth is its length, server, scope and name are its first, second and last element.

Each function finds its component by a trick of its own, so each has a lemma of its own here. The
one that needs care is `extractScope`: it deletes the first occurrence of the server name followed
by a slash, which is the leading one even if the same text occurs again further on
(`Text.find_append_left`).

The depth is exact as long as the 16-bit counter does not wrap, that is for fewer than `32768`
slashes; `pathDepthLoop_eq` is the loop invariant behind it.
-/

namespace FusePosix

/-- A path component: a name that can be one directory entry. -/
structure Component where
  /-- The name. -/
  text : Str
  /-- A name is not empty. -/
  ne_nil : text ≠ []
  /-- A name does not contain the separator. -/
  slash_notMem : '/' ∉ text
  /-- A name does not contain the string terminator. -/
  nul_notMem : '\x00' ∉ text

/-- The components behind their slashes. -/
def pathBody (cs : List Component) : Str :=
  cs.flatMap fun c ↦ '/' :: c.text

/-- The path `/c1/.../ck`, with or without one more slash. -/
def mkPath (cs : List Component) (trailing : Bool) : Str :=
  pathBody cs ++ if trailing then ['/'] else []

@[simp] theorem pathBody_nil : pathBody [] = [] := rfl

@[simp] theorem pathBody_cons (c : Component) (cs : List Component) :
    pathBody (c :: cs) = '/' :: (c.text ++ pathBody cs) := rfl

@[simp] theorem pathBody_append (cs ds : List Component) :
    pathBody (cs ++ ds) = pathBody cs ++ pathBody ds :=
  List.flatMap_append

/-- Only a path without components has an empty body. -/
theorem pathBody_ne_nil {cs : List Component} (h : cs ≠ []) : pathBody cs ≠ [] := by
  cases cs with
  | nil => exact absurd rfl h
  | cons c cs => simp

/-- The body ends with a character of its last component. -/
theorem getLast?_pathBody_ne {cs : List Component} (h : cs ≠ []) :
    (pathBody cs).getLast? ≠ some '/' := by
  obtain ⟨ds, c, rfl⟩ := cs.eq_nil_or_concat.resolve_left h
  have hlast : (pathBody (ds ++ [c])).getLast? = some (c.text.getLast c.ne_nil) := by
    simp [List.getLast?_append, List.getLast?_cons, List.getLast?_eq_some_getLast c.ne_nil]
  rw [List.concat_eq_append, hlast]
  intro hc
  exact c.slash_notMem (Option.some.inj hc ▸ List.getLast_mem c.ne_nil)

theorem nul_notMem_mkPath (cs : List Component) (trailing : Bool) :
    '\x00' ∉ mkPath cs trailing := by
  have hbody : '\x00' ∉ pathBody cs := by
    simp only [pathBody, List.mem_flatMap, List.mem_cons, not_exists, not_and, not_or]
    exact fun c _ ↦ ⟨by decide, c.nul_notMem⟩
  cases trailing <;> simp [mkPath, hbody]

theorem count_pathBody (cs : List Component) : (pathBody cs).count '/' = cs.length := by
  induction cs with
  | nil => rfl
  | cons c cs ih =>
    have hc : c.text.count '/' = 0 := List.count_eq_zero.2 c.slash_notMem
    rw [pathBody_cons, List.count_cons_self, List.count_append, hc, ih, List.length_cons]
    omega

/-! ### Depth -/

@[simp] theorem charAt_append_cons (a b : Str) (c : Char) :
    charAt (a ++ c :: b) a.length = .ok c := by
  have hneg : ¬ (a.length : ℤ) < 0 := by omega
  simp [charAt, hneg]

@[simp] theorem charAt_length (a : Str) : charAt a a.length = .ok '\x00' := by
  have hneg : ¬ (a.length : ℤ) < 0 := by omega
  simp [charAt, hneg]

/-- The counter holds a count below `32768` exactly. -/
theorem toInt_int16_ofNat {n : ℕ} (h : n < 32768) : (Int16.ofNat n).toInt = n := by
  rw [Int16.toInt_ofNat_of_lt (by simpa using h)]

/-- **The loop invariant.** Behind a prefix `a` the counter holds its number of tokens, the base
pointer its number of other characters and `size` its length, so the character in view is the next
one; with enough turns left for the rest, the loop ends with the count of the whole path. -/
theorem pathDepthLoop_eq {path : Str} {token : Char} (htoken : token ≠ '\x00')
    (hnul : '\x00' ∉ path) (hcount : path.count token < 32768) :
    ∀ (b a : Str) (turns : ℕ), path = a ++ b → b.length < turns →
      pathDepthLoop path token turns (a.length - a.count token) (Int16.ofNat (a.count token))
        a.length = .ok (Int16.ofNat (path.count token), path.length) := by
  intro b
  -- over what is left of the path: its end is the terminating null, which ends the loop
  induction b with
  | nil =>
    intro a turns hpath hturns
    obtain ⟨turns, rfl⟩ := Nat.exists_eq_succ_of_ne_zero (by omega : turns ≠ 0)
    rw [List.append_nil] at hpath
    subst hpath
    have hle : path.count token ≤ path.length := List.count_le_length
    have hview : ((path.length - path.count token : ℕ) : ℤ) +
        (Int16.ofNat (path.count token)).toInt = path.length := by
      rw [toInt_int16_ofNat hcount]
      omega
    rw [pathDepthLoop, hview, charAt_length, ok_bind, if_pos rfl, pure_eq_ok]
  | cons c b ih =>
    intro a turns hpath hturns
    obtain ⟨turns, rfl⟩ := Nat.exists_eq_succ_of_ne_zero (by omega : turns ≠ 0)
    have hac : a.count token ≤ path.count token := by
      rw [hpath, List.count_append]
      omega
    have hle : a.count token ≤ a.length := List.count_le_length
    have hview : ((a.length - a.count token : ℕ) : ℤ) +
        (Int16.ofNat (a.count token)).toInt = a.length := by
      rw [toInt_int16_ofNat (by omega)]
      omega
    have hc : c ≠ '\x00' := fun e ↦ hnul (by simp [hpath, e])
    have hnext := ih (a ++ [c]) turns (by simp [hpath]) (by simpa using hturns)
    rw [pathDepthLoop, hview]
    conv_lhs => rw [hpath]
    rw [charAt_append_cons, ok_bind, ← hpath, if_neg hc]
    -- a token moves the counter, any other character the base pointer; both bring the next one into
    -- view
    rcases eq_or_ne c token with rfl | htok
    · rw [if_pos rfl, ← hnext]
      simp only [List.length_append, List.count_append, List.count_singleton_self,
        List.length_singleton, Nat.add_sub_add_right]
      rw [show Int16.ofNat (a.count c + 1) = Int16.ofNat (a.count c) + 1 from
        Int16.ofNat_add _ _]
    · have hcount0 : [c].count token = 0 := by simp [htok]
      rw [if_neg htok, ← hnext]
      simp only [List.length_append, List.count_append, hcount0, List.length_singleton,
        Nat.add_zero]
      rw [show a.length + 1 - a.count token = a.length - a.count token + 1 by omega]

/-- Only the two root paths are root paths. -/
theorem isRootPath_mkPath {cs : List Component} (h : cs ≠ []) (trailing : Bool) :
    isRootPath (mkPath cs trailing) = false := by
  obtain ⟨c, ds, rfl⟩ := List.exists_cons_of_ne_nil h
  obtain ⟨x, t, hc⟩ := List.exists_cons_of_ne_nil c.ne_nil
  have hx : x ≠ '/' := fun e ↦ c.slash_notMem (by simp [hc, e])
  simp [isRootPath, rucioRootPath, mkPath, hc, hx]

/-- The character before the terminator is a slash exactly if one was put there. -/
theorem charAt_last_mkPath {cs : List Component} (h : cs ≠ []) (trailing : Bool) :
    ∃ last, charAt (mkPath cs trailing) ((mkPath cs trailing).length - 1 : ℤ) = .ok last ∧
      (last = '/' ↔ trailing = true) := by
  cases trailing with
  | true =>
    refine ⟨'/', ?_, by simp⟩
    have hlen : ((pathBody cs ++ ['/']).length : ℤ) - 1 = (pathBody cs).length := by simp
    rw [mkPath, if_pos rfl, hlen, charAt_append_cons]
  | false =>
    have hne := pathBody_ne_nil h
    obtain ⟨a, x, hbody⟩ := (pathBody cs).eq_nil_or_concat.resolve_left hne
    rw [List.concat_eq_append] at hbody
    have hx : x ≠ '/' := by
      intro e
      have hlast := getLast?_pathBody_ne h
      simp [hbody, e] at hlast
    refine ⟨x, ?_, by simpa using hx⟩
    have hlen : ((a ++ [x]).length : ℤ) - 1 = a.length := by simp
    simp only [mkPath, Bool.false_eq_true, if_false, List.append_nil, hbody]
    rw [hlen, charAt_append_cons]

theorem count_mkPath (cs : List Component) (trailing : Bool) :
    (mkPath cs trailing).count '/' = cs.length + if trailing then 1 else 0 := by
  cases trailing <;> simp [mkPath, count_pathBody]

/-- **Depth is the number of components.** -/
theorem pathDepth_mkPath {cs : List Component} (h : cs ≠ []) (trailing : Bool)
    (hcount : (mkPath cs trailing).count '/' < 32768) :
    pathDepth (mkPath cs trailing) = .ok cs.length := by
  have hturns : (mkPath cs trailing).length < pathDepthTurns (mkPath cs trailing) := by
    rw [pathDepthTurns]
    omega
  have hloop : pathDepthLoop (mkPath cs trailing) '/' (pathDepthTurns (mkPath cs trailing)) 0 0 0 =
      .ok (Int16.ofNat ((mkPath cs trailing).count '/'), (mkPath cs trailing).length) :=
    pathDepthLoop_eq (by decide) (nul_notMem_mkPath cs trailing) hcount
      (mkPath cs trailing) [] _ rfl hturns
  obtain ⟨last, hlast, hiff⟩ := charAt_last_mkPath h trailing
  simp only [pathDepth, isRootPath_mkPath h, hloop, ok_bind, hlast, pure_eq_ok,
    Bool.false_eq_true, if_false]
  rw [count_mkPath] at hcount ⊢
  cases trailing with
  | false =>
    have hne : last ≠ '/' := fun e ↦ absurd (hiff.1 e) (by decide)
    rw [if_neg hne, toInt_int16_ofNat (by simpa using hcount)]
    simp
  | true =>
    have hsub : Int16.ofNat (cs.length + 1) - 1 = Int16.ofNat cs.length := by
      rw [Int16.ofNat_add]
      exact Int16.add_sub_cancel _ 1
    have hlt : cs.length < 32768 := by
      simp only [if_true] at hcount
      omega
    rw [if_pos (hiff.2 rfl), if_pos rfl, hsub, toInt_int16_ofNat hlt]

/-! ### Components -/

/-- What stands before the first slash is kept. -/
theorem cutAtSlash_append {a : Str} (h : '/' ∉ a) (cs : List Component) (trailing : Bool) :
    cutAtSlash (a ++ mkPath cs trailing) = a := by
  have hcut : ∀ b : Str, cutAtSlash (a ++ '/' :: b) = a := by
    intro b
    rw [cutAtSlash, Text.idxOf?_append_cons h]
    exact Text.eraseAt_length_self a _
  cases cs with
  | cons c cs => exact hcut _
  | nil =>
    cases trailing with
    | true => exact hcut []
    | false =>
      have hnone : a.idxOf? '/' = none := List.idxOf?_eq_none_iff.2 h
      simp [mkPath, cutAtSlash, hnone]

/-- Removing the root path removes the leading slash. -/
theorem removeRootPath_mkPath (c : Component) (cs : List Component) (trailing : Bool) :
    removeRootPath (mkPath (c :: cs) trailing) = c.text ++ mkPath cs trailing := by
  have hshape : mkPath (c :: cs) trailing = ['/'] ++ (c.text ++ mkPath cs trailing) := by
    simp [mkPath]
  rw [removeRootPath, removeSubstring, rucioRootPath, hshape, Text.find_append_left]
  exact Text.eraseAt_zero _ _

/-- **The server is the first component.** -/
theorem extractServerName_mkPath (c : Component) (cs : List Component) (trailing : Bool) :
    extractServerName (mkPath (c :: cs) trailing) = c.text := by
  rw [extractServerName, removeRootPath_mkPath, cutAtSlash_append c.slash_notMem]

/-- The trailing slash goes, if there is one. -/
theorem removeTrailingToken_append {a : Str} (hne : a ≠ []) (hlast : a.getLast? ≠ some '/')
    (trailing : Bool) :
    removeTrailingToken (a ++ if trailing then ['/'] else []) = .ok a := by
  cases trailing with
  | true =>
    have hpos : 0 < a.length := List.length_pos_iff.2 hne
    have hlen : (a ++ ['/']).length - 1 = a.length := by simp
    simp only [if_true, removeTrailingToken, hlen, hpos, substr_append]
    simp
  | false =>
    obtain ⟨b, x, rfl⟩ := a.eq_nil_or_concat.resolve_left hne
    have hx : x ≠ '/' := by simpa using hlast
    have hlen : (b ++ [x]).length - 1 = b.length := by simp
    simp only [List.concat_eq_append, Bool.false_eq_true, if_false, List.append_nil,
      removeTrailingToken, hlen, substr_append]
    simp [hx]

/-- A component in front of a body still ends with a character of a component. -/
theorem getLast?_append_pathBody_ne (c : Component) (cs : List Component) :
    (c.text ++ pathBody cs).getLast? ≠ some '/' := by
  have h := getLast?_pathBody_ne (List.cons_ne_nil c cs)
  have hne : c.text ++ pathBody cs ≠ [] := by simp [c.ne_nil]
  rwa [pathBody_cons, List.getLast?_cons, List.getLast?_eq_some_getLast hne, Option.getD_some,
    ← List.getLast?_eq_some_getLast hne] at h

/-- The relative path without its trailing slash. -/
theorem relative_mkPath (c : Component) (cs : List Component) (trailing : Bool) :
    removeTrailingToken (removeRootPath (mkPath (c :: cs) trailing)) =
      .ok (c.text ++ pathBody cs) := by
  rw [removeRootPath_mkPath, mkPath, ← List.append_assoc]
  exact removeTrailingToken_append (by simp [c.ne_nil]) (getLast?_append_pathBody_ne c cs) trailing

/-- **The scope is the second component**: the first occurrence of `server/` is the leading one. -/
theorem extractScope_mkPath (c d : Component) (cs : List Component) (trailing : Bool) :
    extractScope (mkPath (c :: d :: cs) trailing) = .ok d.text := by
  have hshape : c.text ++ pathBody (d :: cs) = (c.text ++ ['/']) ++ (d.text ++ pathBody cs) := by
    simp
  have hcut : cutAtSlash (d.text ++ pathBody cs) = d.text := by
    have h := cutAtSlash_append d.slash_notMem cs false
    rwa [mkPath, if_neg (by decide), List.append_nil] at h
  have hfirst : removeSubstring (c.text ++ pathBody (d :: cs)) (c.text ++ ['/']) =
      d.text ++ pathBody cs := by
    rw [hshape, removeSubstring, Text.find_append_left]
    simp [Text.eraseAt_zero]
  rw [extractScope, relative_mkPath, extractServerName_mkPath, ok_bind, hfirst, hcut, pure_eq_ok]

/-- At depth one the scope function returns as well. -/
theorem exists_extractScope_mkPath (c : Component) (cs : List Component) (trailing : Bool) :
    ∃ scope, extractScope (mkPath (c :: cs) trailing) = .ok scope := by
  rw [extractScope, relative_mkPath]
  exact ⟨_, rfl⟩

/-- **The name is the last component.** -/
theorem extractName_mkPath (cs : List Component) (c : Component) (trailing : Bool) :
    extractName (mkPath (cs ++ [c]) trailing) = .ok c.text := by
  have hne : cs ++ [c] ≠ [] := by simp
  have htrail : removeTrailingToken (mkPath (cs ++ [c]) trailing) =
      .ok (pathBody cs ++ '/' :: c.text) := by
    have h := removeTrailingToken_append (pathBody_ne_nil hne) (getLast?_pathBody_ne hne) trailing
    simpa [mkPath] using h
  rw [extractName, htrail, ok_bind, Text.findLast_append_cons c.slash_notMem]
  simp [Text.eraseAt_zero]

/-- **The DID is scope and name**, for a path with at least two components. -/
theorem getDid_mkPath (c d : Component) (cs : List Component) (trailing : Bool) :
    getDid (mkPath (c :: d :: cs) trailing) =
      .ok (d.text ++ ':' :: ((c :: d :: cs).getLast (by simp)).text) := by
  have hname :=
    extractName_mkPath (c :: d :: cs).dropLast ((c :: d :: cs).getLast (by simp)) trailing
  rw [List.dropLast_append_getLast] at hname
  simp [getDid, extractScope_mkPath, hname]

/-! ### The whole algebra -/

/-- **Path algebra.** On a path `/c1/.../ck` with `k ≥ 1` components and fewer than `32768` slashes,
with or without a trailing one, the dispatching functions return the depth `k`, the first, the
second and the last component; none of them throws. -/
theorem path_algebra {cs : List Component} (hcs : cs ≠ []) (trailing : Bool)
    (hcount : (mkPath cs trailing).count '/' < 32768) :
    pathDepth (mkPath cs trailing) = .ok cs.length ∧
    isRootPath (mkPath cs trailing) = false ∧ isRootPath ['/'] = true ∧
    isServerMountpoint (mkPath cs trailing) = .ok (decide (cs.length = 1)) ∧
    isMainScope (mkPath cs trailing) = .ok (decide (cs.length = 2)) ∧
    extractServerName (mkPath cs trailing) = (cs.head hcs).text ∧
    extractName (mkPath cs trailing) = .ok (cs.getLast hcs).text ∧
    (∀ h : 2 ≤ cs.length,
      extractScope (mkPath cs trailing) = .ok cs[1].text ∧
      getDid (mkPath cs trailing) = .ok (cs[1].text ++ ':' :: (cs.getLast hcs).text)) ∧
    (∃ scope, extractScope (mkPath cs trailing) = .ok scope) ∧
    ∃ did, getDid (mkPath cs trailing) = .ok did := by
  have hdepth := pathDepth_mkPath hcs trailing hcount
  have hname := extractName_mkPath cs.dropLast (cs.getLast hcs) trailing
  rw [List.dropLast_append_getLast] at hname
  obtain ⟨c, ds, rfl⟩ := List.exists_cons_of_ne_nil hcs
  obtain ⟨scope, hscope⟩ := exists_extractScope_mkPath c ds trailing
  have hserver : isServerMountpoint (mkPath (c :: ds) trailing) =
      .ok (decide ((c :: ds).length = 1)) := by
    rw [isServerMountpoint, hdepth, ok_bind, pure_eq_ok, Except.ok.injEq, Bool.eq_iff_iff,
      beq_iff_eq, decide_eq_true_eq]
    omega
  have hmain : isMainScope (mkPath (c :: ds) trailing) = .ok (decide ((c :: ds).length = 2)) := by
    rw [isMainScope, hdepth, ok_bind, pure_eq_ok, Except.ok.injEq, Bool.eq_iff_iff,
      beq_iff_eq, decide_eq_true_eq]
    omega
  refine ⟨hdepth, isRootPath_mkPath hcs trailing, rfl, hserver, hmain,
    extractServerName_mkPath c ds trailing, hname, ?_, ⟨scope, hscope⟩, ?_⟩
  · intro h
    have hds : ds ≠ [] := by
      rintro rfl
      simp at h
    obtain ⟨d, es, rfl⟩ := List.exists_cons_of_ne_nil hds
    exact ⟨extractScope_mkPath c d es trailing, getDid_mkPath c d es trailing⟩
  · exact ⟨_, by rw [getDid, hscope, hname]; rfl⟩

/-- The algebra at `/ab/b/ab/`, whose last component repeats its first. -/
theorem path_algebra_repeated_server :
    pathDepth ['/', 'a', 'b', '/', 'b', '/', 'a', 'b', '/'] = .ok 3 ∧
    extractServerName ['/', 'a', 'b', '/', 'b', '/', 'a', 'b', '/'] = ['a', 'b'] ∧
    getDid ['/', 'a', 'b', '/', 'b', '/', 'a', 'b', '/'] = .ok ['b', ':', 'a', 'b'] := by
  have h := @path_algebra [⟨['a', 'b'], by decide, by decide, by decide⟩,
    ⟨['b'], by decide, by decide, by decide⟩, ⟨['a', 'b'], by decide, by decide, by decide⟩]
    (by simp) true (by decide)
  exact ⟨h.1, h.2.2.2.2.2.1, (h.2.2.2.2.2.2.2.1 (by decide)).2⟩

end FusePosix
