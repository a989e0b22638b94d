import FusePosix.Basic
import Mathlib.Tactic.Common

/-!
# The path functions

Every callback decides what a path stands for by these functions: how deep it is, which server and
scope it names and what its last component is. They are modelled with the positions and the
exceptions of the code:

* `pathDepth` moves a base pointer over ordinary characters and a 16-bit counter over tokens, so the
  character in view is always `s[i]`. The loop reads memory by position (`charAt`), the counter
  wraps, and the turns are bounded by the number of distinct pointer and counter pairs: a loop that
  is still running after that many turns has repeated itself and never ends.
* `removeTrailingToken` computes `length() - 1` in an unsigned type. The empty string makes it wrap,
  and the `substr` that follows throws.

What these functions compute on well-formed paths is the subject of
`FusePosix.Utils.PathAlgebra`.
-/

namespace FusePosix

/-- The root of the namespace, `rucio_root_path`. -/
def rucioRootPath : Str := ['/']

/-- Character `k` of a C string, the terminator included; no other position may be read. -/
def charAt (path : Str) (k : ℤ) : Except Fault Char :=
  if k < 0 then .error .undefined
  else deref (path ++ ['\x00'])[k.toNat]?

/-- Whether the path is the root path, with or without a further slash. -/
def isRootPath (path : Str) : Bool :=
  path == rucioRootPath || path == rucioRootPath ++ ['/']

/-! ### Depth -/

/-- The counting loop of `path_depth`, entered with base pointer `s`, counter `i` and `size`. -/
def pathDepthLoop (path : Str) (token : Char) : ℕ → ℕ → Int16 → ℕ → Except Fault (Int16 × ℕ)
  | 0, _, _, _ => .error .diverges
  | turns + 1, s, i, size => do
    let c ← charAt path (s + i.toInt)
    if c = '\x00' then return (i, size)
    else if c = token then pathDepthLoop path token turns s (i + 1) (size + 1)
    else pathDepthLoop path token turns (s + 1) i (size + 1)

/-- A bound on the turns of a loop that ends: as long as every access stays inside of the string
there are fewer pairs of a base pointer and a counter than this. -/
def pathDepthTurns (path : Str) : ℕ :=
  (path.length + 32769) * 65536 + 1

/-- The depth of a path: 0 for the root, else the number of tokens, one less if the path ends with
one. -/
def pathDepth (path : Str) (token : Char := '/') : Except Fault ℤ :=
  if isRootPath path then return 0
  else do
    let (i, size) ← pathDepthLoop path token (pathDepthTurns path) 0 0 0
    -- `size` is unsigned, but `size - 1` is an index: an empty path reads in front of the string
    let last ← charAt path ((size : ℤ) - 1)
    return if last = token then (i - 1).toInt else i.toInt

/-- Whether the path is `/server` or `/server/`. -/
def isServerMountpoint (path : Str) : Except Fault Bool := do
  return (← pathDepth path) == 1

/-- Whether the path is `/server/scope` or `/server/scope/`. -/
def isMainScope (path : Str) : Except Fault Bool := do
  return (← pathDepth path) == 2

/-! ### Components -/

/-- `std::string::substr` from a position to the end. -/
def substr (s : Str) (pos : ℕ) : Except Fault Str :=
  if s.length < pos then .error .outOfRange else .ok (s.drop pos)

theorem substr_append (a b : Str) : substr (a ++ b) a.length = .ok b := by
  simp [substr]

/-- Drop the token at the end of the path, unless the path is that token only. -/
def removeTrailingToken (path : Str) (token : Str := ['/']) : Except Fault Str :=
  -- `length() - 1` of the empty string is the largest `size_t`: the test passes, `substr` throws
  if path.length = 0 then .error .outOfRange
  else if 0 < path.length - 1 then do
    let tail ← substr path (path.length - 1)
    return if tail = token then path.dropLast else path
  else return path

/-- Drop the first occurrence of a substring. -/
def removeSubstring (path subs : Str) : Str :=
  match Text.find subs path with
  | some pos => Text.eraseAt pos subs.length path
  | none => path

/-- The path relative to the mountpoint. -/
def removeRootPath (path : Str) : Str :=
  removeSubstring path rucioRootPath

/-- Drop the first slash and what follows. -/
def cutAtSlash (path : Str) : Str :=
  match path.idxOf? '/' with
  | some pos => Text.eraseAt pos path.length path
  | none => path

/-- The server a path belongs to. -/
def extractServerName (path : Str) : Str :=
  cutAtSlash (removeRootPath path)

/-- The scope a path belongs to. -/
def extractScope (path : Str) : Except Fault Str := do
  let relative ← removeTrailingToken (removeRootPath path)
  return cutAtSlash (removeSubstring relative (extractServerName path ++ ['/']))

/-- The last component of a path. -/
def extractName (path : Str) : Except Fault Str := do
  let path ← removeTrailingToken path
  match Text.findLast '/' path with
  | some pos => return Text.eraseAt 0 (pos + 1) path
  | none => return path

/-- Whether the last component of the path starts with a dot. -/
def isHidden (path : Str) : Except Fault Bool := do
  return (← extractName path).head? == some '.'

/-- Whether the last component of the path is one of the two names a Mac asks for. -/
def isMacSpecific (path : Str) : Except Fault Bool := do
  let currentDir ← extractName path
  return currentDir == "HEAD".toList || currentDir == "DCIM".toList

/-- The DID a path stands for, as `scope:name`. -/
def getDid (path : Str) : Except Fault Str := do
  return (← extractScope path) ++ [':'] ++ (← extractName path)

end FusePosix
