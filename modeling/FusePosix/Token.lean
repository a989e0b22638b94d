import FusePosix.Basic
import Mathlib.Tactic.Common

/-!
# Reading a token

A token of an OIDC login is a JWT: three parts with dots between them, the middle one a JSON object
in the URL-safe base64 alphabet. `getTokenExpiry` decodes that part and hands it to the JSON
library, which is a parameter here.

The accumulator of the decoder is a signed 32-bit `int`; it is taken to wrap around.
-/

namespace FusePosix

/-- The letters of the base64 alphabet, in the order of their values. -/
def base64Chars : Str :=
  ("ABCDEFGHIJKLMNOPQRSTUVWXYZ" ++ "abcdefghijklmnopqrstuvwxyz" ++ "0123456789+/").toList

/-- The decoding loop: `val` collects six bits a letter, and `valb` is the position of the next byte
in it, negative while that byte is incomplete. It stops at the first letter outside of the
alphabet. -/
def base64urlDecodeLoop : BitVec 32 → ℤ → Str → Str
  | _, _, [] => []
  | val, valb, c :: input =>
    match base64Chars.idxOf? c with
    | none => []
    | some t =>
      let val := (val <<< 6) + BitVec.ofNat 32 t
      let valb := valb + 6
      if 0 ≤ valb then
        Char.ofNat ((val.sshiftRight valb.toNat) &&& 0xFF#32).toNat ::
          base64urlDecodeLoop val (valb - 8) input
      else base64urlDecodeLoop val valb input

/-- Fill up with `=` to a multiple of four. -/
def padBase64 (input : Str) : Str :=
  input ++ List.replicate ((4 - input.length % 4) % 4) '='

/-- Decode a text in the URL-safe alphabet. -/
def base64urlDecode (input : Str) : Str :=
  let input := input.map fun c ↦ if c = '-' then '+' else c
  let input := input.map fun c ↦ if c = '_' then '/' else c
  base64urlDecodeLoop 0 (-8) (padBase64 input)

/-- The expiry time of a token; `jsonExp` parses an object and reads its integer field `exp`. -/
def getTokenExpiry (jsonExp : Str → Except Fault ℤ) (jwt : Str) : Except Fault ℤ :=
  match jwt.idxOf? '.' with
  | none => .error .runtimeError
  | some firstDot =>
    match (jwt.drop (firstDot + 1)).idxOf? '.' with
    | none => .error .runtimeError
    | some length => jsonExp (base64urlDecode ((jwt.drop (firstDot + 1)).take length))

end FusePosix
