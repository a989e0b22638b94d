import FusePosix.Basic
import FusePosix.Lib.Table
import Mathlib.Algebra.Group.Int.Defs
import Mathlib.Algebra.Group.Nat.Defs

/-!
# Parsing DID records

A response body lists one record a line, each a JSON object without nested objects. libcurl delivers
the body in chunks, and the code parses chunk by chunk: `splitDids` cuts a chunk into lines, and
`coherentizeDids` decides by the first and the last character of a line whether it is a whole
record, the beginning or middle of one (kept in the process-wide `did_string_remainder`), or the
end of one (put behind that remainder). `mapDid` then reads the fields of a record and
`structurizeDid` or `structurizeContainerDid` fills in a `RucioDid`.

The remainder is a global variable of the program, so these functions take it and return it.
Reading `back()` of an empty line is left undefined by the language; it is taken to be some
character other than a brace, which sends the empty line to the remainder, where it changes
nothing.

`RucioDid` is default-initialised, so a field the parser does not assign stays indeterminate: that
is the `none` of `type` and `size`.
-/

namespace FusePosix

/-! ### Lines and remainders -/

/-- Look at one line: the remainder afterwards, and what is left of the line. -/
def coherentizeDids (remainder didString : Str) : Str × Str :=
  if didString.getLast? ≠ some '}' then
    (if remainder = [] then didString else remainder ++ didString, [])
  else if didString.head? ≠ some '{' then ([], remainder ++ didString)
  else (remainder, didString)

/-- The loop of `split_dids` over the lines of a chunk. -/
def splitDidsLoop (remainder : Str) (didStrings : List Str) : List Str → Str × List Str
  | [] => (remainder, didStrings)
  | buffer :: lines =>
    let seen := coherentizeDids remainder buffer
    splitDidsLoop seen.1 (if seen.2 = [] then didStrings else didStrings ++ [seen.2]) lines

/-- Split a chunk into records, appending them to `didStrings`. -/
def splitDids (remainder line : Str) (didStrings : List Str) : Str × List Str :=
  splitDidsLoop remainder didStrings (Text.getlines '\n' line)

/-- Split the chunks of a body, one call a chunk. -/
def splitDidsAll : Str → List Str → List Str → Str × List Str
  | remainder, [], didStrings => (remainder, didStrings)
  | remainder, line :: payload, didStrings =>
    splitDidsAll (splitDids remainder line didStrings).1 payload
      (splitDids remainder line didStrings).2

/-! ### Fields of a record -/

/-- Store the values of the odd positions under the keys of the even ones. -/
def pairUp : List Str → Table Str Str → Except Fault (Table Str Str)
  | [], didMap => return didMap
  -- `key_values[i+1]` behind the last element
  | [_], _ => .error .undefined
  | key :: value :: keyValues, didMap => pairUp keyValues (didMap.insert key value)

/-- The fields of a record: blanks, braces and quotes go, colons and commas separate. -/
def mapDid (sdid : Str) : Except Fault (Table Str Str) :=
  let sdid := sdid.filter fun c ↦ !(c == ' ' || c == '}' || c == '{' || c == '"')
  let sdid := sdid.map fun c ↦ if c = ':' then ' ' else c
  let sdid := sdid.map fun c ↦ if c = ',' then ' ' else c
  pairUp (Text.getlines ' ' sdid) Table.empty

/-- A field, as `operator[]` reads it: a missing one is the empty string. -/
def field (didMap : Table Str Str) (key : Str) : Str :=
  (didMap.find key).getD []

/-- The value of a digit string read from the left. -/
def digitsValue (digits : Str) : ℕ :=
  digits.foldl (fun n c ↦ 10 * n + (c.toNat - '0'.toNat)) 0

/-- The blanks `strtol` skips. -/
def isSpaceChar (c : Char) : Bool :=
  c == ' ' || ('\t'.toNat ≤ c.toNat && c.toNat ≤ '\r'.toNat)

/-- `std::atoi`: `strtol` in base ten, with its saturation at 64 bits, cut down to 32 bits. -/
def atoi (s : Str) : ℤ :=
  let s := s.dropWhile isSpaceChar
  let (negative, s) := match s with
    | '-' :: s => (true, s)
    | '+' :: s => (false, s)
    | s => (false, s)
  let n : ℤ := digitsValue (s.takeWhile Char.isDigit)
  let long := if negative then max (-n) (-2 ^ 63) else min n (2 ^ 63 - 1)
  long.bmod (2 ^ 32)

/-! ### DIDs -/

/-- The kinds of DIDs. -/
inductive RucioDataType where
  | rucioFile
  | rucioContainer
  | rucioDataset
  deriving DecidableEq, Repr

/-- A DID as a listing describes it. -/
structure RucioDid where
  scope : Str
  /-- `none` as long as nothing is assigned. -/
  type : Option RucioDataType
  name : Str
  parent : Str
  /-- `none` as long as nothing is assigned. -/
  size : Option ℤ
  level : ℤ
  deriving DecidableEq, Repr

/-- The type and the size both structurizers read off the fields. -/
def typeAndSize (mappedDid : Table Str Str) : Option RucioDataType × Option ℤ :=
  if field mappedDid "type".toList = "FILE".toList then
    let bytes := field mappedDid "bytes".toList
    (some .rucioFile, some (if bytes = "null".toList then 0 else atoi bytes))
  else if field mappedDid "type".toList = "CONTAINER".toList then (some .rucioContainer, none)
  else if field mappedDid "type".toList = "DATASET".toList then (some .rucioDataset, none)
  else (none, none)

/-- The DID `structurize_did` fills in. -/
def didOfMap (mappedDid : Table Str Str) : RucioDid where
  scope := field mappedDid "scope".toList
  type := (typeAndSize mappedDid).1
  name := field mappedDid "name".toList
  parent := field mappedDid "parent".toList
  size := (typeAndSize mappedDid).2
  level := atoi (field mappedDid "level".toList)

/-- The DID `structurize_container_did` fills in: no parent, level zero. -/
def containerDidOfMap (mappedDid : Table Str Str) : RucioDid where
  scope := field mappedDid "scope".toList
  type := (typeAndSize mappedDid).1
  name := field mappedDid "name".toList
  parent := []
  size := (typeAndSize mappedDid).2
  level := 0

/-- The loop of both structurizers over the records of a chunk. -/
def fillDids (mapDid : Str → Except Fault (Table Str Str)) (fill : Table Str Str → RucioDid) :
    List Str → List RucioDid → Except Fault (List RucioDid)
  | [], target => return target
  | sdid :: didStrings, target => do
    let mappedDid ← mapDid sdid
    fillDids mapDid fill didStrings (target ++ [fill mappedDid])

/-- Parse one chunk with the given record reader, appending to `target`. -/
def structurizeWith (mapDid : Str → Except Fault (Table Str Str)) (fill : Table Str Str → RucioDid)
    (remainder didStr : Str) (target : List RucioDid) : Except Fault (Str × List RucioDid) := do
  let strings := splitDids remainder didStr []
  return (strings.1, ← fillDids mapDid fill strings.2 target)

/-- Parse the chunks of a body, one call a chunk. -/
def structurizeAll (structurize : Str → Str → List RucioDid → Except Fault (Str × List RucioDid)) :
    Str → List Str → List RucioDid → Except Fault (Str × List RucioDid)
  | remainder, [], target => return (remainder, target)
  | remainder, line :: payload, target => do
    let parsed ← structurize remainder line target
    structurizeAll structurize parsed.1 payload parsed.2

/-- Parse one chunk of a scope listing. -/
def structurizeDid : Str → Str → List RucioDid → Except Fault (Str × List RucioDid) :=
  structurizeWith mapDid didOfMap

/-- Parse one chunk of a container listing. -/
def structurizeContainerDid : Str → Str → List RucioDid → Except Fault (Str × List RucioDid) :=
  structurizeWith mapDid containerDidOfMap

end FusePosix
