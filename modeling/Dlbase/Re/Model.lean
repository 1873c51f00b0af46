import Dlbase.Lib.Exec
import Dlbase.String.Split

/-!
# The regular expressions of `dl_re.c`

The library that compiles and matches is a parameter.  `dl_str_replace_re` and `dl_str_capture_re`
search on from the end of each match; the offset from which they search is an `int`.  All
allocations succeed, but there is no object of 2⁶³ bytes.
-/

namespace Dlbase.Re

open Cmem DlString

/-- What `pcre2_match` returns, with the pairs of offsets that it leaves in the vector. -/
inductive Match where
  /-- A match and its groups. -/
  | found (pair : Nat × Nat) (groups : List (Nat × Nat))
  /-- `PCRE2_ERROR_NOMATCH`. -/
  | noMatch
  /-- Another error, or zero. -/
  | error
deriving DecidableEq, Repr

/-- The library. -/
structure Pcre2 where
  /-- A compiled pattern. -/
  Code : Type
  /-- `pcre2_compile`. -/
  compile : List UInt8 → Option Code
  /-- `pcre2_match` of a subject from an offset on. -/
  «match» : Code → List UInt8 → Nat → Match

/-- The pattern that is searched for: the one that is given, or else it is compiled. -/
def Pcre2.code (P : Pcre2) (pattern : List UInt8) (rep : Option P.Code) : Option P.Code :=
  match rep with
  | some re => some re
  | none => P.compile pattern

/-- An `int` as a `size_t`. -/
def size (n : Int) : Nat := (n % 2 ^ 64).toNat

/-! ## Replacing -/

/-- Where a loop that searches has come to: the list, the length of the result and the offset. -/
structure State where
  /-- What is in front of the matches. -/
  list : DlList Str
  /-- The length of the result. -/
  total : BitVec 32
  /-- From where it searches. -/
  offset : Int

/-- `s1 + offset`, and a length. -/
def str (s1 : List UInt8) (offset : Int) (len : Nat) : Exec Str :=
  if offset < 0 ∨ (s1.length : Int) < offset then Exec.undef
  else .ok ⟨s1.drop offset.toNat, len⟩

/-- The loop of `dl_str_replace_re`, and whether it has ended normally. -/
def replaceLoop (m : Nat → Match) (s1 : List UInt8) (len3 : Nat) :
    Nat → State → Exec (State × Bool)
  | 0, _ => Exec.timeout
  | fuel + 1, s =>
    match m (size s.offset) with
    | .found (o₀, o₁) _ => do
      let x ← str s1 s.offset (Pool.subSize o₀ (size s.offset))
      replaceLoop m s1 len3 fuel
        ⟨s.list.push x, s.total + BitVec.ofNat 32 (x.len + len3), toInt o₁⟩
    | .noMatch => do
      let x ← str s1 s.offset (Pool.subSize s1.length (size s.offset))
      .ok (⟨s.list.push x, s.total + BitVec.ofNat 32 x.len, s.offset⟩, true)
    | .error => .ok (s, false)

/-- What `dl_str_replace_re` copies to the result. -/
def copyResult (list : DlList Str) (total : BitVec 32) (s3 : List UInt8) : Exec Str := do
  let data ← copyParts s3 list.parts
  if data.length > size total.toInt ∨ 2 ^ 63 ≤ size total.toInt then Exec.undef
  else pure ⟨data, size total.toInt⟩

/-- `dl_str_replace_re`. -/
def strReplaceRe (P : Pcre2) (fuel : Nat) (s1 pattern s3 : List UInt8) (rep : Option P.Code) :
    Exec (Option Str) :=
  if pattern = [] then .ok (some ⟨s1, s1.length⟩)
  else
    match P.code pattern rep with
    | none => .ok none
    | some re => do
      let (s, normal) ← replaceLoop (P.match re s1) s1 s3.length fuel ⟨DlList.create 1, 0, 0⟩
      if normal then do
        let x ← copyResult s.list s.total s3
        pure (some x)
      else pure none

/-! ## Capturing -/

/-- A captured string: where it begins and its length, both of type `size_t`. -/
def capture (pair : Nat × Nat) : Nat × Nat := (pair.1, Pool.subSize pair.2 pair.1)

/-- The strings that a match has captured. -/
def captures (pair : Nat × Nat) (groups : List (Nat × Nat)) : DlList (Nat × Nat) :=
  ((pair :: groups).map capture).foldl DlList.push (DlList.create 1)

/-- The loop of `dl_str_capture_re`. -/
def captureLoop (m : Nat → Match) :
    Nat → DlList (DlList (Nat × Nat)) → Int → Exec (DlList (DlList (Nat × Nat)))
  | 0, _, _ => Exec.timeout
  | fuel + 1, list, offset =>
    match m (size offset) with
    | .found (o₀, o₁) groups =>
      captureLoop m fuel (list.push (captures (o₀, o₁) groups)) (toInt o₁)
    | .noMatch => .ok list
    | .error => .ok list

/-- The list that `dl_str_capture_re` returns: of all matches or of the first one. -/
inductive Captured where
  /-- In mode `DL_CAPTURE_ALL`. -/
  | all (list : DlList (DlList (Nat × Nat)))
  /-- In the other mode. -/
  | once (list : DlList (Nat × Nat))

/-- `dl_str_capture_re`. -/
def strCaptureRe (P : Pcre2) (fuel : Nat) (s1 pattern : List UInt8) (rep : Option P.Code)
    (all : Bool) : Exec (Option Captured) :=
  match P.code pattern rep with
  | none => .ok none
  | some re =>
    if all then do
      let list ← captureLoop (P.match re s1) fuel (DlList.create 1) 0
      pure (some (.all list))
    else
      match P.match re s1 0 with
      | .found pair groups => .ok (some (.once (captures pair groups)))
      | .noMatch => .ok (some (.once (DlList.create 1)))
      | .error => .ok (some (.once (DlList.create 1)))

end Dlbase.Re
