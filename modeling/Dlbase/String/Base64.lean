import Dlbase.Lib.Sextets
import Dlbase.String.Model

/-!
# Base64

The encoder and the decoder for the two alphabets, with the tables of the source.  What is encoded
or decoded is a list of bytes, and what is written to the data of `dst` is another; its length is
the new length of `dst`.  Neither function looks at how much room there is.
-/

namespace Dlbase.DlString

open Cmem

/-- `basis[i]` for an index of type `int`. -/
def entry (basis : List UInt8) (i : Int) : Exec UInt8 :=
  if i < 0 then Exec.undef
  else match basis[i.toNat]? with
    | none => Exec.undef
    | some x => .ok x

/-- An unsigned character as an index. -/
def index (c : UInt8) : Int := c.toNat

/-- A `char`, which is signed, as an index. -/
def charIndex (c : UInt8) : Int := c.toInt8.toInt

/-! ## Encoding -/

/-- `dl_encode_base64_internal`: what is written to `dst`. -/
def encodeBase64Internal (basis : List UInt8) (padding : Bool) : List UInt8 → Exec (List UInt8)
  | s₀ :: s₁ :: s₂ :: s => do
    let d₀ ← entry basis (index (s₀ >>> 2))
    let d₁ ← entry basis (index ((s₀ &&& 3) <<< 4 ||| s₁ >>> 4))
    let d₂ ← entry basis (index ((s₁ &&& 15) <<< 2 ||| s₂ >>> 6))
    let d₃ ← entry basis (index (s₂ &&& 63))
    let d ← encodeBase64Internal basis padding s
    pure (d₀ :: d₁ :: d₂ :: d₃ :: d)
  | [s₀, s₁] => do
    let d₀ ← entry basis (index (s₀ >>> 2))
    let d₁ ← entry basis (index ((s₀ &&& 3) <<< 4 ||| s₁ >>> 4))
    let d₂ ← entry basis (index ((s₁ &&& 15) <<< 2))
    pure ([d₀, d₁, d₂] ++ if padding then [ch '='] else [])
  | [s₀] => do
    let d₀ ← entry basis (index (s₀ >>> 2))
    let d₁ ← entry basis (index ((s₀ &&& 3) <<< 4))
    pure ([d₀, d₁] ++ if padding then [ch '=', ch '='] else [])
  | [] => pure []

/-- `basis64` of `dl_encode_base64`. -/
def encodeBasis : List UInt8 :=
  "ABCDEFGHIJKLMNOPQRSTUVWXYZabcdefghijklmnopqrstuvwxyz0123456789+/".toList.map ch

/-- `basis64` of `dl_encode_base64url`. -/
def encodeBasisUrl : List UInt8 :=
  "ABCDEFGHIJKLMNOPQRSTUVWXYZabcdefghijklmnopqrstuvwxyz0123456789-_".toList.map ch

/-- `dl_encode_base64`. -/
def encodeBase64 (src : List UInt8) (pad : Bool) : Exec (List UInt8) :=
  encodeBase64Internal encodeBasis pad src

/-- `dl_encode_base64url`. -/
def encodeBase64Url (src : List UInt8) : Exec (List UInt8) :=
  encodeBase64Internal encodeBasisUrl false src

/-- `base64_len` of a `size_t`. -/
def base64Len (n : UInt64) : UInt64 := (n * 4 / 3 + 3) &&& ~~~3

/-! ## Decoding -/

/-- The loop that looks for illegal characters: nothing if there is one, or else the number of
characters in front of the first `=`. -/
def legalLength (basis : List UInt8) : List UInt8 → Exec (Option Nat)
  | [] => .ok (some 0)
  | c :: s =>
    if c = ch '=' then .ok (some 0)
    else do
      let x ← entry basis (charIndex c)
      if x = 77 then pure none
      else do
        let len ← legalLength basis s
        pure (len.map (· + 1))

/-- The loop that converts four characters to three bytes, and the end behind it. -/
def decodeLoop (basis : List UInt8) : List UInt8 → Exec (List UInt8)
  | s₀ :: s₁ :: s₂ :: s₃ :: s => do
    let x₀ ← entry basis (index s₀)
    let x₁ ← entry basis (index s₁)
    let x₂ ← entry basis (index s₂)
    let x₃ ← entry basis (index s₃)
    let d ← decodeLoop basis s
    pure ((x₀ <<< 2 ||| x₁ >>> 4) :: (x₁ <<< 4 ||| x₂ >>> 2) :: (x₂ <<< 6 ||| x₃) :: d)
  | [s₀, s₁, s₂] => do
    let x₀ ← entry basis (index s₀)
    let x₁ ← entry basis (index s₁)
    let x₂ ← entry basis (index s₂)
    pure [x₀ <<< 2 ||| x₁ >>> 4, x₁ <<< 4 ||| x₂ >>> 2]
  | [s₀, s₁] => do
    let x₀ ← entry basis (index s₀)
    let x₁ ← entry basis (index s₁)
    pure [x₀ <<< 2 ||| x₁ >>> 4]
  | _ => pure []

/-- `dl_decode_base64_internal`: what is written to `dst`, or nothing if it returns `DL_ERROR`. -/
def decodeBase64Internal (basis src : List UInt8) : Exec (Option (List UInt8)) := do
  match ← legalLength basis src with
  | none => pure none
  | some len =>
    if len % 4 = 1 then pure none
    else do
      let d ← decodeLoop basis (src.take len)
      pure (some d)

/-- `basis64` of `dl_decode_base64`. -/
def decodeBasis : List UInt8 :=
  [77, 77, 77, 77, 77, 77, 77, 77, 77, 77, 77, 77, 77, 77, 77, 77,
   77, 77, 77, 77, 77, 77, 77, 77, 77, 77, 77, 77, 77, 77, 77, 77,
   77, 77, 77, 77, 77, 77, 77, 77, 77, 77, 77, 62, 77, 77, 77, 63,
   52, 53, 54, 55, 56, 57, 58, 59, 60, 61, 77, 77, 77, 77, 77, 77,
   77,  0,  1,  2,  3,  4,  5,  6,  7,  8,  9, 10, 11, 12, 13, 14,
   15, 16, 17, 18, 19, 20, 21, 22, 23, 24, 25, 77, 77, 77, 77, 77,
   77, 26, 27, 28, 29, 30, 31, 32, 33, 34, 35, 36, 37, 38, 39, 40,
   41, 42, 43, 44, 45, 46, 47, 48, 49, 50, 51, 77, 77, 77, 77, 77,
   77, 77, 77, 77, 77, 77, 77, 77, 77, 77, 77, 77, 77, 77, 77, 77,
   77, 77, 77, 77, 77, 77, 77, 77, 77, 77, 77, 77, 77, 77, 77, 77,
   77, 77, 77, 77, 77, 77, 77, 77, 77, 77, 77, 77, 77, 77, 77, 77,
   77, 77, 77, 77, 77, 77, 77, 77, 77, 77, 77, 77, 77, 77, 77, 77,
   77, 77, 77, 77, 77, 77, 77, 77, 77, 77, 77, 77, 77, 77, 77, 77,
   77, 77, 77, 77, 77, 77, 77, 77, 77, 77, 77, 77, 77, 77, 77, 77,
   77, 77, 77, 77, 77, 77, 77, 77, 77, 77, 77, 77, 77, 77, 77, 77,
   77, 77, 77, 77, 77, 77, 77, 77, 77, 77, 77, 77, 77, 77, 77, 77]

/-- `basis64` of `dl_decode_base64url`. -/
def decodeBasisUrl : List UInt8 :=
  [77, 77, 77, 77, 77, 77, 77, 77, 77, 77, 77, 77, 77, 77, 77, 77,
   77, 77, 77, 77, 77, 77, 77, 77, 77, 77, 77, 77, 77, 77, 77, 77,
   77, 77, 77, 77, 77, 77, 77, 77, 77, 77, 77, 77, 77, 62, 77, 77,
   52, 53, 54, 55, 56, 57, 58, 59, 60, 61, 77, 77, 77, 77, 77, 77,
   77,  0,  1,  2,  3,  4,  5,  6,  7,  8,  9, 10, 11, 12, 13, 14,
   15, 16, 17, 18, 19, 20, 21, 22, 23, 24, 25, 77, 77, 77, 77, 63,
   77, 26, 27, 28, 29, 30, 31, 32, 33, 34, 35, 36, 37, 38, 39, 40,
   41, 42, 43, 44, 45, 46, 47, 48, 49, 50, 51, 77, 77, 77, 77, 77,
   77, 77, 77, 77, 77, 77, 77, 77, 77, 77, 77, 77, 77, 77, 77, 77,
   77, 77, 77, 77, 77, 77, 77, 77, 77, 77, 77, 77, 77, 77, 77, 77,
   77, 77, 77, 77, 77, 77, 77, 77, 77, 77, 77, 77, 77, 77, 77, 77,
   77, 77, 77, 77, 77, 77, 77, 77, 77, 77, 77, 77, 77, 77, 77, 77,
   77, 77, 77, 77, 77, 77, 77, 77, 77, 77, 77, 77, 77, 77, 77, 77,
   77, 77, 77, 77, 77, 77, 77, 77, 77, 77, 77, 77, 77, 77, 77, 77,
   77, 77, 77, 77, 77, 77, 77, 77, 77, 77, 77, 77, 77, 77, 77, 77,
   77, 77, 77, 77, 77, 77, 77, 77, 77, 77, 77, 77, 77, 77, 77, 77]

/-- `dl_decode_base64`. -/
def decodeBase64 (src : List UInt8) : Exec (Option (List UInt8)) :=
  decodeBase64Internal decodeBasis src

/-- `dl_decode_base64url`. -/
def decodeBase64Url (src : List UInt8) : Exec (Option (List UInt8)) :=
  decodeBase64Internal decodeBasisUrl src

end Dlbase.DlString
