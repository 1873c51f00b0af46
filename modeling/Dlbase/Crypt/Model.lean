import Dlbase.Lib.Ring
import Dlbase.String.Split

/-!
# Encryption with `dl_aes.c`

The functions of OpenSSL that the code calls are parameters: what `AES_cbc_encrypt` does to whole
blocks is a function of the key and the initial vector, and nothing is said of what it does to parts
of blocks.  `dl_alloc` is a parameter as well: what each call returns for a size.  The mode that is
asked for makes no difference, as the code has only one.
-/

namespace Dlbase.Crypt

open Cmem

open Dlbase.DlString (Str toInt)

/-- `AES_BLOCK_SIZE`. -/
def blockSize : Nat := 16

/-- `sizeof(dl_str)`. -/
def sizeofStr : Nat := 16

/-- The functions of OpenSSL. -/
structure Openssl where
  /-- An `AES_KEY`. -/
  Key : Type
  /-- `AES_set_encrypt_key` for 128 bits. -/
  setEncryptKey : List UInt8 → Key
  /-- `AES_set_decrypt_key` for 128 bits. -/
  setDecryptKey : List UInt8 → Key
  /-- What whole blocks are made into, with the key and the initial vector; the last argument tells
  whether they are encrypted. -/
  blocks : List UInt8 → Key → List UInt8 → Bool → List UInt8
  /-- `AES_cbc_encrypt(in, out, length, key, ivec, enc)`: the new contents of `out`. -/
  cbcEncrypt : List UInt8 → List UInt8 → Nat → Key → List UInt8 → Bool → Exec (List UInt8)
  /-- There are as many bytes as before. -/
  length_blocks : ∀ s key iv enc, blockSize ∣ s.length → (blocks s key iv enc).length = s.length
  /-- Whole blocks are read at `in` and written at `out`. -/
  cbcEncrypt_eq : ∀ s out len key iv enc, blockSize ∣ len → len ≤ s.length → len ≤ out.length →
    cbcEncrypt s out len key iv enc = .ok (blocks (s.take len) key iv enc ++ out.drop len)

/-- `dl_alloc`: the memory that a call returns for a size, with whatever is in it. -/
structure Malloc where
  /-- The result of each call. -/
  run : Nat → Nat → Option (List UInt8)
  /-- The memory has the size that was asked for. -/
  length_run : ∀ k n b, run k n = some b → b.length = n
  /-- No object is larger than `PTRDIFF_MAX`. -/
  lt_of_run : ∀ k n b, run k n = some b → n < 2 ^ 63

/-- The calls from the call `j` on. -/
def Malloc.from (A : Malloc) (j : Nat) : Malloc where
  run k := A.run (j + k)
  length_run k := A.length_run (j + k)
  lt_of_run k := A.lt_of_run (j + k)

/-- The `malloc` that meets all requests that can be met, with zeros. -/
def Malloc.zeros : Malloc where
  run _ n := if n < 2 ^ 63 then some (List.replicate n 0) else none
  length_run _ n b h := by
    split_ifs at h
    obtain rfl := Option.some.inj h
    exact List.length_replicate
  lt_of_run _ n b h := by
    split_ifs at h with hn
    exact hn

/-- The cipher that exchanges the texts `p` and `c`. -/
def Openssl.exchange (p c : List UInt8) (h : p.length = c.length) : Openssl where
  Key := Unit
  setEncryptKey _ := ()
  setDecryptKey _ := ()
  blocks s _ _ _ := Equiv.swap p c s
  cbcEncrypt s out len _ _ _ :=
    if len ≤ s.length ∧ len ≤ out.length then .ok (Equiv.swap p c (s.take len) ++ out.drop len)
    else Exec.undef
  length_blocks s _ _ _ _ := by
    rw [Equiv.swap_apply_def]
    split_ifs with hp hc
    · rw [hp, h]
    · rw [hc, h]
    · rfl
  cbcEncrypt_eq _ _ _ _ _ _ _ hs hout := if_pos ⟨hs, hout⟩

/-- The initial vector. -/
def zeroIv : List UInt8 := List.replicate blockSize 0

/-- An `int` as a `size_t`. -/
def toSize (n : Int) : Nat := (n % 2 ^ 64).toNat

/-- A byte read as a `char`, which is signed. -/
def toChar (c : UInt8) : Int := if c.toNat < 128 then c.toNat else c.toNat - 256

/-- The key that is used: 16 bytes of the key that is given, or all of it with zeros behind. -/
def keyBlock (key : List UInt8) (keyLen : Nat) : Exec (List UInt8) :=
  if keyLen > blockSize then memcpy (List.replicate blockSize 0) 0 key 0 blockSize
  else memcpy (List.replicate blockSize 0) 0 key 0 keyLen

/-- `memset(buf + i, c, n)`: the new contents of `buf`. -/
def memset (buf : List UInt8) (i : Nat) (c : UInt8) (n : Nat) : Exec (List UInt8) :=
  memcpy buf i (List.replicate n c) 0 n

/-- `pad_len`. -/
def padLen (len : Nat) : Nat :=
  let r := len % blockSize
  if r = 0 then 0 else blockSize - r

/-- The bytes behind the text in `src_pad` are set. -/
def setPadding (srcPad : List UInt8) (len padLen : Nat) : Exec (List UInt8) :=
  if padLen = 0 then memset srcPad len (UInt8.ofNat blockSize) blockSize
  else memset srcPad len (UInt8.ofNat padLen) padLen

variable (aes : Openssl)

/-- `dl_aes_encrypt_cbc`. -/
def encryptCbc (A : Malloc) (src : List UInt8) (len : Nat) (key : List UInt8) :
    Exec (Option Str) :=
  match A.run 0 ((len + 1) % 2 ^ 64) with
  | none => .ok none
  | some data =>
    match A.run 1 sizeofStr with
    | none => .ok none
    | some _ => do
      let data ← aes.cbcEncrypt src data len (aes.setEncryptKey key) zeroIv true
      pure (some ⟨data, len⟩)

/-- `dl_aes_decrypt_cbc`. -/
def decryptCbc (A : Malloc) (src : List UInt8) (len : Nat) (key : List UInt8) :
    Exec (Option Str) :=
  match A.run 0 len with
  | none => .ok none
  | some data =>
    match A.run 1 sizeofStr with
    | none => .ok none
    | some _ => do
      let data ← aes.cbcEncrypt src data len (aes.setDecryptKey key) zeroIv false
      match len with
      | 0 => Exec.undef
      | n + 1 =>
        match data[n]? with
        | none => Exec.undef
        | some c => pure (some ⟨data, toSize (len - toChar c)⟩)

/-- `dl_aes_encrypt`. -/
def encrypt (A : Malloc) (src : List UInt8) (len : Nat) (key : List UInt8) (keyLen : Nat) :
    Exec (Option Str) := do
  let block ← keyBlock key keyLen
  let total := toInt ((len / blockSize + 1) * blockSize)
  match A.run 0 (toSize total) with
  | none => pure none
  | some srcPad => do
    let srcPad ← memcpy srcPad 0 src 0 len
    let srcPad ← setPadding srcPad len (padLen len)
    match A.run 1 sizeofStr with
    | none => pure none
    | some _ => encryptCbc aes (A.from 2) srcPad (toSize total) block

/-- `dl_aes_decrypt`. -/
def decrypt (A : Malloc) (src : List UInt8) (len : Nat) (key : List UInt8) (keyLen : Nat) :
    Exec (Option Str) := do
  let block ← keyBlock key keyLen
  decryptCbc aes A src len block

/-! ## Keys -/

variable {key : List UInt8}

/-- The key that is used for a key that can be read. -/
theorem exists_keyBlock (key : List UInt8) :
    ∃ block, keyBlock key key.length = .ok block ∧ block.length = blockSize := by
  have hzero : (List.replicate blockSize (0 : UInt8)).length = blockSize := List.length_replicate
  unfold keyBlock
  split_ifs with hlen
  · obtain ⟨block, hblock, hsize, -⟩ := memcpy_spec (i := 0) (j := 0) (n := blockSize)
      (hzero.symm ▸ by omega : _ ≤ (List.replicate blockSize (0 : UInt8)).length)
      (by omega : _ ≤ key.length)
    exact ⟨block, hblock, hsize.trans hzero⟩
  · obtain ⟨block, hblock, hsize, -⟩ := memcpy_spec (i := 0) (j := 0) (n := key.length)
      (hzero.symm ▸ by omega : _ ≤ (List.replicate blockSize (0 : UInt8)).length)
      (by omega : _ ≤ key.length)
    exact ⟨block, hblock, hsize.trans hzero⟩

end Dlbase.Crypt
