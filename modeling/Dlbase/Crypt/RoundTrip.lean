import Dlbase.Crypt.Bounds

/-!
# Decrypting what was encrypted

The size of the padded text is computed as an `int`.  Below 2 GiB decrypting gives the text back;
from there on the size is negative or too small, and nothing is encrypted.
-/

namespace Dlbase.Crypt

open Cmem

open Dlbase.DlString (Str toInt)

variable {aes : Openssl} {A : Malloc} {src key block : List UInt8} {n : Nat}

/-- Decrypting inverts encrypting for whole blocks with the same key. -/
def Openssl.Inverts (aes : Openssl) : Prop :=
  ∀ s key, blockSize ∣ s.length →
    aes.blocks (aes.blocks s (aes.setEncryptKey key) zeroIv true) (aes.setDecryptKey key) zeroIv
      false = s

/-- Decrypting what `dl_aes_encrypt` returns gives the text back. -/
def RoundTrip (aes : Openssl) (A : Malloc) (src key : List UInt8) : Prop :=
  ∃ c d, encrypt aes A src src.length key key.length = .ok (some c) ∧
    decrypt aes (A.from 4) c.data c.len key key.length = .ok (some d) ∧
    d.bytes = src ∧ d.len = src.length

/-- How many bytes are put behind a text. -/
def padding (len : Nat) : Nat := blockSize - len % blockSize

/-- The sizes of the objects that encrypting a text of `len` bytes and decrypting the result
allocate. -/
def requests (len : Nat) : List Nat :=
  [len + padding len, sizeofStr, len + padding len + 1, sizeofStr, len + padding len, sizeofStr]

/-- There is memory for encrypting and decrypting a text of `len` bytes, if it has less than 2 GiB
with its padding. -/
def Malloc.Ample (A : Malloc) (len : Nat) : Prop :=
  len + padding len < 2 ^ 31 → ∀ k n, (requests len)[k]? = some n → ∃ b, A.run k n = some b

/-! ## Padding -/

theorem padding_pos (len : Nat) : 0 < padding len ∧ padding len ≤ blockSize := by
  have hlt : len % blockSize < blockSize := Nat.mod_lt _ (by decide)
  unfold padding
  omega

/-- The text and its padding are the blocks that the text begins in, and one more if it ends with a
block. -/
theorem total_eq (len : Nat) : (len / blockSize + 1) * blockSize = len + padding len := by
  have hdiv := Nat.div_add_mod len blockSize
  have hlt : len % blockSize < blockSize := Nat.mod_lt _ (by decide)
  rw [Nat.add_mul, Nat.mul_comm, padding]
  omega

theorem dvd_total (len : Nat) : blockSize ∣ len + padding len := ⟨_, (total_eq len).symm.trans
  (Nat.mul_comm _ _)⟩

/-- The padded text. -/
def padded (src : List UInt8) : List UInt8 :=
  src ++ List.replicate (padding src.length) (UInt8.ofNat (padding src.length))

theorem length_padded (src : List UInt8) :
    (padded src).length = src.length + padding src.length := by
  rw [padded, List.length_append, List.length_replicate]

/-- Copying the text and setting the bytes behind it fills the memory with the padded text. -/
theorem fill_eq {buf : List UInt8} (hbuf : buf.length = src.length + padding src.length) :
    (do
      let buf ← memcpy buf 0 src 0 src.length
      memset buf src.length (UInt8.ofNat (padding src.length)) (padding src.length)) =
      .ok (padded src) := by
  have hcopy : memcpy buf 0 src 0 src.length = .ok (src ++ buf.drop src.length) := by
    rw [memcpy_eq (by omega) (by omega)]
    simp only [List.take_zero, List.nil_append, List.drop_zero, List.take_length, Nat.zero_add]
  have hlen : (src ++ buf.drop src.length).length = buf.length := by
    rw [List.length_append, List.length_drop]
    omega
  rw [hcopy, Exec.ok_bind, memset, memcpy_eq (by omega) (by rw [List.length_replicate]; omega),
    List.take_left, List.drop_zero, ← hbuf, ← hlen, List.drop_length, List.append_nil, padded,
    List.take_of_length_le (Nat.le_of_eq List.length_replicate)]

/-- Both branches of the code set as many bytes as the padding has, to that number. -/
theorem setPadding_eq (buf : List UInt8) (len : Nat) : setPadding buf len (padLen len) =
    memset buf len (UInt8.ofNat (padding len)) (padding len) := by
  have hlt : len % blockSize < blockSize := Nat.mod_lt _ (by decide)
  unfold setPadding padLen padding
  dsimp only
  by_cases hr : len % blockSize = 0
  · rw [if_pos hr, if_pos rfl, hr, Nat.sub_zero]
  · rw [if_neg hr, if_neg (by omega)]

/-! ## Sizes -/

/-- A total that fits in an `int` is the size that is asked for. -/
theorem toSize_toInt_of_lt (h : n < 2 ^ 31) : toSize (toInt n) = n := by
  have hn : toInt n = n := by
    rw [toInt, BitVec.toInt_eq_toNat_of_lt (by rw [BitVec.toNat_ofNat]; omega), BitVec.toNat_ofNat]
    omega
  rw [hn, toSize]
  omega

/-- A total that does not is negative or too small. -/
theorem toSize_toInt_of_le (h : 2 ^ 31 ≤ n) :
    2 ^ 63 ≤ toSize (toInt n) ∨ toSize (toInt n) + 2 ^ 32 ≤ n := by
  have hn : toInt n = if 2 * (n % 2 ^ 32) < 2 ^ 32 then ((n % 2 ^ 32 : Nat) : Int)
      else ((n % 2 ^ 32 : Nat) : Int) - (2 ^ 32 : Nat) := by
    rw [toInt, BitVec.toInt, BitVec.toNat_ofNat]
  rw [hn, toSize]
  split_ifs <;> omega

/-! ## Round trips -/

/-- What `dl_aes_encrypt` returns for a text of less than 2 GiB. -/
theorem encrypt_eq (aes : Openssl) (hA : A.Ample src.length)
    (hblock : keyBlock key key.length = .ok block)
    (hsrc : src.length + padding src.length < 2 ^ 31) :
    ∃ data, encrypt aes A src src.length key key.length =
      .ok (some ⟨aes.blocks (padded src) (aes.setEncryptKey block) zeroIv true ++ data,
        src.length + padding src.length⟩) := by
  obtain ⟨buf, hbuf⟩ := hA hsrc 0 _ rfl
  obtain ⟨x, hx⟩ := hA hsrc 1 _ rfl
  obtain ⟨data, hdata⟩ := hA hsrc 2 _ rfl
  obtain ⟨y, hy⟩ := hA hsrc 3 _ rfl
  have hsize : toSize (toInt ((src.length / blockSize + 1) * blockSize)) =
      src.length + padding src.length := by
    rw [total_eq, toSize_toInt_of_lt hsrc]
  have hmod : (src.length + padding src.length + 1) % 2 ^ 64 =
      src.length + padding src.length + 1 := Nat.mod_eq_of_lt (by omega)
  have hlen := length_padded src
  have hout := aes.cbcEncrypt_eq (padded src) data (src.length + padding src.length)
    (aes.setEncryptKey block) zeroIv true (dvd_total _) (Nat.le_of_eq hlen.symm)
    (by rw [A.length_run _ _ _ hdata]; omega)
  rw [← hlen, List.take_length, hlen] at hout
  obtain ⟨buf₁, hcopy, hset⟩ := Exec.bind_eq_ok.mp (fill_eq (A.length_run _ _ _ hbuf))
  refine ⟨data.drop (src.length + padding src.length), ?_⟩
  unfold encrypt
  rw [hblock, Exec.ok_bind]
  dsimp only
  rw [hsize, hbuf]
  dsimp only
  rw [hcopy, Exec.ok_bind, setPadding_eq, hset, Exec.ok_bind, hx]
  dsimp only
  rw [encryptCbc, hmod, show (A.from 2).run 0 _ = _ from hdata]
  dsimp only
  rw [show (A.from 2).run 1 _ = _ from hy]
  dsimp only
  rw [hout]
  rfl

/-- The last byte of a padded text says how many bytes there are behind the text. -/
theorem getLast?_padded (src : List UInt8) :
    (padded src).getLast? = some (UInt8.ofNat (padding src.length)) ∧
      toChar (UInt8.ofNat (padding src.length)) = padding src.length := by
  obtain ⟨hpos, hle⟩ := padding_pos src.length
  have hle : padding src.length ≤ 16 := hle
  have hbyte : (UInt8.ofNat (padding src.length)).toNat = padding src.length := by
    rw [UInt8.toNat_ofNat']
    exact Nat.mod_eq_of_lt (by omega)
  refine ⟨?_, ?_⟩
  · rw [padded, List.getLast?_append, List.getLast?_replicate, if_neg (by omega)]
    rfl
  · rw [toChar, hbyte, if_pos (by omega)]

/-- What `dl_aes_decrypt` returns for it. -/
theorem decrypt_encrypted (hA : A.Ample src.length) (haes : aes.Inverts)
    (hblock : keyBlock key key.length = .ok block) (hsrc : src.length + padding src.length < 2 ^ 31)
    (data : List UInt8) :
    decrypt aes (A.from 4) (aes.blocks (padded src) (aes.setEncryptKey block) zeroIv true ++ data)
      (src.length + padding src.length) key key.length = .ok (some ⟨padded src, src.length⟩) := by
  obtain ⟨buf, hbuf⟩ := hA hsrc 4 _ rfl
  obtain ⟨x, hx⟩ := hA hsrc 5 _ rfl
  have hlen := length_padded src
  have hdvd : blockSize ∣ (padded src).length := hlen.symm ▸ dvd_total src.length
  have hcipher : (aes.blocks (padded src) (aes.setEncryptKey block) zeroIv true).length =
      src.length + padding src.length := (aes.length_blocks _ _ _ _ hdvd).trans hlen
  have htake : (aes.blocks (padded src) (aes.setEncryptKey block) zeroIv true ++ data).take
      (src.length + padding src.length) =
      aes.blocks (padded src) (aes.setEncryptKey block) zeroIv true := by
    rw [← hcipher, List.take_left]
  have hplain : plaintext aes (aes.blocks (padded src) (aes.setEncryptKey block) zeroIv true)
      block = padded src := haes _ _ hdvd
  obtain ⟨hlast, hchar⟩ := getLast?_padded src
  have hsize : toSize ((src.length + padding src.length : Nat) -
      toChar (UInt8.ofNat (padding src.length))) = src.length := by
    rw [hchar, toSize]
    omega
  rw [decrypt_eq aes hblock (by rw [List.length_append, hcipher]; omega) (dvd_total _) hbuf hx
    (by rw [htake, hplain]; exact hlast), htake, hplain, hsize]

/-- Nothing is encrypted from 2 GiB on. -/
theorem encrypt_ne (hblock : keyBlock key key.length = .ok block)
    (hsrc : 2 ^ 31 ≤ src.length + padding src.length) (c : Str) :
    encrypt aes A src src.length key key.length ≠ .ok (some c) := by
  have hpad : padding src.length ≤ 16 := (padding_pos src.length).2
  unfold encrypt
  rw [hblock, Exec.ok_bind, total_eq]
  dsimp only
  cases hbuf : A.run 0 (toSize (toInt (src.length + padding src.length))) with
  | none => nofun
  | some buf =>
    -- the size is not negative, and so it is too small
    have hlt := A.lt_of_run _ _ _ hbuf
    have hlen := A.length_run _ _ _ hbuf
    have hsmall := (toSize_toInt_of_le hsrc).resolve_left (by omega)
    have hcopy : memcpy buf 0 src 0 src.length = Exec.undef := if_neg (by omega)
    dsimp only
    rw [hcopy]
    nofun

/-- What is encrypted is decrypted again exactly if it has less than 2 GiB, with the padding. -/
theorem roundTrip_iff (hA : A.Ample src.length) (haes : aes.Inverts) (key : List UInt8) :
    RoundTrip aes A src key ↔ src.length < 2 ^ 31 - 16 := by
  obtain ⟨block, hblock, -⟩ := exists_keyBlock key
  have hiff : src.length + padding src.length < 2 ^ 31 ↔ src.length < 2 ^ 31 - 16 := by
    rw [← total_eq, blockSize]
    omega
  rw [← hiff]
  refine ⟨fun ⟨c, d, hc, _⟩ ↦ ?_, fun hsrc ↦ ?_⟩
  · by_contra hge
    exact encrypt_ne hblock (Nat.not_lt.mp hge) c hc
  · obtain ⟨data, henc⟩ := encrypt_eq aes hA hblock hsrc
    refine ⟨_, _, henc, decrypt_encrypted hA haes hblock hsrc data, ?_, rfl⟩
    rw [Str.bytes, padded, List.take_left]

/-! ## Instances -/

theorem ample_zeros (len : Nat) : Malloc.zeros.Ample len := by
  intro hlen k n hn
  have hmem := List.mem_of_getElem? hn
  have hlt : n < 2 ^ 63 := by
    simp only [requests, sizeofStr, List.mem_cons, List.not_mem_nil, or_false] at hmem
    omega
  exact ⟨_, if_pos hlt⟩

theorem inverts_exchange {p c : List UInt8} (h : p.length = c.length) :
    (Openssl.exchange p c h).Inverts := fun s _ _ ↦ Equiv.swap_apply_self p c s

/-- The block that the key of zeros makes of the padding of the empty text. -/
def cipherEmpty : List UInt8 :=
  [0x01, 0x43, 0xdb, 0x63, 0xee, 0x66, 0xb0, 0xcd, 0xff, 0x9f, 0x69, 0x91, 0x76, 0x80, 0x15, 0x1e]

/-- AES with the key of zeros, as far as the padding of the empty text is concerned. -/
def aesEmpty : Openssl := .exchange (List.replicate 16 16) cipherEmpty rfl

theorem roundTrip_empty : RoundTrip aesEmpty .zeros [] [] :=
  (roundTrip_iff (ample_zeros 0)
    (inverts_exchange (p := List.replicate 16 16) (c := cipherEmpty) rfl) []).mpr (by decide)

/-- A text of 16 bytes less than 2 GiB is not encrypted, as the size of the padded text is taken for
a negative one. -/
theorem not_roundTrip : ¬ RoundTrip aesEmpty .zeros (List.replicate (2 ^ 31 - 16) 0) [] := by
  rintro ⟨c, d, hc, -⟩
  obtain ⟨block, hblock, -⟩ := exists_keyBlock []
  refine encrypt_ne hblock ?_ c hc
  rw [← total_eq, List.length_replicate]
  decide

end Dlbase.Crypt
