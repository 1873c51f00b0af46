import Dlbase.Crypt.Model

/-!
# The length of a decrypted text

`dl_aes_decrypt` takes the last byte of the plaintext, which whoever wrote the ciphertext may have
chosen, for the length of the padding.  A byte from 128 on is negative as a `char`, and it makes the
text longer than the memory; a byte that is greater than the length of the plaintext does so too.
-/

namespace Dlbase.Crypt

open Cmem

open Dlbase.DlString (Str)

variable {aes : Openssl} {A : Malloc} {src key block data x : List UInt8} {len : Nat} {c : UInt8}

/-- What a ciphertext is decrypted to. -/
def plaintext (aes : Openssl) (src block : List UInt8) : List UInt8 :=
  aes.blocks src (aes.setDecryptKey block) zeroIv false

/-- `dl_aes_decrypt` returns a null pointer, or a text that does not leave the memory that was
allocated for it, which has the size of the ciphertext. -/
def InBounds (aes : Openssl) (A : Malloc) (src key : List UInt8) : Prop :=
  ∃ r, decrypt aes A src src.length key key.length = .ok r ∧
    ∀ d, r = some d → d.data.length = src.length ∧ d.len ≤ src.length

theorem length_plaintext (aes : Openssl) (h : blockSize ∣ src.length) (block : List UInt8) :
    (plaintext aes src block).length = src.length := aes.length_blocks _ _ _ _ h

/-- The plaintext has a last byte. -/
theorem exists_getLast? (aes : Openssl) (h : blockSize ∣ src.length) (hpos : 0 < src.length)
    (block : List UInt8) :
    ∃ c, (plaintext aes src block).getLast? = some c := by
  have hlen := length_plaintext aes h block
  have hne : plaintext aes src block ≠ [] := List.length_pos_iff.mp (by omega)
  exact ⟨_, List.getLast?_eq_some_getLast hne⟩

/-- What `dl_aes_decrypt` returns when there is memory. -/
theorem decrypt_eq (aes : Openssl) (hblock : keyBlock key key.length = .ok block)
    (hlen : len ≤ src.length) (hdvd : blockSize ∣ len) (hdata : A.run 0 len = some data)
    (hx : A.run 1 sizeofStr = some x)
    (hc : (plaintext aes (src.take len) block).getLast? = some c) :
    decrypt aes A src len key key.length =
      .ok (some ⟨plaintext aes (src.take len) block, toSize (len - toChar c)⟩) := by
  have htake : (src.take len).length = len := List.length_take_of_le hlen
  have hplain : (plaintext aes (src.take len) block).length = len :=
    (length_plaintext aes (htake.symm ▸ hdvd) block).trans htake
  have hdata' := A.length_run _ _ _ hdata
  have hout := aes.cbcEncrypt_eq src data len (aes.setDecryptKey block) zeroIv false hdvd hlen
    (Nat.le_of_eq hdata'.symm)
  rw [← hdata', List.drop_length, List.append_nil, hdata'] at hout
  cases len with
  | zero =>
    rw [List.length_eq_zero_iff.mp hplain] at hc
    cases hc
  | succ n =>
    rw [List.getLast?_eq_getElem?, hplain, Nat.add_sub_cancel] at hc
    unfold decrypt decryptCbc
    rw [hblock, Exec.ok_bind, hdata, hx]
    dsimp only
    rw [hout, Exec.ok_bind]
    have hlast : (aes.blocks (src.take (n + 1)) (aes.setDecryptKey block) zeroIv false)[n]? =
        some c := hc
    rw [hlast]
    rfl

/-- What the last byte says is taken off, modulo `2 ^ 64`. -/
theorem toSize_sub_le_iff (hlen : len < 2 ^ 63) (c : UInt8) :
    toSize (len - toChar c) ≤ len ↔ 0 ≤ toChar c ∧ toChar c ≤ len := by
  have hlt := c.toNat_lt
  unfold toSize toChar
  split_ifs <;> omega

/-- The text stays inside its memory exactly if there is none, or if the last byte of the plaintext,
read as a `char`, is not negative and not greater than the length. -/
theorem inBounds_iff (hdvd : blockSize ∣ src.length) (hpos : 0 < src.length) :
    InBounds aes A src key ↔ A.run 0 src.length = none ∨ A.run 1 sizeofStr = none ∨
      ∀ block c, keyBlock key key.length = .ok block →
        (plaintext aes src block).getLast? = some c → 0 ≤ toChar c ∧ toChar c ≤ src.length := by
  obtain ⟨block, hblock, -⟩ := exists_keyBlock key
  cases hdata : A.run 0 src.length with
  | none =>
    refine iff_of_true ⟨none, ?_, nofun⟩ (.inl rfl)
    rw [decrypt, hblock, Exec.ok_bind, decryptCbc, hdata]
  | some data =>
    cases hx : A.run 1 sizeofStr with
    | none =>
      refine iff_of_true ⟨none, ?_, nofun⟩ (.inr (.inl rfl))
      rw [decrypt, hblock, Exec.ok_bind, decryptCbc, hdata, hx]
    | some x =>
      obtain ⟨c, hc⟩ := exists_getLast? aes hdvd hpos block
      have hrun := decrypt_eq aes hblock (Nat.le_refl src.length) hdvd hdata hx (c := c)
        (by rwa [List.take_length])
      rw [List.take_length] at hrun
      have hle := toSize_sub_le_iff (A.lt_of_run _ _ _ hdata) c
      refine ⟨fun ⟨r, hr, hbound⟩ ↦ .inr (.inr fun block' c' hblock' hc' ↦ ?_), fun hcond ↦ ?_⟩
      · obtain rfl := Except.ok.inj (hblock.symm.trans hblock')
        obtain rfl := Option.some.inj (hc.symm.trans hc')
        obtain rfl := Except.ok.inj (hrun.symm.trans hr)
        exact hle.mp (hbound _ rfl).2
      · obtain hnone | hnone | hcond := hcond
        · cases hnone
        · cases hnone
        · refine ⟨_, hrun, fun d hd ↦ ?_⟩
          obtain rfl := Option.some.inj hd
          exact ⟨length_plaintext aes hdvd block, hle.mpr (hcond block c hblock hc)⟩

/-- The block that the key of zeros makes of 15 zeros and a byte 128. -/
def cipher : List UInt8 :=
  [0xff, 0x49, 0xb8, 0xdf, 0x4a, 0x97, 0xcb, 0xe0, 0x38, 0x33, 0xe6, 0x61, 0x97, 0x62, 0x0d, 0xad]

/-- AES with the key of zeros, as far as the block `cipher` is concerned. -/
def aesZero : Openssl := .exchange (List.replicate 15 0 ++ [128]) cipher rfl

/-- The block `cipher` is decrypted to a text that is longer than its memory. -/
theorem not_inBounds : ¬ InBounds aesZero .zeros cipher [] := by
  rintro ⟨r, hr, hbound⟩
  have hrun : decrypt aesZero .zeros cipher cipher.length [] ([] : List UInt8).length =
      .ok (some ⟨List.replicate 15 0 ++ [128], 144⟩) := by
    decide +kernel
  obtain rfl := Except.ok.inj (hrun.symm.trans hr)
  exact absurd (hbound _ rfl).2 (by decide)

/-- A block that is decrypted to 15 zeros and a byte 1. -/
theorem inBounds_one :
    InBounds (.exchange (List.replicate 15 0 ++ [1]) cipher rfl) .zeros cipher [] := by
  refine (inBounds_iff (by decide) (by decide)).mpr (.inr (.inr fun block c _ hc ↦ ?_))
  have hplain : plaintext (.exchange (List.replicate 15 0 ++ [1]) cipher rfl) cipher block =
      List.replicate 15 0 ++ [1] := Equiv.swap_apply_right _ _
  rw [hplain] at hc
  obtain rfl := Option.some.inj hc
  decide

end Dlbase.Crypt
