import Dlbase.String.Base64

/-!
# Decoding what has been encoded

Encoding writes the sextets of the bytes in the alphabet, and decoding takes the characters back to
sextets.  Both need nothing of the tables but that one is the inverse of the other, and that the
inverse marks the characters outside the alphabet.
-/

namespace Dlbase.DlString

open Cmem

/-- The two encodings, the first one with or without padding. -/
inductive Codec where
  /-- `dl_encode_base64` with its argument `pad`, and `dl_decode_base64`. -/
  | standard (pad : Bool)
  /-- `dl_encode_base64url` and `dl_decode_base64url`. -/
  | url
deriving DecidableEq, Repr

namespace Codec

/-- The encoder. -/
def encode : Codec → List UInt8 → Exec (List UInt8)
  | standard pad, src => encodeBase64 src pad
  | url, src => encodeBase64Url src

/-- The decoder. -/
def decode : Codec → List UInt8 → Exec (Option (List UInt8))
  | standard _, src => decodeBase64 src
  | url, src => decodeBase64Url src

/-- The characters in the order of their values. -/
def alphabet : Codec → List UInt8
  | standard _ => encodeBasis
  | url => encodeBasisUrl

/-- The table of the decoder. -/
def inverse : Codec → List UInt8
  | standard _ => decodeBasis
  | url => decodeBasisUrl

/-- Whether the end is padded. -/
def padded : Codec → Bool
  | standard pad => pad
  | url => false

/-- The character of a sextet. -/
def char (k : Codec) (x : UInt8) : UInt8 := k.alphabet.getD x.toNat 0

/-- The padding behind the characters of `n` bytes. -/
def padding (k : Codec) (n : Nat) : List UInt8 :=
  if k.padded then List.replicate ((3 - n % 3) % 3) (ch '=') else []

end Codec

variable {k : Codec} {c x : UInt8} {s w : List UInt8}

/-! ## The tables -/

theorem charIndex_eq (c : UInt8) : charIndex c = if c < 128 then (c.toNat : Int) else c.toNat - 256 := by
  have htoInt : charIndex c = c.toBitVec.toInt := rfl
  rw [htoInt, BitVec.toInt_eq_toNat_cond]
  change (if 2 * c.toNat < 2 ^ 8 then (c.toNat : Int) else c.toNat - ((2 ^ 8 : Nat) : Int)) = _
  have hiff : 2 * c.toNat < 2 ^ 8 ↔ c < 128 := by
    rw [UInt8.lt_iff_toNat_lt]
    change _ ↔ c.toNat < 128
    omega
  rw [if_congr hiff rfl rfl]
  rfl

theorem charIndex_of_lt (hc : c < 128) : charIndex c = index c := by
  rw [charIndex_eq, if_pos hc, index]

/-- A byte from 128 on is a negative index. -/
theorem charIndex_neg (hc : ¬ c < 128) : charIndex c < 0 := by
  have hlt : c.toNat < 256 := c.toNat_lt
  rw [charIndex_eq, if_neg hc]
  omega

theorem entry_of_getElem? {basis : List UInt8} {n : Nat} (h : basis[n]? = some x) :
    entry basis n = .ok x := by
  rw [entry, if_neg (by omega), Int.toNat_natCast, h]

theorem Codec.getElem?_alphabet (hx : x < 64) : k.alphabet[x.toNat]? = some (k.char x) := by
  have hlen : k.alphabet.length = 64 := by cases k <;> rfl
  have hlt : x.toNat < k.alphabet.length := hlen ▸ UInt8.lt_iff_toNat_lt.mp hx
  rw [Codec.char, List.getD_eq_getElem?_getD, List.getElem?_eq_getElem hlt]
  rfl

theorem Codec.entry_alphabet (hx : x < 64) : entry k.alphabet (index x) = .ok (k.char x) :=
  entry_of_getElem? (k.getElem?_alphabet hx)

theorem Codec.char_mem (hx : x < 64) : k.char x ∈ k.alphabet :=
  List.mem_of_getElem? (k.getElem?_alphabet hx)

/-- The tables of the two alphabets. -/
def tables : List (List UInt8 × List UInt8) :=
  [(encodeBasis, decodeBasis), (encodeBasisUrl, decodeBasisUrl)]

theorem Codec.tables_mem (k : Codec) : (k.alphabet, k.inverse) ∈ tables := by
  cases k
  · exact List.mem_cons_self
  · exact List.mem_cons_of_mem _ List.mem_cons_self

/-- The inverse table has all characters. -/
theorem Codec.exists_entry (k : Codec) (c : UInt8) :
    ∃ x, k.inverse[c.toNat]? = some x ∧ entry k.inverse (index c) = .ok x := by
  have hall : ∀ T ∈ tables, T.2.length = 256 := by decide +kernel
  have hlen : k.inverse.length = 256 := hall _ k.tables_mem
  have hlt : c.toNat < k.inverse.length := hlen ▸ c.toNat_lt
  have hget := List.getElem?_eq_getElem hlt
  exact ⟨_, hget, entry_of_getElem? hget⟩

/-- The inverse table takes characters back to sextets. -/
theorem Codec.inverse_char (hx : x < 64) : k.inverse[(k.char x).toNat]? = some x := by
  have hall : ∀ T ∈ tables, ∀ n < 64,
      T.2[(T.1.getD n 0).toNat]? = some (UInt8.ofNat n) := by decide +kernel
  have h := hall _ k.tables_mem x.toNat (UInt8.lt_iff_toNat_lt.mp hx)
  rwa [UInt8.ofNat_toNat] at h

/-- Only the characters of the alphabet are legal. -/
theorem Codec.inverse_eq_iff (k : Codec) (c : UInt8) :
    k.inverse[c.toNat]? = some 77 ↔ c ∉ k.alphabet := by
  have hall : ∀ T ∈ tables, ∀ n < 256,
      (T.2[n]? = some 77 ↔ UInt8.ofNat n ∉ T.1) := by decide +kernel
  have h := hall _ k.tables_mem c.toNat c.toNat_lt
  rwa [UInt8.ofNat_toNat] at h

/-- The characters of the alphabet are below 128, and `=` is none of them. -/
theorem Codec.of_mem (hc : c ∈ k.alphabet) : c < 128 ∧ c ≠ ch '=' := by
  have hall : ∀ T ∈ tables, ∀ c ∈ T.1, c < 128 ∧ c ≠ ch '=' := by decide +kernel
  exact hall _ k.tables_mem c hc

/-! ## Encoding -/

/-- The text is the sextets in the alphabet and the padding. -/
theorem Codec.encode_eq (k : Codec) (s : List UInt8) :
    k.encode s = .ok ((sextets s).map k.char ++ k.padding s.length) := by
  have hrun : k.encode s = encodeBase64Internal k.alphabet k.padded s := by cases k <;> rfl
  rw [hrun]
  clear hrun
  induction s using sextets.induct with
  | case1 a b c s ih =>
    have hlt := sextets_lt (a :: b :: c :: s)
    rw [sextets] at hlt ⊢
    simp only [List.forall_mem_cons] at hlt
    obtain ⟨h₀, h₁, h₂, h₃, -⟩ := hlt
    have hpad : k.padding (a :: b :: c :: s).length = k.padding s.length := by
      simp only [Codec.padding, List.length_cons, Nat.add_assoc, Nat.add_mod_right]
    simp only [encodeBase64Internal, entry_alphabet h₀, entry_alphabet h₁, entry_alphabet h₂,
      entry_alphabet h₃, ih, Exec.ok_bind, Exec.pure_eq_ok, List.map_cons, List.cons_append, hpad]
  | case2 a b =>
    have hlt := sextets_lt [a, b]
    rw [sextets] at hlt ⊢
    simp only [List.forall_mem_cons] at hlt
    obtain ⟨h₀, h₁, h₂, -⟩ := hlt
    simp only [encodeBase64Internal, entry_alphabet h₀, entry_alphabet h₁, entry_alphabet h₂,
      Exec.ok_bind, Exec.pure_eq_ok]
    rfl
  | case3 a =>
    have hlt := sextets_lt [a]
    rw [sextets] at hlt ⊢
    simp only [List.forall_mem_cons] at hlt
    obtain ⟨h₀, h₁, -⟩ := hlt
    simp only [encodeBase64Internal, entry_alphabet h₀, entry_alphabet h₁, Exec.ok_bind,
      Exec.pure_eq_ok]
    rfl
  | case4 => cases hpad : k.padded <;> simp [encodeBase64Internal, sextets, Codec.padding]

/-! ## Decoding -/

/-- Characters in front of the first `=`. -/
theorem Codec.legalLength_eq (h : ∀ c ∈ s, c ∈ k.alphabet) (hw : ∀ c ∈ w.head?, c = ch '=') :
    legalLength k.inverse (s ++ w) = .ok (some s.length) := by
  induction s with
  | nil =>
    cases w with
    | nil => rfl
    | cons c w => rw [List.nil_append, legalLength, if_pos (hw c rfl)]; rfl
  | cons c s ih =>
    rw [List.forall_mem_cons] at h
    obtain ⟨hlt, hne⟩ := k.of_mem h.1
    obtain ⟨x, hget, hentry⟩ := k.exists_entry c
    have hx : x ≠ 77 := fun hx ↦ (k.inverse_eq_iff c).mp (hx ▸ hget) h.1
    rw [List.cons_append, legalLength, if_neg hne, charIndex_of_lt hlt, hentry, Exec.ok_bind, if_neg hx,
      ih h.2]
    rfl

/-- The loop of the decoder takes the sextets back to bytes. -/
theorem Codec.decodeLoop_eq (h : ∀ x ∈ s, x < 64) :
    decodeLoop k.inverse (s.map k.char) = .ok (octets s) := by
  have hentry : ∀ x < 64, entry k.inverse (index (k.char x)) = .ok x := fun _ hx ↦
    entry_of_getElem? (k.inverse_char hx)
  induction s using octets.induct with
  | case1 a b c d s ih =>
    simp only [List.forall_mem_cons] at h
    obtain ⟨h₀, h₁, h₂, h₃, h⟩ := h
    simp only [List.map_cons, decodeLoop, hentry a h₀, hentry b h₁, hentry c h₂, hentry d h₃, ih h,
      Exec.ok_bind, Exec.pure_eq_ok, octets]
  | case2 a b c =>
    simp only [List.forall_mem_cons] at h
    obtain ⟨h₀, h₁, h₂, -⟩ := h
    simp only [List.map_cons, List.map_nil, decodeLoop, hentry a h₀, hentry b h₁, hentry c h₂,
      Exec.ok_bind, Exec.pure_eq_ok, octets]
  | case3 a b =>
    simp only [List.forall_mem_cons] at h
    obtain ⟨h₀, h₁, -⟩ := h
    simp only [List.map_cons, List.map_nil, decodeLoop, hentry a h₀, hentry b h₁,
      Exec.ok_bind, Exec.pure_eq_ok, octets]
  | case4 a => rfl
  | case5 => rfl

theorem Codec.decode_eq (k : Codec) (s : List UInt8) :
    k.decode s = decodeBase64Internal k.inverse s := by
  cases k <;> rfl

theorem Codec.head_padding (k : Codec) (n : Nat) : ∀ c ∈ (k.padding n).head?, c = ch '=' := by
  intro c hc
  have hmem := List.mem_of_mem_head? hc
  unfold Codec.padding at hmem
  split_ifs at hmem
  · exact List.eq_of_mem_replicate hmem
  · cases hmem

/-- The number of sextets leaves no single character at the end. -/
theorem length_sextets_mod (s : List UInt8) : (sextets s).length % 4 ≠ 1 := by
  rw [length_sextets]
  omega

/-- What has been encoded is decoded. -/
theorem Codec.decode_encode (k : Codec) (s : List UInt8) :
    k.decode ((sextets s).map k.char ++ k.padding s.length) = .ok (some s) := by
  have hmem : ∀ c ∈ (sextets s).map k.char, c ∈ k.alphabet := by
    intro c hc
    obtain ⟨x, hx, rfl⟩ := List.mem_map.mp hc
    exact k.char_mem (sextets_lt s x hx)
  rw [k.decode_eq, decodeBase64Internal, Codec.legalLength_eq hmem (k.head_padding _), Exec.ok_bind]
  simp only [List.length_map, if_neg (length_sextets_mod s)]
  rw [← List.length_map k.char, List.take_left, Codec.decodeLoop_eq (sextets_lt s),
    octets_sextets]
  rfl

/-! ## The length -/

/-- The two lowest bits are cleared. -/
theorem and_not_three (x : UInt64) : (x &&& ~~~(3 : UInt64)).toNat = x.toNat / 4 * 4 := by
  have hshift : x &&& ~~~(3 : UInt64) = (x >>> 2) <<< 2 := by
    refine UInt64.toBitVec_inj.mp (BitVec.eq_of_getLsbD_eq fun i hi ↦ ?_)
    have hthree : (3 : UInt64).toBitVec.getLsbD i = decide (i < 2) :=
      Nat.testBit_two_pow_sub_one 2 i
    rw [UInt64.toBitVec_and, BitVec.getLsbD_and, UInt64.toBitVec_not, BitVec.getLsbD_not, hthree]
    rcases Nat.lt_or_ge i 2 with hlt | hge
    · interval_cases i <;> simp
    · simp [hi, Nat.not_lt.mpr hge, Nat.add_sub_cancel' hge]
  have hlt : x.toNat < 2 ^ 64 := x.toNat_lt
  have hright : (x >>> 2).toNat = x.toNat / 4 := by
    rw [UInt64.toNat_shiftRight]
    exact Nat.shiftRight_eq_div_pow _ 2
  rw [hshift, UInt64.toNat_shiftLeft, hright]
  change (x.toNat / 4) <<< 2 % 2 ^ 64 = _
  rw [Nat.shiftLeft_eq]
  omega

theorem base64Len_eq {n : Nat} (hn : n * 4 < 2 ^ 64) :
    (base64Len (UInt64.ofNat n)).toNat = (n * 4 / 3 + 3) / 4 * 4 := by
  have hn' : (UInt64.ofNat n).toNat = n := UInt64.toNat_ofNat_of_lt (show n < 2 ^ 64 by omega)
  have hmul : (UInt64.ofNat n * 4).toNat = n * 4 := by
    rw [UInt64.toNat_mul, hn']
    exact Nat.mod_eq_of_lt hn
  rw [base64Len, and_not_three, UInt64.toNat_add, UInt64.toNat_div, hmul]
  change (n * 4 / 3 + 3) % 2 ^ 64 / 4 * 4 = _
  rw [Nat.mod_eq_of_lt (by omega)]

theorem Codec.length_encode (k : Codec) (s : List UInt8) (hk : k.padded = true) :
    ((sextets s).map k.char ++ k.padding s.length).length = (s.length * 4 / 3 + 3) / 4 * 4 := by
  rw [List.length_append, List.length_map, length_sextets, Codec.padding, if_pos hk,
    List.length_replicate]
  obtain h | h | h : s.length % 3 = 0 ∨ s.length % 3 = 1 ∨ s.length % 3 = 2 := by omega
  all_goals
    rw [h]
    omega

/-- Decoding with the same alphabet takes encoded bytes back.  The text consists of characters of
the alphabet and, if it is padded, of `=` at the end; then its length is `base64_len` of the number
of bytes as long as the macro does not overflow. -/
theorem base64_round_trip (k : Codec) (src : List UInt8) :
    ∃ text pad, k.encode src = .ok (text ++ List.replicate pad (ch '=')) ∧
      k.decode (text ++ List.replicate pad (ch '=')) = .ok (some src) ∧
      (∀ c ∈ text, c ∈ k.alphabet) ∧ (k.padded = false → pad = 0) ∧
      (k.padded = true → src.length * 4 < 2 ^ 64 →
        (text ++ List.replicate pad (ch '=')).length =
          (base64Len (UInt64.ofNat src.length)).toNat) := by
  obtain ⟨pad, hpad, hnone⟩ : ∃ pad, k.padding src.length = List.replicate pad (ch '=') ∧
      (k.padded = false → pad = 0) := by
    unfold Codec.padding
    split_ifs with hk
    · exact ⟨_, rfl, fun h ↦ absurd (hk.symm.trans h) (by decide)⟩
    · exact ⟨0, rfl, fun _ ↦ rfl⟩
  refine ⟨(sextets src).map k.char, pad, ?_, ?_, ?_, hnone, fun hk hlen ↦ ?_⟩
  · rw [k.encode_eq, hpad]
  · rw [← hpad, k.decode_encode]
  · intro c hc
    obtain ⟨x, hx, rfl⟩ := List.mem_map.mp hc
    exact k.char_mem (sextets_lt src x hx)
  · rw [← hpad, k.length_encode src hk, base64Len_eq hlen]

end Dlbase.DlString
