import Dlbase.Lib.JsonString

/-!
# The pieces of the text of a JSON string

The text of a string is a sequence of bytes and escapes.  A high surrogate stands for a character
only together with the escape that follows it, so one at the end of the text stands for nothing.
-/

namespace Cmem.JsonString

/-- A byte of a text that is not escaped, or an escape. -/
inductive Piece where
  /-- A byte that stands for itself. -/
  | plain (c : UInt8)
  /-- A letter behind a backslash, and what it stands for. -/
  | short (e b : UInt8)
  /-- Four digits, and their number. -/
  | unicode (a b c d : UInt8) (n : Nat)
deriving DecidableEq, Repr

namespace Piece

/-- What is written for a piece. -/
def text : Piece → List UInt8
  | plain c => [c]
  | short e _ => [backslash, e]
  | unicode a b c d _ => [backslash, letterU, a, b, c, d]

/-- The piece may occur in a text. -/
def Ok : Piece → Prop
  | plain c => IsPlain c
  | short e b => JsonString.short e = some b
  | unicode a b c d n => Hexadecimal.number [a, b, c, d] = some n

/-- A high surrogate. -/
def high : Piece → Bool
  | unicode _ _ _ _ n => 0xd800 ≤ n ∧ n < 0xdc00
  | _ => false

end Piece

/-- What is written for a sequence of pieces. -/
def pieces (ps : List Piece) : List UInt8 := ps.flatMap Piece.text

/-- The number of high surrogates at the end. -/
def trailing (ps : List Piece) : Nat := (ps.rtakeWhile Piece.high).length

variable {p : Piece} {ps : List Piece} {l : List UInt8}

theorem pieces_cons (p : Piece) (ps : List Piece) : pieces (p :: ps) = p.text ++ pieces ps :=
  List.flatMap_cons

/-- Digits have a number. -/
theorem exists_number (h : ∀ c ∈ l, Hexadecimal.IsDigit c) :
    ∃ n, Hexadecimal.number l = some n := by
  obtain ⟨ds, hds⟩ : ∃ ds : List Nat, l.map Hexadecimal.digit = ds.map some := by
    induction l with
    | nil => exact ⟨[], rfl⟩
    | cons c l ih =>
      obtain ⟨hc, hl⟩ := List.forall_mem_cons.mp h
      obtain ⟨d, hd⟩ := Option.isSome_iff_exists.mp hc
      obtain ⟨ds, hds⟩ := ih hl
      exact ⟨d :: ds, by rw [List.map_cons, List.map_cons, hd, hds]⟩
  exact ⟨_, Option.map_eq_some_iff.mpr ⟨ds, Hexadecimal.mapM_digit_eq_some.mpr hds, rfl⟩⟩

/-- Four digits have a small number. -/
theorem number_lt {a b c d : UInt8} {n : Nat} (h : Hexadecimal.number [a, b, c, d] = some n) :
    n < 0x10000 := by
  obtain ⟨ds, hds, rfl⟩ := Option.map_eq_some_iff.mp h
  obtain ⟨i, _, hi, hds₁, rfl⟩ := Hexadecimal.mapM_digit_cons hds
  obtain ⟨j, _, hj, hds₂, rfl⟩ := Hexadecimal.mapM_digit_cons hds₁
  obtain ⟨k, _, hk, hds₃, rfl⟩ := Hexadecimal.mapM_digit_cons hds₂
  obtain ⟨m, _, hm, hds₄, rfl⟩ := Hexadecimal.mapM_digit_cons hds₃
  obtain rfl := Option.some.inj hds₄
  have hi := Hexadecimal.digit_lt hi
  have hj := Hexadecimal.digit_lt hj
  have hk := Hexadecimal.digit_lt hk
  have hm := Hexadecimal.digit_lt hm
  change 16 * (16 * (16 * (16 * 0 + i) + j) + k) + m < _
  omega

/-- Every text is a sequence of pieces. -/
theorem Text.exists_pieces (h : Text l) : ∃ ps : List Piece, (∀ p ∈ ps, p.Ok) ∧ l = pieces ps := by
  induction h with
  | nil => exact ⟨[], fun p hp ↦ absurd hp List.not_mem_nil, rfl⟩
  | @plain c l hc _ ih =>
    obtain ⟨ps, hps, rfl⟩ := ih
    exact ⟨.plain c :: ps, List.forall_mem_cons.mpr ⟨hc, hps⟩, rfl⟩
  | @short e l he _ ih =>
    obtain ⟨ps, hps, rfl⟩ := ih
    obtain ⟨b, hb⟩ := Option.isSome_iff_exists.mp he
    exact ⟨.short e b :: ps, List.forall_mem_cons.mpr ⟨hb, hps⟩, rfl⟩
  | @unicode a b c d l ha hb hc hd _ ih =>
    obtain ⟨ps, hps, rfl⟩ := ih
    have hdigits : ∀ x ∈ [a, b, c, d], Hexadecimal.IsDigit x := by
      simp only [List.forall_mem_cons]
      exact ⟨ha, hb, hc, hd, nofun⟩
    obtain ⟨n, hn⟩ := exists_number hdigits
    exact ⟨.unicode a b c d n :: ps, List.forall_mem_cons.mpr ⟨hn, hps⟩, rfl⟩

/-! ## The high surrogates at the end -/

theorem trailing_nil : trailing [] = 0 := rfl

theorem trailing_le (ps : List Piece) : trailing ps ≤ ps.length :=
  (List.rtakeWhile_suffix Piece.high ps).length_le

/-- A piece in front counts only if all of the others do. -/
theorem trailing_cons (p : Piece) (ps : List Piece) : trailing (p :: ps) =
    if trailing ps = ps.length then ps.length + (if p.high then 1 else 0) else trailing ps := by
  unfold trailing List.rtakeWhile
  rw [List.reverse_cons, List.takeWhile_append]
  simp only [List.length_reverse]
  split_ifs with hall hp
  · rw [List.length_append, List.length_reverse, List.takeWhile_cons_of_pos hp]
    rfl
  · rw [List.takeWhile_cons_of_neg hp, List.append_nil, List.length_reverse]
    rfl
  · rfl

theorem trailing_cons_of_not_high (h : p.high = false) (ps : List Piece) :
    trailing (p :: ps) = trailing ps := by
  rw [trailing_cons, h]
  by_cases hall : trailing ps = ps.length
  · rw [if_pos hall, hall]
    rfl
  · rw [if_neg hall]

theorem trailing_singleton (h : p.high = true) : trailing [p] = 1 := by
  rw [trailing_cons, h]
  rfl

/-- A high surrogate takes the piece behind it away. -/
theorem odd_trailing_cons_cons (h : p.high = true) (q : Piece) (ps : List Piece) :
    Odd (trailing (p :: q :: ps)) ↔ Odd (trailing ps) := by
  have hle := trailing_le ps
  rw [trailing_cons p, trailing_cons q, h, List.length_cons]
  by_cases hall : trailing ps = ps.length
  · rw [if_pos hall, hall]
    cases q.high
    · rw [if_neg (by simp)]
      rfl
    · rw [if_pos (by simp)]
      simp [Nat.odd_add_one]
  · rw [if_neg hall, if_neg (by omega)]

/-! ## What the pieces stand for -/

theorem decode_pieces_plain {c : UInt8} (h : (Piece.plain c).Ok) (ps : List Piece) :
    decode (pieces (.plain c :: ps)) = (decode (pieces ps)).map (c :: ·) := decode_plain h

theorem decode_pieces_short {e b : UInt8} (h : (Piece.short e b).Ok) (ps : List Piece) :
    decode (pieces (.short e b :: ps)) = (decode (pieces ps)).map (b :: ·) := decode_short h

/-- Only an escape has the letter `u` behind a backslash. -/
theorem pieces_eq_unicode {x y : UInt8} (hok : ∀ p ∈ ps, p.Ok) (hx : x = backslash)
    (hy : y = letterU) (h : pieces ps = x :: y :: l) :
    ∃ a b c d m ps', ps = .unicode a b c d m :: ps' ∧ l = [a, b, c, d] ++ pieces ps' := by
  subst hx hy
  cases ps with
  | nil => exact absurd h nofun
  | cons p ps =>
    obtain ⟨hp, -⟩ := List.forall_mem_cons.mp hok
    rw [pieces_cons] at h
    cases p with
    | plain c =>
      obtain rfl : c = backslash := (List.cons.inj h).1
      exact absurd hp not_isPlain_backslash
    | short e b =>
      obtain rfl : e = letterU := (List.cons.inj (List.cons.inj h).2).1
      exact absurd hp nofun
    | unicode a b c d m =>
      exact ⟨a, b, c, d, m, ps, rfl, (List.cons.inj (List.cons.inj h).2).2.symm⟩

/-- A number stands for a character of its own, or it is a high surrogate in front of a low one. -/
theorem decode_pieces_unicode {a b c d : UInt8} {n : Nat} {r : List UInt8}
    (hok : ∀ p ∈ Piece.unicode a b c d n :: ps, p.Ok)
    (h : decode (pieces (.unicode a b c d n :: ps)) = some r) :
    ((n < 0xd800 ∨ 0xe000 ≤ n) ∧ ∃ r', decode (pieces ps) = some r' ∧ r = encode n ++ r') ∨
    ((0xd800 ≤ n ∧ n < 0xdc00) ∧ ∃ a' b' c' d' m ps', ps = .unicode a' b' c' d' m :: ps' ∧
      (0xdc00 ≤ m ∧ m < 0xe000) ∧ ∃ r', decode (pieces ps') = some r' ∧
        r = encode (0x10000 + (n - 0xd800) * 0x400 + (m - 0xdc00)) ++ r') := by
  obtain ⟨hn, hps⟩ := List.forall_mem_cons.mp hok
  change decode (backslash :: letterU :: a :: b :: c :: d :: pieces ps) = _ at h
  change Hexadecimal.number _ = _ at hn
  rw [decode, if_neg not_isPlain_backslash, if_pos rfl, if_pos rfl, hn] at h
  dsimp only at h
  by_cases hscalar : n < 0xd800 ∨ 0xe000 ≤ n
  · rw [if_pos hscalar] at h
    obtain ⟨r', hr', rfl⟩ := Option.map_eq_some_iff.mp h
    exact .inl ⟨hscalar, r', hr', rfl⟩
  rw [if_neg hscalar] at h
  refine .inr ?_
  rcases hl : pieces ps with _ | ⟨x, _ | ⟨y, _ | ⟨a', _ | ⟨b', _ | ⟨c', _ | ⟨d', l⟩⟩⟩⟩⟩⟩
  case cons.cons.cons.cons.cons.cons =>
    rw [hl] at h
    dsimp only at h
    cases hm : Hexadecimal.number [a', b', c', d'] with
    | none =>
      rw [hm] at h
      cases h
    | some m =>
      rw [hm] at h
      dsimp only at h
      by_cases hpair : x = backslash ∧ y = letterU ∧ n < 0xdc00 ∧ 0xdc00 ≤ m ∧ m < 0xe000
      · rw [if_pos hpair] at h
        obtain ⟨hx, hy, hlt, hlow⟩ := hpair
        obtain ⟨r', hr', rfl⟩ := Option.map_eq_some_iff.mp h
        obtain ⟨a'', b'', c'', d'', m', ps', rfl, hrest⟩ := pieces_eq_unicode hps hx hy hl
        obtain ⟨hm', -⟩ := List.forall_mem_cons.mp hps
        simp only [List.cons_append, List.nil_append, List.cons.injEq] at hrest
        obtain ⟨rfl, rfl, rfl, rfl, rfl⟩ := hrest
        obtain rfl : m = m' := Option.some.inj (hm.symm.trans hm')
        exact ⟨⟨by omega, hlt⟩, a', b', c', d', m, ps', rfl, hlow, r', hr', rfl⟩
      · rw [if_neg hpair] at h
        cases h
  all_goals
    rw [hl] at h
    cases h

/-- A character of the basic plane. -/
theorem encode_eq {n : Nat} (h : n < 0xd800 ∨ 0xe000 ≤ n ∧ n < 0x110000) : encode n =
    if n < 0x80 then [UInt8.ofNat n]
    else if n < 0x800 then [UInt8.ofNat (n / 64 % 32 + 0xc0), UInt8.ofNat (n % 64 + 0x80)]
    else if n < 0x10000 then
      [UInt8.ofNat (n / 4096 % 16 + 0xe0), UInt8.ofNat (n / 64 % 64 + 0x80),
        UInt8.ofNat (n % 64 + 0x80)]
    else
      [UInt8.ofNat (n / 262144 % 8 + 0xf0), UInt8.ofNat (n / 4096 % 64 + 0x80),
        UInt8.ofNat (n / 64 % 64 + 0x80), UInt8.ofNat (n % 64 + 0x80)] := by
  have hvalid : n.isValidChar := h.imp_right fun h ↦ ⟨by omega, h.2⟩
  have hval : (Char.ofNat n).val.toNat = n := by
    rw [Char.ofNat, dif_pos hvalid]
    rfl
  rw [encode, String.utf8EncodeChar, hval]
  simp only [Nat.le_iff_lt_add_one, Nat.reduceAdd]

end Cmem.JsonString
