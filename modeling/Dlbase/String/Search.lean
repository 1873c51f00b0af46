import Dlbase.String.Split

/-!
# What a search reads

`dl_strnstr` with the two pointers and the two lengths that it is given: what may be read from each
pointer on is a list, and the lengths are numbers of their own.  On texts that are as long as they
are said to be it does what `strnstr` does, and so it reads nothing else.
-/

namespace Dlbase.DlString

open Cmem

/-- `memcmp(s1, s2, n) == 0`; all `n` characters may be read. -/
def memEq (s1 s2 : List UInt8) (n : Nat) : Exec Bool :=
  if n ≤ s1.length ∧ n ≤ s2.length then .ok (s1.take n == s2.take n) else Exec.undef

/-- The loops of `dl_strnstr`, where `len` characters of the text are left, and `n` characters of
the pattern follow its first one at `s2`. -/
def strnstrScan (c2 : UInt8) (s2 : List UInt8) (n : Nat) : List UInt8 → Nat → Exec (Option Nat)
  | _, 0 => .ok none
  | [], _ + 1 => Exec.undef
  | c1 :: s1, len + 1 =>
    if c1 = 0 then .ok none
    else if c1 ≠ c2 then do
      let cur ← strnstrScan c2 s2 n s1 len
      pure (cur.map (· + 1))
    else if n > len then .ok none
    else do
      if ← memEq s1 s2 n then pure (some 0)
      else
        let cur ← strnstrScan c2 s2 n s1 len
        pure (cur.map (· + 1))

/-- `dl_strnstr`: how far behind `s1` the pattern is, if it is found. -/
def strnstrAt (s1 : List UInt8) (len : Nat) (s2 : List UInt8) (len1 : Nat) : Exec (Option Nat) :=
  if len1 = 0 then .ok none
  else match s2 with
    | [] => Exec.undef
    | c2 :: s2 => strnstrScan c2 s2 (len1 - 1) s1 len

/-! ## The search -/

variable {s1 s2 : List UInt8} {i : Nat}

/-- Within both texts the comparison is that of the characters. -/
theorem memEq_eq (h : s2.length ≤ s1.length) :
    memEq s1 s2 s2.length = .ok (s1.take s2.length == s2) := by
  rw [memEq, if_pos ⟨h, Nat.le_refl _⟩, List.take_length]

/-- The loops read only the text and the pattern. -/
theorem strnstrScan_eq (c2 : UInt8) (s2 s1 : List UInt8) :
    strnstrScan c2 s2 s2.length s1 s1.length = .ok (strnstrLoop c2 s2 s1) := by
  induction s1 with
  | nil => rfl
  | cons c1 s1 ih =>
    rw [List.length_cons, strnstrScan, strnstrLoop, ih]
    by_cases h0 : c1 = 0
    · rw [if_pos h0, if_pos h0]
    rw [if_neg h0, if_neg h0]
    by_cases hc : c1 ≠ c2
    · rw [if_pos hc, if_pos hc]
      rfl
    rw [if_neg hc, if_neg hc]
    by_cases hlen : s2.length > s1.length
    · rw [if_pos hlen, if_pos hlen]
    rw [if_neg hlen, if_neg hlen, memEq_eq (Nat.not_lt.mp hlen), Exec.ok_bind]
    by_cases heq : s1.take s2.length = s2
    · rw [if_pos (beq_iff_eq.mpr heq), if_neg (not_not.mpr heq)]
      rfl
    · rw [if_neg fun h ↦ heq (beq_iff_eq.mp h), if_pos heq]
      rfl

/-- `dl_strnstr` reads only the text and the pattern. -/
theorem strnstrAt_eq (s1 s2 : List UInt8) :
    strnstrAt s1 s1.length s2 s2.length = .ok (strnstr s1 s2) := by
  cases s2 with
  | nil => rfl
  | cons c2 s2 => exact strnstrScan_eq c2 s2 s1

/-- The pattern is in the text at position `i`, and the search does not end before. -/
structure Occurs (text pattern : List UInt8) (i : Nat) : Prop where
  /-- The pattern is not empty. -/
  one_le : 1 ≤ pattern.length
  /-- The text goes on with the pattern. -/
  at_pos : pattern <+: text.drop i
  /-- The search gets there. -/
  no_null : 0 ∉ text.take (i + 1)

/-- The first character of the text. -/
theorem occurs_zero {c : UInt8} (h : 1 ≤ s2.length) :
    Occurs (c :: s1) s2 0 ↔ c ≠ 0 ∧ s2 <+: c :: s1 := by
  refine ⟨fun ho ↦ ⟨fun hc ↦ ho.no_null (hc ▸ List.mem_cons_self), ho.at_pos⟩, fun ⟨hc, hp⟩ ↦
    ⟨h, hp, fun hm ↦ hc (List.mem_singleton.mp hm).symm⟩⟩

/-- The other characters of the text. -/
theorem occurs_succ {c : UInt8} : Occurs (c :: s1) s2 (i + 1) ↔ c ≠ 0 ∧ Occurs s1 s2 i := by
  refine ⟨fun ho ↦ ?_, fun ⟨hc, ho⟩ ↦ ⟨ho.one_le, ho.at_pos, ?_⟩⟩
  · have hnull := ho.no_null
    rw [List.take_succ_cons, List.mem_cons, not_or] at hnull
    exact ⟨fun hc ↦ hnull.1 hc.symm, ho.one_le, ho.at_pos, hnull.2⟩
  · rw [List.take_succ_cons, List.mem_cons, not_or]
    exact ⟨fun h0 ↦ hc h0.symm, ho.no_null⟩

/-- Nothing occurs in an empty text. -/
theorem not_occurs_nil : ¬ Occurs [] s2 i := fun h ↦ by
  have hle := h.at_pos.length_le
  have hpos := h.one_le
  rw [List.drop_nil, List.length_nil] at hle
  omega

/-- The search that stops at the null character finds the first occurrence. -/
theorem isLeast_of_findSep (s1 : List UInt8) (hs2 : 1 ≤ s2.length) :
    (∀ i, findSep (· = 0) s2 s1 = some i → IsLeast {i | Occurs s1 s2 i} i) ∧
      (findSep (· = 0) s2 s1 = none → ∀ i, ¬ Occurs s1 s2 i) := by
  induction s1 with
  | nil => exact ⟨(by rintro _ ⟨⟩), fun _ i ↦ not_occurs_nil⟩
  | cons c s1 ih =>
    obtain ⟨ihsome, ihnone⟩ := ih
    rw [findSep]
    by_cases hc : c = 0
    · rw [if_pos hc]
      refine ⟨(by rintro _ ⟨⟩), fun _ i ho ↦ ?_⟩
      cases i with
      | zero => exact ((occurs_zero hs2).mp ho).1 hc
      | succ i => exact (occurs_succ.mp ho).1 hc
    rw [if_neg hc]
    by_cases hp : s2 <+: c :: s1
    · rw [if_pos hp]
      refine ⟨fun i hi ↦ ?_, (by rintro ⟨⟩)⟩
      obtain rfl := Option.some.inj hi
      exact ⟨(occurs_zero hs2).mpr ⟨hc, hp⟩, fun j _ ↦ Nat.zero_le j⟩
    rw [if_neg hp]
    refine ⟨fun i hi ↦ ?_, fun hnone i ho ↦ ?_⟩
    · obtain ⟨j, hj, rfl⟩ := Option.map_eq_some_iff.mp hi
      obtain ⟨ho, hleast⟩ := ihsome j hj
      refine ⟨occurs_succ.mpr ⟨hc, ho⟩, fun k hk ↦ ?_⟩
      cases k with
      | zero => exact absurd ((occurs_zero hs2).mp hk).2 hp
      | succ k => exact Nat.succ_le_succ (hleast (occurs_succ.mp hk).2)
    · cases i with
      | zero => exact hp ((occurs_zero hs2).mp ho).2
      | succ i => exact ihnone (Option.map_eq_none_iff.mp hnone) i (occurs_succ.mp ho).2

/-- `dl_strnstr` reads nothing but the text and the pattern, and it returns the first position at
which the pattern occurs, or a null pointer if there is none. -/
theorem strnstr_first (text pattern : List UInt8) :
    ∃ r, strnstrAt text text.length pattern pattern.length = .ok r ∧
      (∀ i, r = some i ↔ IsLeast {i | Occurs text pattern i} i) ∧
      (r = none ↔ ∀ i, ¬ Occurs text pattern i) := by
  refine ⟨_, strnstrAt_eq text pattern, ?_⟩
  rcases Nat.eq_zero_or_pos pattern.length with h0 | hpos
  · have hnot : ∀ i, ¬ Occurs text pattern i := fun i ho ↦ by
      have hle := ho.one_le
      omega
    rw [List.length_eq_zero_iff.mp h0] at hnot ⊢
    exact ⟨fun i ↦ ⟨nofun, fun hi ↦ absurd hi.1 (hnot i)⟩, fun _ ↦ hnot, fun _ ↦ rfl⟩
  · rw [strnstr_eq (List.length_pos_iff.mp hpos)]
    obtain ⟨hsome, hnone⟩ := isLeast_of_findSep text hpos
    cases hr : findSep (· = 0) pattern text with
    | none =>
      exact ⟨fun i ↦ ⟨nofun, fun hi ↦ absurd hi.1 (hnone hr i)⟩, fun _ ↦ hnone hr, fun _ ↦ rfl⟩
    | some j =>
      have hj := hsome j hr
      refine ⟨fun i ↦ ⟨?_, fun hi ↦ congrArg some (hj.unique hi)⟩, nofun, fun h ↦ absurd hj.1 (h j)⟩
      rintro hji
      obtain rfl := Option.some.inj hji
      exact hj

end Dlbase.DlString
