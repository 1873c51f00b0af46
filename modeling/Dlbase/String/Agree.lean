import Dlbase.String.Split

/-!
# Splitting, counting and replacing agree

All the loops cut the text at the same places, those at which the separator is found up to the
first null character.
-/

namespace Dlbase.DlString

open Cmem

variable {s1 s2 s3 : List UInt8} {res : Nat}

/-! ## Splitting -/

theorem splitLoop_none {γ : Type} (push : γ → Str → γ) (acc : γ) (h : strnstr s1 s2 = none) :
    splitLoop push s2 acc s1 = push acc ⟨s1, s1.length⟩ := by
  rw [splitLoop]
  split
  · rfl
  · next hres => cases h.symm.trans hres

theorem splitLoop_some {γ : Type} (push : γ → Str → γ) (acc : γ) (h : strnstr s1 s2 = some res) :
    splitLoop push s2 acc s1 =
      splitLoop push s2 (push acc ⟨s1, res⟩) (s1.drop (res + s2.length)) := by
  rw [splitLoop]
  split
  · next hres => cases h.symm.trans hres
  · next k hres =>
    obtain rfl := Option.some.inj (h.symm.trans hres)
    rfl

/-- The strings into which the text is split. -/
def strs (s2 s1 : List UInt8) : List Str :=
  match _h : strnstr s1 s2 with
  | none => [⟨s1, s1.length⟩]
  | some res => ⟨s1, res⟩ :: strs s2 (s1.drop (res + s2.length))
termination_by s1.length
decreasing_by exact length_drop_strnstr ‹_›

theorem strs_none (h : strnstr s1 s2 = none) : strs s2 s1 = [⟨s1, s1.length⟩] := by
  rw [strs]
  split
  · rfl
  · next hres => exact nomatch h.symm.trans hres

theorem strs_some (h : strnstr s1 s2 = some res) :
    strs s2 s1 = ⟨s1, res⟩ :: strs s2 (s1.drop (res + s2.length)) := by
  rw [strs]
  split
  · next hres => exact nomatch h.symm.trans hres
  · next k hres =>
    obtain rfl := Option.some.inj (h.symm.trans hres)
    rfl

theorem strs_ne_nil (s2 s1 : List UInt8) : strs s2 s1 ≠ [] := by
  cases h : strnstr s1 s2 with
  | none => rw [strs_none h]; exact List.cons_ne_nil _ _
  | some res => rw [strs_some h]; exact List.cons_ne_nil _ _

/-- What holds of the rest of the text behind the separator holds of the text. -/
theorem strs_induction (s2 : List UInt8) {motive : List UInt8 → Prop}
    (last : ∀ s1, strnstr s1 s2 = none → motive s1)
    (more : ∀ s1 res, strnstr s1 s2 = some res → motive (s1.drop (res + s2.length)) → motive s1)
    (s1 : List UInt8) : motive s1 := by
  induction hn : s1.length using Nat.strongRecOn generalizing s1 with
  | ind n ih =>
    cases h : strnstr s1 s2 with
    | none => exact last s1 h
    | some res => exact more s1 res h (ih _ (hn ▸ length_drop_strnstr h) _ rfl)

/-- The strings are added one after the other. -/
theorem splitLoop_eq {γ : Type} (push : γ → Str → γ) (acc : γ) (s2 s1 : List UInt8) :
    splitLoop push s2 acc s1 = (strs s2 s1).foldl push acc := by
  induction s1 using strs_induction s2 generalizing acc with
  | last s1 h => rw [splitLoop_none push acc h, strs_none h]; rfl
  | more s1 res h ih => rw [splitLoop_some push acc h, strs_some h, ih]; rfl

theorem splitByS_eq (s1 s2 : List UInt8) : splitByS s1 s2 = strs s2 s1 := by
  have happend : ∀ (xs arr : List Str), xs.foldl (fun arr str ↦ arr ++ [str]) arr = arr ++ xs := by
    intro xs
    induction xs with
    | nil => exact fun arr ↦ (List.append_nil arr).symm
    | cons x xs ih => exact fun arr ↦ by rw [List.foldl_cons, ih, List.append_assoc]; rfl
  rw [splitByS, splitLoop_eq, happend, List.nil_append]

/-- A list whose parts have room for one element has one part for each. -/
theorem foldl_push (x : Str) (xs : List Str) :
    (x :: xs).foldl DlList.push (DlList.create 1) = ⟨(x :: xs).map fun y ↦ [y], 1⟩ := by
  have hpush : ∀ (ys : List Str) (y z : Str),
      DlList.push ⟨(ys ++ [y]).map fun y ↦ [y], 1⟩ z =
        ⟨((ys ++ [y]) ++ [z]).map fun y ↦ [y], 1⟩ := by
    intro ys y z
    simp only [DlList.push, List.map_append, List.map_cons, List.map_nil, List.getLast?_concat,
      List.length_singleton, if_true]
  have hall : ∀ (xs ys : List Str) (y : Str),
      xs.foldl DlList.push ⟨(ys ++ [y]).map fun y ↦ [y], 1⟩ =
        ⟨((ys ++ [y]) ++ xs).map fun y ↦ [y], 1⟩ := by
    intro xs
    induction xs with
    | nil => exact fun ys y ↦ by rw [List.append_nil]; rfl
    | cons z xs ih =>
      intro ys y
      rw [List.foldl_cons, hpush, ih, List.append_assoc (ys ++ [y])]
      rfl
  exact hall xs [] x

theorem splitByS_l_parts (s1 s2 : List UInt8) :
    (splitByS_l s1 s2).parts = (strs s2 s1).map fun x ↦ [x] := by
  rw [splitByS_l, splitLoop_eq]
  cases h : strs s2 s1 with
  | nil => exact absurd h (strs_ne_nil s2 s1)
  | cons x xs => rw [foldl_push]

/-! ## The characters of the pieces -/

/-- The strings are the pieces of the text. -/
theorem map_bytes_strs (hs2 : s2 ≠ []) (s1 : List UInt8) :
    (strs s2 s1).map Str.bytes = splitSep (· = 0) s2 s1 := by
  induction s1 using strs_induction s2 with
  | last s1 h =>
    rw [strs_none h, splitSep_none ((strnstr_eq hs2 s1).symm.trans h)]
    simp only [List.map_cons, List.map_nil, Str.bytes, List.take_length]
  | more s1 res h ih =>
    rw [strs_some h, splitSep_some hs2 ((strnstr_eq hs2 s1).symm.trans h), List.map_cons, ih]
    rfl

theorem strs_len_le (hs2 : s2 ≠ []) (s1 : List UInt8) :
    ∀ x ∈ strs s2 s1, x.len ≤ x.data.length := by
  induction s1 using strs_induction s2 with
  | last s1 h =>
    rw [strs_none h]
    exact List.forall_mem_singleton.mpr (Nat.le_refl _)
  | more s1 res h ih =>
    rw [strs_some h, List.forall_mem_cons]
    exact ⟨Nat.le_of_lt (findSep_eq_some ((strnstr_eq hs2 s1).symm.trans h)).1, ih⟩

/-! ## Counting -/

theorem substrNumLoop_eq (hs2 : s2 ≠ []) (s1 : List UInt8) (n : Int)
    (hn : n + s1.length < 2 ^ 31) :
    substrNumLoop s2 n s1 = .ok (n + ((strs s2 s1).length - 1)) := by
  induction s1 using strs_induction s2 generalizing n with
  | last s1 h =>
    have hloop : substrNumLoop s2 n s1 = .ok n := by
      rw [substrNumLoop]
      split
      · rfl
      · next hres => cases h.symm.trans hres
    rw [hloop, strs_none h, List.length_singleton]
    simp
  | more s1 res h ih =>
    have hlt := length_drop_strnstr h
    have hloop : substrNumLoop s2 n s1 = if n = 2 ^ 31 - 1 then Exec.undef
        else if (s1.drop (res + s2.length)).length < s2.length then .ok (n + 1)
        else substrNumLoop s2 (n + 1) (s1.drop (res + s2.length)) := by
      rw [substrNumLoop]
      split
      · next hres => cases h.symm.trans hres
      · next k hres =>
        obtain rfl := Option.some.inj (h.symm.trans hres)
        rfl
    rw [hloop, strs_some h, List.length_cons, if_neg (by omega)]
    split_ifs with hshort
    · -- the rest is too short for the separator
      have hnone : strnstr (s1.drop (res + s2.length)) s2 = none := by
        refine Option.eq_none_iff_forall_ne_some.mpr fun i hi ↦ ?_
        have hle := (findSep_eq_some ((strnstr_eq hs2 _).symm.trans hi)).2.1.length_le
        rw [List.length_drop] at hle
        omega
      rw [strs_none hnone, List.length_singleton]
      simp
    · have hpos := List.length_pos_iff.mpr (strs_ne_nil s2 (s1.drop (res + s2.length)))
      rw [ih (n + 1) (by omega)]
      congr 1
      omega

/-! ## Replacing -/

theorem replaceLoop_eq (hs2 : s2 ≠ []) (s1 s3 : List UInt8) (list : DlList Str)
    (total : BitVec 32) : replaceLoop s2 s3.length list total s1 =
      (splitLoop DlList.push s2 list s1, total +
        BitVec.ofNat 32 (s3.intercalate (splitSep (· = 0) s2 s1)).length) := by
  induction s1 using strs_induction s2 generalizing list total with
  | last s1 h =>
    rw [splitLoop_none _ _ h, splitSep_none ((strnstr_eq hs2 s1).symm.trans h),
      List.intercalate_singleton, replaceLoop]
    split
    · rfl
    · next hres => cases h.symm.trans hres
  | more s1 res h ih =>
    have hfind := (strnstr_eq hs2 s1).symm.trans h
    have hloop : replaceLoop s2 s3.length list total s1 =
        replaceLoop s2 s3.length (list.push ⟨s1, res⟩)
          (total + BitVec.ofNat 32 (res + s3.length)) (s1.drop (res + s2.length)) := by
      rw [replaceLoop]
      split
      · next hres => cases h.symm.trans hres
      · next k hres =>
        obtain rfl := Option.some.inj (h.symm.trans hres)
        rfl
    have hlen : (s1.take res).length = res :=
      List.length_take_of_le (Nat.le_of_lt (findSep_eq_some hfind).1)
    rw [hloop, ih, splitLoop_some _ _ h, splitSep_some hs2 hfind,
      List.intercalate_cons_of_ne_nil (splitSep_ne_nil _), List.length_append, List.length_append,
      hlen, BitVec.add_assoc, ← BitVec.ofNat_add]

theorem copyParts_eq (s3 : List UInt8) (xs : List Str) (h : ∀ x ∈ xs, x.len ≤ x.data.length) :
    copyParts s3 (xs.map fun x ↦ [x]) = .ok (s3.intercalate (xs.map Str.bytes)) := by
  induction xs with
  | nil => rfl
  | cons x xs ih =>
    rw [List.forall_mem_cons] at h
    rw [List.map_cons, copyParts, if_neg (Nat.not_lt.mpr h.1), ih h.2, List.map_cons]
    cases xs with
    | nil => rw [List.map_nil, if_pos rfl, List.map_nil, List.intercalate_singleton]
    | cons y ys =>
      rw [if_neg (by simp), List.map_cons, List.intercalate_cons_of_ne_nil (List.cons_ne_nil _ _),
        List.append_assoc]
      rfl

/-- The pieces of the text joined by the replacement. -/
def replaced (s1 s2 s3 : List UInt8) : List UInt8 := s3.intercalate (splitSep (· = 0) s2 s1)

/-- The size that `dl_str_replace` allocates for `n` characters. -/
def replaceSize (n : Nat) : Nat := ((BitVec.ofNat 32 n).toInt % 2 ^ 64).toNat

theorem strReplace_eq (hs2 : s2 ≠ []) (s1 s3 : List UInt8) : strReplace s1 s2 s3 =
    if (replaced s1 s2 s3).length > replaceSize (replaced s1 s2 s3).length then Exec.undef
    else .ok ⟨replaced s1 s2 s3, replaceSize (replaced s1 s2 s3).length⟩ := by
  have hparts : (splitLoop DlList.push s2 (DlList.create 1) s1).parts =
      (strs s2 s1).map fun x ↦ [x] := splitByS_l_parts s1 s2
  have hzero : ∀ x : BitVec 32, 0 + x = x := BitVec.zero_add
  simp only [strReplace, replaceLoop_eq hs2, hparts, copyParts_eq s3 _ (strs_len_le hs2 s1),
    map_bytes_strs hs2, Exec.ok_bind, hzero]
  rfl

theorem length_replaced_le (hs2 : s2 ≠ []) (s1 s3 : List UInt8) :
    (replaced s1 s2 s3).length ≤ s1.length + s1.length * s3.length := by
  unfold replaced
  induction s1 using strs_induction s2 with
  | last s1 h =>
    rw [splitSep_none ((strnstr_eq hs2 s1).symm.trans h), List.intercalate_singleton]
    exact Nat.le_add_right _ _
  | more s1 res h ih =>
    have hfind := (strnstr_eq hs2 s1).symm.trans h
    have hlt := length_drop_lt hs2 hfind
    have hmul : ((s1.drop (res + s2.length)).length + 1) * s3.length ≤ s1.length * s3.length :=
      Nat.mul_le_mul_right _ hlt
    have hcut := congrArg List.length (take_append_drop_of_findSep hfind)
    rw [Nat.succ_mul] at hmul
    rw [splitSep_some hs2 hfind, List.intercalate_cons_of_ne_nil (splitSep_ne_nil _)]
    simp only [List.length_append] at hcut ⊢
    omega

/-- The allocated size is the length of the result just if that is the value of an `int`. -/
theorem replaceSize_eq_iff {n : Nat} (hn : n < 2 ^ 64 - 2 ^ 31) :
    replaceSize n = n ↔ n < 2 ^ 31 := by
  rw [replaceSize, BitVec.toInt_eq_toNat_cond, BitVec.toNat_ofNat]
  split_ifs <;> omega

/-! ## Single characters -/

theorem strnchr_eq {c : UInt8} (h0 : 0 ∉ s1) :
    strnchr c s1 s1.length = .ok (findSep (· = 0) [c] s1) := by
  induction s1 with
  | nil => rfl
  | cons x s1 ih =>
    obtain ⟨hx, h0⟩ := not_or.mp (List.mem_cons.not.mp h0)
    have hlen : ((x :: s1).length : Int) - 1 = s1.length := by
      rw [List.length_cons]
      omega
    have hpre : [c] <+: x :: s1 ↔ x = c := by
      rw [List.cons_prefix_cons, and_iff_left (List.nil_prefix)]
      exact eq_comm
    rw [strnchr, findSep, if_neg (by rw [List.length_cons]; omega), if_neg (Ne.symm hx), hlen,
      ih h0]
    by_cases hc : x = c
    · rw [if_pos hc, if_pos (hpre.mpr hc)]
    · rw [if_neg hc, if_neg (hpre.not.mpr hc)]
      rfl

theorem toInt_eq {n : Nat} (hn : n < 2 ^ 31) : toInt n = n := by
  rw [toInt, BitVec.toInt_eq_toNat_cond, BitVec.toNat_ofNat]
  split_ifs <;> omega

/-- Splitting at a character is splitting at the string of this character. -/
theorem splitByC_eq {c : UInt8} (s1 : List UInt8) (h0 : 0 ∉ s1) (hlen : s1.length < 2 ^ 31) :
    splitByC c s1 = .ok (strs [c] s1) := by
  have hc : [c] ≠ [] := List.cons_ne_nil _ _
  induction s1 using strs_induction [c] with
  | last s1 h =>
    have hchr : strnchr c s1 (toInt s1.length) = .ok none := by
      rw [toInt_eq hlen, strnchr_eq h0, ← strnstr_eq hc, h]
    rw [splitByC, strs_none h]
    split
    · next h' => cases hchr.symm.trans h'
    · rfl
    · next h' => cases hchr.symm.trans h'
  | more s1 res h ih =>
    have hchr : strnchr c s1 (toInt s1.length) = .ok (some res) := by
      rw [toInt_eq hlen, strnchr_eq h0, ← strnstr_eq hc, h]
    have hlt := length_drop_strnstr h
    have hdrop := ih (fun hmem ↦ h0 (List.mem_of_mem_drop hmem)) (Nat.lt_trans hlt hlen)
    rw [splitByC, strs_some h]
    split
    · next h' => cases hchr.symm.trans h'
    · next h' => cases hchr.symm.trans h'
    · next cur h' =>
      obtain rfl := Option.some.inj (Except.ok.inj (hchr.symm.trans h'))
      rw [List.length_singleton] at hdrop ⊢
      rw [hdrop]
      rfl

/-! ## All together -/

/-- What the functions return for one text fits together. -/
structure Agree (s1 s2 s3 : List UInt8) : Prop where
  /-- The array and the list have the same pieces. -/
  list : (splitByS_l s1 s2).parts.flatten = splitByS s1 s2
  /-- The pieces joined by the separator are the text. -/
  join : s2.intercalate ((splitByS s1 s2).map Str.bytes) = s1
  /-- The separator is counted once less than there are pieces. -/
  count : substrNum s1 s2 = .ok ((splitByS s1 s2).length - 1)
  /-- Replacing joins the pieces by the replacement. -/
  replace : strReplace s1 s2 s3 = .ok ⟨s3.intercalate ((splitByS s1 s2).map Str.bytes),
    (s3.intercalate ((splitByS s1 s2).map Str.bytes)).length⟩
  /-- No piece contains the separator. -/
  free : 0 ∉ s1 → ∀ str ∈ splitByS s1 s2, ¬ s2 <:+: str.bytes
  /-- A separator of one character gives the same pieces as the character. -/
  char : 0 ∉ s1 → ∀ c ≠ 0, s2 = [c] → splitByC c s1 = .ok (splitByS s1 s2)

/-- The allocated size is that of the result just if it is the value of an `int`. -/
theorem replaceSize_replaced (hs2 : s2 ≠ []) (h1 : s1.length < 2 ^ 31) (h3 : s3.length < 2 ^ 31) :
    replaceSize (replaced s1 s2 s3).length = (replaced s1 s2 s3).length ↔
      (replaced s1 s2 s3).length < 2 ^ 31 := by
  have hmul : s1.length * s3.length ≤ 2 ^ 31 * 2 ^ 31 :=
    Nat.mul_le_mul (Nat.le_of_lt h1) (Nat.le_of_lt h3)
  have hle := length_replaced_le hs2 s1 s3
  exact replaceSize_eq_iff (by omega)

theorem map_bytes_splitByS (hs2 : s2 ≠ []) (s1 : List UInt8) :
    (splitByS s1 s2).map Str.bytes = splitSep (· = 0) s2 s1 := by
  rw [splitByS_eq, map_bytes_strs hs2]

theorem Agree.length_lt (h : Agree s1 s2 s3) (hs2 : s2 ≠ []) (h1 : s1.length < 2 ^ 31)
    (h3 : s3.length < 2 ^ 31) : (replaced s1 s2 s3).length < 2 ^ 31 := by
  have hrep := h.replace
  rw [map_bytes_splitByS hs2, strReplace_eq hs2] at hrep
  split_ifs at hrep
  · exact absurd hrep (Exec.undef_ne_ok _)
  · exact (replaceSize_replaced hs2 h1 h3).mp (congrArg Str.len (Except.ok.inj hrep))

/-- Splitting, counting and replacing agree if and only if the length of the text with the
replacements is the value of an `int`. -/
theorem agree_iff (hs2 : s2 ≠ []) (h1 : s1.length < 2 ^ 31) (h3 : s3.length < 2 ^ 31) :
    Agree s1 s2 s3 ↔ (replaced s1 s2 s3).length < 2 ^ 31 := by
  have hbytes := map_bytes_splitByS hs2 s1
  constructor
  · exact fun h ↦ h.length_lt hs2 h1 h3
  · intro hlt
    refine ⟨?_, ?_, ?_, ?_, fun h0 str hstr ↦ ?_, ?_⟩
    · rw [splitByS_l_parts, splitByS_eq]
      induction strs s2 s1 with
      | nil => rfl
      | cons x xs ih => rw [List.map_cons, List.flatten_cons, ih]; rfl
    · rw [hbytes, intercalate_splitSep hs2]
    · rw [substrNum, substrNumLoop_eq hs2 s1 0 (by omega), splitByS_eq, Int.zero_add]
    · have hsize := (replaceSize_replaced hs2 h1 h3).mpr hlt
      rw [hbytes, strReplace_eq hs2, hsize, if_neg (Nat.lt_irrefl _)]
      rfl
    · have hfree : ∀ p ∈ splitSep (· = 0) s2 s1, ¬ s2 <:+: p :=
        not_infix_splitSep hs2 fun c hc he ↦ h0 (he ▸ hc)
      exact hfree _ (hbytes ▸ List.mem_map_of_mem hstr)
    · rintro h0 c - rfl
      rw [splitByC_eq s1 h0 h1, splitByS_eq]

theorem agree_one : Agree [97, 44] [44] [98] :=
  (agree_iff (by decide) (by decide) (by decide)).mpr (by
    rw [replaced, splitSep_some (i := 1) (by decide) rfl, splitSep_none rfl]
    decide)

theorem length_replaced_four (s3 : List UInt8) :
    (replaced [97, 97, 97, 97] [97] s3).length = 4 * s3.length := by
  have hsep : ([97] : List UInt8) ≠ [] := by decide
  rw [replaced, splitSep_some (i := 0) hsep rfl, splitSep_some (i := 0) hsep rfl,
    splitSep_some (i := 0) hsep rfl, splitSep_some (i := 0) hsep rfl, splitSep_none rfl]
  simp
  omega

/-- Four replacements of 2³⁰ characters each, for which no memory is allocated at all. -/
theorem not_agree_long :
    ¬ Agree [97, 97, 97, 97] [97] (List.replicate (2 ^ 30) 98) := by
  intro h
  have hlen := List.length_replicate (n := 2 ^ 30) (a := (98 : UInt8))
  generalize List.replicate (2 ^ 30) (98 : UInt8) = s3 at h hlen
  have hlt := h.length_lt (by decide) (by decide) (by omega)
  rw [length_replaced_four] at hlt
  omega

end Dlbase.DlString
