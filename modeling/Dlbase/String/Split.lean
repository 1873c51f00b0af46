import Dlbase.Lib.Split
import Dlbase.String.Model

/-!
# Searching, splitting and replacing

A pointer into a text with the length of what is left of it is the list of the characters from
there on.  An array is the list of its elements; a `dl_list` is the list of its parts.  All
allocations succeed.
-/

namespace Dlbase.DlString

open Cmem

/-- A `dl_str` that points into a text: the characters from its data on, and its length. -/
structure Str where
  /-- What may be read from the data on. -/
  data : List UInt8
  /-- The length. -/
  len : Nat
deriving DecidableEq, Repr

/-- The characters of a `dl_str`. -/
def Str.bytes (str : Str) : List UInt8 := str.data.take str.len

/-- A length as an `int`. -/
def toInt (n : Nat) : Int := (BitVec.ofNat 32 n).toInt

/-! ## Single characters -/

/-- `dl_strnchr`: how far behind the beginning the character is. -/
def strnchr (c : UInt8) : List UInt8 → Int → Exec (Option Nat)
  | [], len => if len = 0 then .ok none else Exec.undef
  | x :: str, len =>
    if len = 0 then .ok none
    else if x = c then .ok (some 0)
    else do
      let cur ← strnchr c str (len - 1)
      pure (cur.map (· + 1))

theorem strnchr_lt {c : UInt8} {str : List UInt8} {len : Int} {cur : Nat}
    (h : strnchr c str len = .ok (some cur)) : cur < str.length := by
  induction str generalizing len cur with
  | nil =>
    rw [strnchr] at h
    split_ifs at h
    · cases h
    · exact absurd h (Exec.undef_ne_ok _)
  | cons x str ih =>
    rw [strnchr] at h
    split_ifs at h
    · cases h
    · obtain rfl := Option.some.inj (Except.ok.inj h)
      exact Nat.succ_pos _
    · obtain ⟨k, hk, h⟩ := Exec.bind_eq_ok.mp h
      obtain ⟨j, rfl, rfl⟩ := Option.map_eq_some_iff.mp (Except.ok.inj h)
      exact Nat.succ_lt_succ (ih hk)

/-- The loop of `dl_split_by_c`, from `begin` on.  A character that has been found is in front of
the end. -/
def splitByC (c : UInt8) (begin : List UInt8) : Exec (List Str) :=
  match h : strnchr c begin (toInt begin.length) with
  | .error e => .error e
  | .ok none => .ok [⟨begin, begin.length⟩]
  | .ok (some cur) => do
    let arr ← splitByC c (begin.drop (cur + 1))
    pure (⟨begin, cur⟩ :: arr)
termination_by begin.length
decreasing_by
  have hlt := strnchr_lt h
  rw [List.length_drop]
  omega

/-! ## Strings -/

/-- The loops of `dl_strnstr`; `s2` is behind the first character `c2`. -/
def strnstrLoop (c2 : UInt8) (s2 : List UInt8) : List UInt8 → Option Nat
  | [] => none
  | c1 :: s1 =>
    if c1 = 0 then none
    else if c1 ≠ c2 then (strnstrLoop c2 s2 s1).map (· + 1)
    else if s2.length > s1.length then none
    else if s1.take s2.length ≠ s2 then (strnstrLoop c2 s2 s1).map (· + 1)
    else some 0

/-- `dl_strnstr`: how far behind the beginning of `s1` the string `s2` is. -/
def strnstr (s1 : List UInt8) : List UInt8 → Option Nat
  | [] => none
  | c2 :: s2 => strnstrLoop c2 s2 s1

/-- `dl_strnstr` stops at a null character. -/
theorem strnstr_eq {s2 : List UInt8} (hs2 : s2 ≠ []) (s1 : List UInt8) :
    strnstr s1 s2 = findSep (· = 0) s2 s1 := by
  cases s2 with
  | nil => exact absurd rfl hs2
  | cons c2 s2 =>
    change strnstrLoop c2 s2 s1 = _
    induction s1 with
    | nil => rfl
    | cons c1 s1 ih =>
      rw [strnstrLoop, findSep, ih]
      by_cases h0 : c1 = 0
      · rw [if_pos h0, if_pos h0]
      have hcons : c2 :: s2 <+: c1 :: s1 ↔ c2 = c1 ∧ s2 <+: s1 := List.cons_prefix_cons
      rw [if_neg h0, if_neg h0]
      by_cases hc : c1 = c2
      · rw [if_neg (not_not.mpr hc)]
        by_cases hlen : s2.length > s1.length
        · -- no later position leaves room for the string either
          have hnone : ∀ i, findSep (· = 0) (c2 :: s2) s1 ≠ some i := by
            intro i hi
            have hle := (findSep_eq_some hi).2.1.length_le
            rw [List.length_drop, List.length_cons] at hle
            omega
          have hnot : ¬ c2 :: s2 <+: c1 :: s1 := fun h ↦ by
            have hle := h.length_le
            rw [List.length_cons, List.length_cons] at hle
            omega
          rw [if_pos hlen, if_neg hnot, Option.eq_none_iff_forall_ne_some.mpr hnone]
          rfl
        · have hpre : s1.take s2.length = s2 ↔ c2 = c1 ∧ s2 <+: s1 := by
            rw [and_iff_right hc.symm, List.prefix_iff_eq_take]
            exact eq_comm
          rw [if_neg hlen]
          by_cases heq : s1.take s2.length = s2
          · rw [if_neg (not_not.mpr heq), if_pos (hcons.mpr (hpre.mp heq))]
          · rw [if_pos heq, if_neg (hcons.not.mpr (hpre.not.mp heq))]
      · rw [if_pos hc, if_neg fun h ↦ hc (hcons.mp h).1.symm]

/-- Behind each place where the string is found there is less left. -/
theorem length_drop_strnstr {s1 s2 : List UInt8} {res : Nat} (h : strnstr s1 s2 = some res) :
    (s1.drop (res + s2.length)).length < s1.length := by
  cases s2 with
  | nil => cases h
  | cons c2 s2 =>
    rw [strnstr_eq (List.cons_ne_nil _ _)] at h
    exact length_drop_lt (List.cons_ne_nil _ _) h

/-- The loop of `dl_substr_num`; `n` is an `int`. -/
def substrNumLoop (s2 : List UInt8) (n : Int) (s1 : List UInt8) : Exec Int :=
  match _h : strnstr s1 s2 with
  | none => .ok n
  | some res =>
    if n = 2 ^ 31 - 1 then Exec.undef
    else if (s1.drop (res + s2.length)).length < s2.length then .ok (n + 1)
    else substrNumLoop s2 (n + 1) (s1.drop (res + s2.length))
termination_by s1.length
decreasing_by exact length_drop_strnstr ‹_›

/-- `dl_substr_num`. -/
def substrNum (s1 s2 : List UInt8) : Exec Int := substrNumLoop s2 0 s1

/-- The loop of `dl_split_by_s` and of `dl_split_by_s_l`, which differ in how they add a string
to the array or list. -/
def splitLoop {γ : Type} (push : γ → Str → γ) (s2 : List UInt8) (acc : γ) (s1 : List UInt8) : γ :=
  match _h : strnstr s1 s2 with
  | none => push acc ⟨s1, s1.length⟩
  | some res => splitLoop push s2 (push acc ⟨s1, res⟩) (s1.drop (res + s2.length))
termination_by s1.length
decreasing_by exact length_drop_strnstr ‹_›

/-- `dl_split_by_s`. -/
def splitByS (s1 s2 : List UInt8) : List Str := splitLoop (fun arr str ↦ arr ++ [str]) s2 [] s1

/-! ## Lists -/

/-- A `dl_list`. -/
structure DlList (α : Type) where
  /-- The parts with their elements. -/
  parts : List (List α)
  /-- The number of elements for which a part has room. -/
  nalloc : Nat

namespace DlList

variable {α : Type}

/-- `dl_list_create`. -/
def create (n : Nat) : DlList α := ⟨[[]], n⟩

/-- `dl_list_push`, and storing the new element. -/
def push (l : DlList α) (x : α) : DlList α :=
  match l.parts.getLast? with
  | none => l
  | some last =>
    if last.length = l.nalloc then { l with parts := l.parts ++ [[x]] }
    else { l with parts := l.parts.dropLast ++ [last ++ [x]] }

end DlList

/-- `dl_split_by_s_l`. -/
def splitByS_l (s1 s2 : List UInt8) : DlList Str := splitLoop DlList.push s2 (DlList.create 1) s1

/-! ## Replacing -/

/-- The first loop of `dl_str_replace`: the list, and the `int` that adds up the length. -/
def replaceLoop (s2 : List UInt8) (len3 : Nat) (list : DlList Str) (total : BitVec 32)
    (s1 : List UInt8) : DlList Str × BitVec 32 :=
  match _h : strnstr s1 s2 with
  | none => (list.push ⟨s1, s1.length⟩, total + BitVec.ofNat 32 s1.length)
  | some res =>
    replaceLoop s2 len3 (list.push ⟨s1, res⟩) (total + BitVec.ofNat 32 (res + len3))
      (s1.drop (res + s2.length))
termination_by s1.length
decreasing_by exact length_drop_strnstr ‹_›

/-- The second loop: of each part, the first element is copied, and behind all but the last one
the replacement. -/
def copyParts (s3 : List UInt8) : List (List Str) → Exec (List UInt8)
  | [] => .ok []
  | part :: parts =>
    match part with
    | [] => Exec.undef
    | str :: _ =>
      if str.len > str.data.length then Exec.undef
      else if parts = [] then .ok str.bytes
      else do
        let rest ← copyParts s3 parts
        pure (str.bytes ++ (s3 ++ rest))

/-- `dl_str_replace`.  What is copied must fit in the memory that has been allocated for it. -/
def strReplace (s1 s2 s3 : List UInt8) : Exec Str := do
  let (list, total) := replaceLoop s2 s3.length (DlList.create 1) 0 s1
  let size := (total.toInt % 2 ^ 64).toNat
  let data ← copyParts s3 list.parts
  if data.length > size then Exec.undef
  else pure ⟨data, size⟩

end Dlbase.DlString
