import Dlbase.Lib.Orbit
import Dlbase.Re.Model
import Dlbase.String.Agree

/-!
# When searching comes to an end

Each search goes on where the last match ended, so the loops run as long as the matcher finds
something.  They come to an end if and only if no search begins where one has begun before; in a
subject of less than 2³¹ bytes this is to say that no match ends where its search began.  That the
replacement is right depends, too, on the offsets and on the length of the result, which are of
type `int`.
-/

namespace Dlbase.Re

open Cmem DlString

variable {m : Nat → Match} {s1 s3 : List UInt8} {o o' : Int} {s e : Nat} {g : List (Nat × Nat)}
  {segs : List (List UInt8)}

/-- How the matcher behaves on a subject of length `n`. -/
structure Sound (m : Nat → Match) (n : Nat) : Prop where
  /-- A match is inside the subject and does not begin before the offset. -/
  bounded {o s e : Nat} {g : List (Nat × Nat)} : m o = .found (s, e) g → o ≤ s ∧ s ≤ e ∧ e ≤ n
  /-- An offset behind the subject is an error. -/
  beyond {o : Nat} : n < o → m o = .error

/-- The offset of the next search. -/
def next (m : Nat → Match) (o : Int) : Option Int :=
  match m (size o) with
  | .found pair _ => some (toInt pair.2)
  | .noMatch => none
  | .error => none

/-- The searches from an offset on end normally, with these strings between the matches; `f` is the
offset for the end of a match. -/
inductive Segments (f : Nat → Int) (m : Nat → Match) (s1 : List UInt8) :
    Int → List (List UInt8) → Prop where
  /-- There is no match. -/
  | last {o : Int} : m (size o) = .noMatch → Segments f m s1 o [s1.drop o.toNat]
  /-- The search goes on from the end of a match. -/
  | more {o : Int} {s e : Nat} {g : List (Nat × Nat)} {segs : List (List UInt8)} :
      m (size o) = .found (s, e) g → Segments f m s1 (f e) segs →
      Segments f m s1 o ((s1.drop o.toNat).take (s - o.toNat) :: segs)

/-- No match that is found ends where its search began. -/
def Advances (m : Nat → Match) : Prop :=
  ∀ o, Relation.ReflTransGen (Step (next m)) 0 o → ∀ s g, m (size o) ≠ .found (s, o.toNat) g

/-! ## Offsets -/

/-- The value of an `int`. -/
def InRange (o : Int) : Prop := -2 ^ 31 ≤ o ∧ o < 2 ^ 31

theorem inRange_zero : InRange 0 := ⟨by decide, by decide⟩

theorem inRange_toInt (n : Nat) : InRange (toInt n) := by
  unfold InRange
  rw [toInt, BitVec.toInt_eq_toNat_cond, BitVec.toNat_ofNat]
  split_ifs <;> omega

theorem size_of_nonneg (ho : InRange o) (hpos : 0 ≤ o) : size o = o.toNat := by
  obtain ⟨-, hlt⟩ := ho
  rw [size]
  omega

/-- The matcher takes a negative offset for one behind the subject. -/
theorem size_of_neg (ho : InRange o) (hneg : o < 0) : 2 ^ 63 ≤ size o := by
  obtain ⟨hle, -⟩ := ho
  rw [size]
  omega

theorem next_found (h : m (size o) = .found (s, e) g) : next m o = some (toInt e) := by
  rw [next, h]

theorem next_cases (m : Nat → Match) (o : Int) :
    (∃ s e g, m (size o) = .found (s, e) g) ∨
      next m o = none ∧ (m (size o) = .noMatch ∨ m (size o) = .error) := by
  cases h : m (size o) with
  | found pair groups => exact .inl ⟨_, _, _, rfl⟩
  | noMatch => exact .inr ⟨by rw [next, h], .inl rfl⟩
  | error => exact .inr ⟨by rw [next, h], .inr rfl⟩

section Sound

variable (hm : Sound m s1.length) (hlen : s1.length < 2 ^ 63)

include hm hlen

/-- Without an error the offset is inside the subject. -/
theorem offset_le (ho : InRange o) (h : m (size o) ≠ .error) :
    0 ≤ o ∧ size o = o.toNat ∧ o.toNat ≤ s1.length := by
  have hpos : 0 ≤ o := by
    by_contra hneg
    have hbig := size_of_neg ho (Int.not_le.mp hneg)
    exact h (hm.beyond (by omega))
  have hsize := size_of_nonneg ho hpos
  refine ⟨hpos, hsize, ?_⟩
  by_contra hle
  rw [hsize] at h
  exact h (hm.beyond (Nat.not_le.mp hle))

theorem str_eq (ho : InRange o) (h : m (size o) ≠ .error) (k : Nat) :
    str s1 o k = .ok ⟨s1.drop o.toNat, k⟩ := by
  obtain ⟨hpos, -, hle⟩ := offset_le hm hlen ho h
  exact if_neg (by omega)

theorem found_len (ho : InRange o) (h : m (size o) = .found (s, e) g) :
    Pool.subSize s (size o) = s - o.toNat ∧ s - o.toNat ≤ (s1.drop o.toNat).length := by
  obtain ⟨-, hsize, -⟩ := offset_le hm hlen ho (by rw [h]; exact nofun)
  obtain ⟨hos, hse, hen⟩ := hm.bounded h
  rw [hsize] at hos ⊢
  rw [Pool.subSize_eq hos (by omega), List.length_drop]
  exact ⟨rfl, by omega⟩

/-! ## The loop that replaces -/

/-- A round with a match. -/
theorem replaceLoop_found (len3 fuel : Nat) (list : DlList Str) (total : BitVec 32)
    (ho : InRange o) (h : m (size o) = .found (s, e) g) :
    replaceLoop m s1 len3 (fuel + 1) ⟨list, total, o⟩ = replaceLoop m s1 len3 fuel
      ⟨list.push ⟨s1.drop o.toNat, s - o.toNat⟩, total + BitVec.ofNat 32 (s - o.toNat + len3),
        toInt e⟩ := by
  have hstr := str_eq hm hlen ho (by rw [h]; exact nofun)
  simp only [replaceLoop, h, (found_len hm hlen ho h).1, hstr, Exec.ok_bind]

/-- The last round, without a match. -/
theorem replaceLoop_noMatch (len3 fuel : Nat) (list : DlList Str) (total : BitVec 32)
    (ho : InRange o) (h : m (size o) = .noMatch) :
    replaceLoop m s1 len3 (fuel + 1) ⟨list, total, o⟩ =
      .ok (⟨list.push ⟨s1.drop o.toNat, (s1.drop o.toNat).length⟩,
        total + BitVec.ofNat 32 (s1.drop o.toNat).length, o⟩, true) := by
  have herr : m (size o) ≠ .error := by
    rw [h]
    exact nofun
  obtain ⟨-, hsize, hle⟩ := offset_le hm hlen ho herr
  have hsub : Pool.subSize s1.length (size o) = (s1.drop o.toNat).length := by
    rw [hsize, Pool.subSize_eq hle (by omega), List.length_drop]
  simp only [replaceLoop, h, hsub, str_eq hm hlen ho herr, Exec.ok_bind]

/-- The loop comes to an end if the searches do. -/
theorem replaceLoop_stops (hs : Stops (next m) o) (ho : InRange o) (len3 : Nat) (list : DlList Str)
    (total : BitVec 32) :
    ∃ r, Returns (fun fuel ↦ replaceLoop m s1 len3 fuel ⟨list, total, o⟩) r := by
  induction hs generalizing list total with
  | @here o hn =>
    rcases next_cases m o with ⟨s, e, g, hf⟩ | ⟨-, hno | herr⟩
    · exact nomatch hn.symm.trans (next_found hf)
    · refine ⟨(⟨list.push ⟨s1.drop o.toNat, (s1.drop o.toNat).length⟩,
        total + BitVec.ofNat 32 (s1.drop o.toNat).length, o⟩, true), 1, fun fuel hfuel ↦ ?_⟩
      obtain ⟨fuel, rfl⟩ := Nat.exists_eq_add_of_le' hfuel
      exact replaceLoop_noMatch hm hlen len3 fuel list total ho hno
    · refine ⟨(⟨list, total, o⟩, false), 1, fun fuel hfuel ↦ ?_⟩
      obtain ⟨fuel, rfl⟩ := Nat.exists_eq_add_of_le' hfuel
      simp only [replaceLoop, herr]
  | @step o o' hn _ ih =>
    rcases next_cases m o with ⟨s, e, g, hf⟩ | ⟨hnone, -⟩
    · obtain rfl := Option.some.inj (hn.symm.trans (next_found hf))
      obtain ⟨r, N, hN⟩ := ih (inRange_toInt e) (list.push ⟨s1.drop o.toNat, s - o.toNat⟩)
        (total + BitVec.ofNat 32 (s - o.toNat + len3))
      refine ⟨r, N + 1, fun fuel hfuel ↦ ?_⟩
      obtain ⟨fuel, rfl⟩ := Nat.exists_eq_add_of_le' (Nat.le_trans (Nat.le_add_left 1 N) hfuel)
      exact (replaceLoop_found hm hlen len3 fuel list total ho hf).trans (hN fuel (by omega))
    · exact nomatch hnone.symm.trans hn

/-- If the searches do not come to an end, neither does the loop. -/
theorem replaceLoop_diverges (hs : ¬ Stops (next m) o) (ho : InRange o) (len3 : Nat)
    (list : DlList Str) (total : BitVec 32) :
    Diverges fun fuel ↦ replaceLoop m s1 len3 fuel ⟨list, total, o⟩ := by
  intro fuel
  change replaceLoop m s1 len3 fuel ⟨list, total, o⟩ = _
  induction fuel generalizing o list total with
  | zero => rfl
  | succ fuel ih =>
    rcases next_cases m o with ⟨s, e, g, hf⟩ | ⟨hnone, -⟩
    · rw [replaceLoop_found hm hlen len3 fuel list total ho hf]
      exact ih (fun h ↦ hs (.step (next_found hf) h)) (inRange_toInt e) _ _
    · exact absurd (.here hnone) hs

/-- If the searches end normally, the loop leaves the strings between the matches in the list, and
adds up how long they are with the replacements. -/
theorem replaceLoop_segments (hseg : Segments toInt m s1 o segs) (ho : InRange o) (s3 : List UInt8) :
    ∃ xs : List Str, xs ≠ [] ∧ xs.map Str.bytes = segs ∧ (∀ x ∈ xs, x.len ≤ x.data.length) ∧
      ∃ q N, ∀ fuel, N ≤ fuel → ∀ list total,
        replaceLoop m s1 s3.length fuel ⟨list, total, o⟩ = .ok (⟨xs.foldl DlList.push list,
          total + BitVec.ofNat 32 (s3.intercalate segs).length, q⟩, true) := by
  induction hseg with
  | @last o hno =>
    refine ⟨[⟨s1.drop o.toNat, (s1.drop o.toNat).length⟩], List.cons_ne_nil _ _, ?_, ?_, o, 1,
      fun fuel hfuel list total ↦ ?_⟩
    · rw [List.map_singleton, Str.bytes, List.take_length]
    · exact List.forall_mem_singleton.mpr (Nat.le_refl _)
    · obtain ⟨fuel, rfl⟩ := Nat.exists_eq_add_of_le' hfuel
      rw [replaceLoop_noMatch hm hlen _ fuel list total ho hno, List.intercalate_singleton]
      rfl
  | @more o s e g segs hf hrest ih =>
    obtain ⟨xs, hne, hbytes, hlens, q, N, hN⟩ := ih (inRange_toInt e)
    have hle := (found_len hm hlen ho hf).2
    have hsegs : segs ≠ [] := hbytes ▸ fun h ↦ hne (List.map_eq_nil_iff.mp h)
    refine ⟨⟨s1.drop o.toNat, s - o.toNat⟩ :: xs, List.cons_ne_nil _ _, ?_, ?_, q, N + 1,
      fun fuel hfuel list total ↦ ?_⟩
    · rw [List.map_cons, hbytes]
      rfl
    · exact List.forall_mem_cons.mpr ⟨hle, hlens⟩
    · obtain ⟨fuel, rfl⟩ := Nat.exists_eq_add_of_le' (Nat.le_trans (Nat.le_add_left 1 N) hfuel)
      rw [replaceLoop_found hm hlen _ fuel list total ho hf, hN fuel (by omega),
        List.intercalate_cons_of_ne_nil hsegs, List.length_append, List.length_append,
        List.length_take_of_le hle, BitVec.add_assoc, ← BitVec.ofNat_add]
      rfl

end Sound

/-! ## The loop that captures -/

theorem captureLoop_found (fuel : Nat) (list : DlList (DlList (Nat × Nat)))
    (h : m (size o) = .found (s, e) g) : captureLoop m (fuel + 1) list o =
      captureLoop m fuel (list.push (captures (s, e) g)) (toInt e) := by
  rw [captureLoop, h]

theorem captureLoop_stops (hs : Stops (next m) o) (list : DlList (DlList (Nat × Nat))) :
    ∃ r, Returns (fun fuel ↦ captureLoop m fuel list o) r := by
  induction hs generalizing list with
  | @here o hn =>
    rcases next_cases m o with ⟨s, e, g, hf⟩ | ⟨-, hend⟩
    · exact nomatch hn.symm.trans (next_found hf)
    · refine ⟨list, 1, fun fuel hfuel ↦ ?_⟩
      obtain ⟨fuel, rfl⟩ := Nat.exists_eq_add_of_le' hfuel
      rcases hend with h | h <;> simp only [captureLoop, h]
  | @step o o' hn _ ih =>
    rcases next_cases m o with ⟨s, e, g, hf⟩ | ⟨hnone, -⟩
    · obtain rfl := Option.some.inj (hn.symm.trans (next_found hf))
      obtain ⟨r, N, hN⟩ := ih (list.push (captures (s, e) g))
      refine ⟨r, N + 1, fun fuel hfuel ↦ ?_⟩
      obtain ⟨fuel, rfl⟩ := Nat.exists_eq_add_of_le' (Nat.le_trans (Nat.le_add_left 1 N) hfuel)
      exact (captureLoop_found fuel list hf).trans (hN fuel (by omega))
    · exact nomatch hnone.symm.trans hn

theorem captureLoop_diverges (hs : ¬ Stops (next m) o) (list : DlList (DlList (Nat × Nat))) :
    Diverges fun fuel ↦ captureLoop m fuel list o := by
  intro fuel
  change captureLoop m fuel list o = _
  induction fuel generalizing o list with
  | zero => rfl
  | succ fuel ih =>
    rcases next_cases m o with ⟨s, e, g, hf⟩ | ⟨hnone, -⟩
    · rw [captureLoop_found fuel list hf]
      exact ih (fun h ↦ hs (.step (next_found hf) h)) _
    · exact absurd (.here hnone) hs

/-! ## Searches -/

theorem inRange_of_reaches (ho : Relation.ReflTransGen (Step (next m)) 0 o) : InRange o := by
  rcases Relation.ReflTransGen.cases_tail ho with rfl | ⟨a, -, hab⟩
  · exact inRange_zero
  · rcases next_cases m a with ⟨s, e, g, hf⟩ | ⟨hnone, -⟩
    · obtain rfl := Option.some.inj ((next_found hf).symm.trans hab)
      exact inRange_toInt e
    · exact nomatch hnone.symm.trans hab

/-- There are only so many offsets. -/
theorem stops_iff (m : Nat → Match) : Stops (next m) 0 ↔ NoReturn (next m) 0 :=
  ⟨Stops.noReturn, fun h ↦ h.stops (Set.finite_Ico (-2 ^ 31 : Int) (2 ^ 31))
    fun _ hb ↦ inRange_of_reaches hb⟩

theorem Segments.ne_nil {f : Nat → Int} (h : Segments f m s1 o segs) : segs ≠ [] := by
  cases h <;> exact List.cons_ne_nil _ _

/-- All characters from the last offset on are in the result. -/
theorem Segments.length_lt (h : Segments toInt m s1 o segs) (ho : InRange o) (s3 : List UInt8) :
    s1.length < (s3.intercalate segs).length + 2 ^ 31 := by
  induction h with
  | @last o hno =>
    obtain ⟨-, hlt⟩ := ho
    rw [List.intercalate_singleton, List.length_drop]
    omega
  | @more o s e g segs hf hrest ih =>
    have hlt := ih (inRange_toInt e)
    rw [List.intercalate_cons_of_ne_nil hrest.ne_nil, List.length_append, List.length_append]
    omega

/-- An offset that is not taken for an error is the end of the match, if there are less than 2³²
characters. -/
theorem toInt_of_nonneg {n : Nat} (hn : n < 2 ^ 32) (hpos : 0 ≤ toInt n) : toInt n = n := by
  rw [toInt, BitVec.toInt_eq_toNat_cond, BitVec.toNat_ofNat] at hpos ⊢
  split_ifs at hpos ⊢ <;> omega

section Sound

variable (hm : Sound m s1.length) (hlen : s1.length < 2 ^ 63)

include hm hlen

theorem Segments.nonneg {f : Nat → Int} (h : Segments f m s1 o segs) (ho : InRange o) :
    0 ≤ o := by
  refine (offset_le hm hlen ho ?_).1
  cases h with
  | last hno => rw [hno]; exact nofun
  | more hf => rw [hf]; exact nofun

/-- Offsets that are values of type `int` are the ends of the matches. -/
theorem Segments.toInt {segs' : List (List UInt8)} (h : Segments DlString.toInt m s1 o segs')
    (h' : Segments Int.ofNat m s1 o segs) (hshort : s1.length < 2 ^ 32) :
    Segments DlString.toInt m s1 o segs := by
  induction h generalizing segs with
  | last hno =>
    cases h' with
    | last hno' => exact .last hno'
    | more hf' => exact nomatch hno.symm.trans hf'
  | @more o s e g segs' hf hrest ih =>
    cases h' with
    | last hno' => exact nomatch hf.symm.trans hno'
    | more hf' hrest' =>
      obtain ⟨⟨rfl, rfl⟩, rfl⟩ := Match.found.inj (hf.symm.trans hf') |>.imp_left Prod.mk.inj
      have he : DlString.toInt e = Int.ofNat e := by
        refine toInt_of_nonneg ?_ (hrest.nonneg hm hlen (inRange_toInt e))
        exact Nat.lt_of_le_of_lt (hm.bounded hf).2.2 hshort
      exact .more hf' (ih (he ▸ hrest'))

/-- If the loop ends normally, so do the searches. -/
theorem segments_of_replaceLoop {len3 fuel : Nat} {list : DlList Str} {total : BitVec 32}
    {r : State} (ho : InRange o)
    (h : replaceLoop m s1 len3 fuel ⟨list, total, o⟩ = .ok (r, true)) :
    ∃ segs, Segments DlString.toInt m s1 o segs := by
  induction fuel generalizing o list total with
  | zero => cases h
  | succ fuel ih =>
    cases hmo : m (size o) with
    | found pair groups =>
      rw [replaceLoop_found hm hlen len3 fuel list total ho hmo] at h
      obtain ⟨segs, hsegs⟩ := ih (inRange_toInt pair.2) h
      exact ⟨_, .more hmo hsegs⟩
    | noMatch => exact ⟨_, .last hmo⟩
    | error =>
      simp only [replaceLoop, hmo] at h
      cases h

end Sound

/-- If no match ends where its search began, the searches go forward. -/
theorem lt_of_step (hm : Sound m s1.length) (hlen : s1.length < 2 ^ 31) (ho : InRange o)
    (h : ∀ s g, m (size o) ≠ .found (s, o.toNat) g) (hn : next m o = some o') : o < o' := by
  rcases next_cases m o with ⟨s, e, g, hf⟩ | ⟨hnone, -⟩
  · obtain ⟨hpos, hsize, -⟩ := offset_le hm (by omega) ho (by rw [hf]; exact nofun)
    obtain ⟨hos, hse, hen⟩ := hm.bounded hf
    obtain rfl := Option.some.inj ((next_found hf).symm.trans hn)
    have hne : e ≠ o.toNat := by
      rintro rfl
      exact h s g hf
    rw [toInt_eq (Nat.lt_of_le_of_lt hen hlen)]
    omega
  · exact nomatch hnone.symm.trans hn

/-- If the offsets of a subject are values of type `int`, the searches come to an end if and only
if no match that they find ends where its search began. -/
theorem noReturn_iff (hm : Sound m s1.length) (hlen : s1.length < 2 ^ 31) :
    NoReturn (next m) 0 ↔ Advances m := by
  constructor
  · intro h o ho s g hf
    have herr : m (size o) ≠ .error := by
      rw [hf]
      exact nofun
    obtain ⟨hpos, -, hle⟩ := offset_le hm (by omega) (inRange_of_reaches ho) herr
    refine h o ho (.single ((next_found hf).trans ?_))
    rw [toInt_eq (Nat.lt_of_le_of_lt hle hlen), Int.toNat_of_nonneg hpos]
  · intro h b hb hcycle
    have hstep : ∀ c d, Relation.ReflTransGen (Step (next m)) b c → Step (next m) c d → c < d :=
      fun c d hc hcd ↦
        lt_of_step hm hlen (inRange_of_reaches (hb.trans hc)) (h c (hb.trans hc)) hcd
    have hlt : ∀ c, Relation.TransGen (Step (next m)) b c → b < c := by
      intro c hc
      induction hc with
      | single hab => exact hstep _ _ .refl hab
      | tail hbc hcd ih => exact ih.trans (hstep _ _ hbc.to_reflTransGen hcd)
    exact Int.lt_irrefl b (hlt b hcycle)

/-! ## The functions -/

theorem size_toInt_ofNat (n : Nat) : size (BitVec.ofNat 32 n).toInt =
    if n % 2 ^ 32 < 2 ^ 31 then n % 2 ^ 32 else 2 ^ 64 - 2 ^ 32 + n % 2 ^ 32 := by
  rw [size, BitVec.toInt_eq_toNat_cond, BitVec.toNat_ofNat]
  split_ifs <;> omega

/-- What is copied fits just if its length is the value of an `int`. -/
theorem copyResult_eq {xs : List Str} (hne : xs ≠ []) (hbytes : xs.map Str.bytes = segs)
    (hlens : ∀ x ∈ xs, x.len ≤ x.data.length) (s3 : List UInt8) :
    copyResult (xs.foldl DlList.push (DlList.create 1))
        (0 + BitVec.ofNat 32 (s3.intercalate segs).length) s3 =
      if (s3.intercalate segs).length < 2 ^ 31 then
        .ok ⟨s3.intercalate segs, (s3.intercalate segs).length⟩
      else Exec.undef := by
  have hparts : (xs.foldl DlList.push (DlList.create 1)).parts = xs.map fun x ↦ [x] := by
    cases xs with
    | nil => exact absurd rfl hne
    | cons x xs => rw [foldl_push]
  have hzero : ∀ x : BitVec 32, 0 + x = x := BitVec.zero_add
  rw [copyResult, hparts, copyParts_eq s3 xs hlens, hbytes, Exec.ok_bind, hzero,
    size_toInt_ofNat]
  by_cases hlt : (s3.intercalate segs).length < 2 ^ 31
  · have hmod : (s3.intercalate segs).length % 2 ^ 32 = (s3.intercalate segs).length := by omega
    rw [hmod, if_pos hlt, if_pos hlt, if_neg (by omega)]
    rfl
  · rw [if_neg hlt, if_pos]
    split_ifs <;> omega

section Functions

variable {P : Pcre2} {pattern : List UInt8} {rep : Option P.Code} {re : P.Code}

/-- `dl_str_replace_re` for a text that the searches cut into segments. -/
theorem strReplaceRe_segments (hm : Sound (P.match re s1) s1.length) (hlen : s1.length < 2 ^ 63)
    (hcode : P.code pattern rep = some re) (hpat : pattern ≠ []) (s3 : List UInt8)
    (hseg : Segments toInt (P.match re s1) s1 0 segs) :
    ∃ N, ∀ fuel, N ≤ fuel → strReplaceRe P fuel s1 pattern s3 rep =
      if (s3.intercalate segs).length < 2 ^ 31 then
        .ok (some ⟨s3.intercalate segs, (s3.intercalate segs).length⟩)
      else Exec.undef := by
  obtain ⟨xs, hne, hbytes, hlens, q, N, hN⟩ := replaceLoop_segments hm hlen hseg inRange_zero s3
  refine ⟨N, fun fuel hfuel ↦ ?_⟩
  simp only [strReplaceRe, if_neg hpat, hcode, hN fuel hfuel, Exec.ok_bind, if_true,
    copyResult_eq hne hbytes hlens]
  split_ifs <;> rfl

/-- What `dl_str_replace_re` and `dl_str_capture_re` are to do with a subject. -/
structure Works (P : Pcre2) (s1 pattern s3 : List UInt8) (rep : Option P.Code) : Prop where
  /-- Replacing comes to an end. -/
  replace : Terminates fun fuel ↦ strReplaceRe P fuel s1 pattern s3 rep
  /-- Capturing all matches comes to an end. -/
  capture : Terminates fun fuel ↦ strCaptureRe P fuel s1 pattern rep true
  /-- If the searches end normally, the result is what is between the matches, joined by the
  replacement, and has its length. -/
  result {re : P.Code} {segs : List (List UInt8)} : P.code pattern rep = some re → pattern ≠ [] →
    Segments Int.ofNat (P.match re s1) s1 0 segs ∨ Segments toInt (P.match re s1) s1 0 segs →
    Returns (fun fuel ↦ strReplaceRe P fuel s1 pattern s3 rep)
      (some ⟨s3.intercalate segs, (s3.intercalate segs).length⟩)

/-- If there is a result, the searches have ended normally. -/
theorem segments_of_strReplaceRe (hm : Sound (P.match re s1) s1.length) (hlen : s1.length < 2 ^ 63)
    (hcode : P.code pattern rep = some re) (hpat : pattern ≠ []) {fuel : Nat} {r : Str}
    (h : strReplaceRe P fuel s1 pattern s3 rep = .ok (some r)) :
    ∃ segs, Segments toInt (P.match re s1) s1 0 segs := by
  simp only [strReplaceRe, if_neg hpat, hcode] at h
  obtain ⟨⟨st, normal⟩, hloop, h⟩ := Exec.bind_eq_ok.mp h
  cases normal with
  | true => exact segments_of_replaceLoop hm hlen inRange_zero hloop
  | false => exact nomatch Except.ok.inj h

theorem strReplaceRe_terminates (hm : Sound (P.match re s1) s1.length) (hlen : s1.length < 2 ^ 63)
    (hcode : P.code pattern rep = some re) (hs : Stops (next (P.match re s1)) 0)
    (s3 : List UInt8) : Terminates fun fuel ↦ strReplaceRe P fuel s1 pattern s3 rep := by
  by_cases hpat : pattern = []
  · refine Returns.terminates (r := some ⟨s1, s1.length⟩) ⟨0, fun fuel _ ↦ if_pos hpat⟩
  obtain ⟨⟨st, normal⟩, N, hN⟩ := replaceLoop_stops hm hlen hs inRange_zero s3.length
    (DlList.create 1) 0
  cases normal with
  | true =>
    obtain ⟨segs, hseg⟩ := segments_of_replaceLoop hm hlen inRange_zero (hN N (Nat.le_refl N))
    obtain ⟨M, hM⟩ := strReplaceRe_segments hm hlen hcode hpat s3 hseg
    refine ⟨M, fun fuel hfuel ↦ ?_⟩
    simp only [hM fuel hfuel]
    split_ifs <;> exact nofun
  | false =>
    refine Returns.terminates (r := none) ⟨N, fun fuel hfuel ↦ ?_⟩
    have hloop : replaceLoop (P.match re s1) s1 s3.length fuel ⟨DlList.create 1, 0, 0⟩ =
      .ok (st, false) := hN fuel hfuel
    simp only [strReplaceRe, if_neg hpat, hcode, hloop, Exec.ok_bind, Bool.false_eq_true, if_false]
    rfl

theorem strCaptureRe_terminates_iff (hcode : P.code pattern rep = some re) :
    Terminates (fun fuel ↦ strCaptureRe P fuel s1 pattern rep true) ↔
      NoReturn (next (P.match re s1)) 0 := by
  rw [← stops_iff]
  constructor
  · intro h
    by_contra hs
    refine Diverges.not_terminates (fun fuel ↦ ?_) h
    have hloop : captureLoop (P.match re s1) fuel (DlList.create 1) 0 = Exec.timeout :=
      captureLoop_diverges hs (DlList.create 1) fuel
    simp only [strCaptureRe, hcode, if_true, hloop, Exec.timeout_bind]
  · intro hs
    obtain ⟨r, hr⟩ := captureLoop_stops hs (DlList.create 1)
    have hpure : Returns (fun _ ↦ (.ok (some (Captured.all r)) : Exec (Option Captured)))
        (some (.all r)) := ⟨0, fun _ _ ↦ rfl⟩
    have hret : Returns (fun fuel ↦ captureLoop (P.match re s1) fuel (DlList.create 1) 0 >>=
        fun list ↦ .ok (some (Captured.all list))) (some (.all r)) := hr.bind hpure
    simp only [strCaptureRe, hcode, if_true]
    exact hret.terminates

/-- The offsets of a short subject are values of type `int`. -/
theorem segments_toInt_iff (hm : Sound m s1.length) (hlen : s1.length < 2 ^ 31) :
    Segments toInt m s1 o segs ↔ Segments Int.ofNat m s1 o segs := by
  have heq : ∀ {o : Int} {s e g}, m (size o) = .found (s, e) g → toInt e = Int.ofNat e :=
    fun hf ↦ toInt_eq ((hm.bounded hf).2.2.trans_lt hlen)
  constructor
  · intro h
    induction h with
    | last hno => exact .last hno
    | more hf _ ih => exact .more hf (heq hf ▸ ih)
  · intro h
    induction h with
    | last hno => exact .last hno
    | more hf _ ih => exact .more hf ((heq hf).symm ▸ ih)

/-- No search begins where one has begun before, and all offsets and the length of the result are
values of type `int`. -/
theorem works_iff_noReturn (P : Pcre2) (s1 pattern s3 : List UInt8) (rep : Option P.Code)
    (hm : ∀ re, P.code pattern rep = some re → Sound (P.match re s1) s1.length)
    (hlen : s1.length < 2 ^ 63) :
    Works P s1 pattern s3 rep ↔ ∀ re, P.code pattern rep = some re →
      NoReturn (next (P.match re s1)) 0 ∧ (pattern ≠ [] → ∀ segs,
        Segments Int.ofNat (P.match re s1) s1 0 segs ∨ Segments toInt (P.match re s1) s1 0 segs →
        Segments toInt (P.match re s1) s1 0 segs ∧ (s3.intercalate segs).length < 2 ^ 31) := by
  constructor
  · intro h re hcode
    have hre := hm re hcode
    refine ⟨(strCaptureRe_terminates_iff hcode).mp h.capture, fun hpat segs hsegs ↦ ?_⟩
    have hshort : ∀ segs', Segments toInt (P.match re s1) s1 0 segs' →
        (s3.intercalate segs').length < 2 ^ 31 := by
      intro segs' hseg'
      obtain ⟨N, hN⟩ := h.result hcode hpat (.inr hseg')
      obtain ⟨M, hM⟩ := strReplaceRe_segments hre hlen hcode hpat s3 hseg'
      have heq := (hM (max N M) (Nat.le_max_right N M)).symm.trans
        (hN (max N M) (Nat.le_max_left N M))
      by_contra hlt
      rw [if_neg hlt] at heq
      exact Exec.undef_ne_ok _ heq
    have hseg : Segments toInt (P.match re s1) s1 0 segs := by
      rcases hsegs with htrue | hseg
      · obtain ⟨fuel, hfuel⟩ := (h.result hcode hpat (.inl htrue)).exists_fuel
        obtain ⟨segs', hseg'⟩ := segments_of_strReplaceRe hre hlen hcode hpat hfuel
        have hlt := hseg'.length_lt inRange_zero s3
        have hlt' := hshort segs' hseg'
        exact hseg'.toInt hre hlen htrue (by omega)
      · exact hseg
    exact ⟨hseg, hshort segs hseg⟩
  · intro h
    cases hcode : P.code pattern rep with
    | none =>
      refine ⟨?_, ?_, fun hre ↦ nomatch hcode.symm.trans hre⟩
      · by_cases hpat : pattern = []
        · exact Returns.terminates (r := some ⟨s1, s1.length⟩) ⟨0, fun fuel _ ↦ if_pos hpat⟩
        · refine Returns.terminates (r := none) ⟨0, fun fuel _ ↦ ?_⟩
          simp only [strReplaceRe, if_neg hpat, hcode]
      · refine Returns.terminates (r := none) ⟨0, fun fuel _ ↦ ?_⟩
        simp only [strCaptureRe, hcode]
    | some re =>
      obtain ⟨hno, hres⟩ := h re hcode
      refine ⟨strReplaceRe_terminates (hm re hcode) hlen hcode ((stops_iff _).mpr hno) s3,
        (strCaptureRe_terminates_iff hcode).mpr hno, fun {re' segs} hcode' hpat hsegs ↦ ?_⟩
      obtain rfl := Option.some.inj (hcode.symm.trans hcode')
      obtain ⟨hseg, hlt⟩ := hres hpat segs hsegs
      obtain ⟨N, hN⟩ := strReplaceRe_segments (hm re hcode) hlen hcode hpat s3 hseg
      exact ⟨N, fun fuel hfuel ↦ (hN fuel hfuel).trans (if_pos hlt)⟩

/-- The functions do what they are to do if and only if no search begins where one has begun
before, and all offsets and the length of the result are values of type `int`.  In a subject of less
than 2³¹ bytes this is to say that no match that is found ends where its search began, and that the
result is shorter than 2³¹ bytes. -/
theorem works_iff (P : Pcre2) (s1 pattern s3 : List UInt8) (rep : Option P.Code)
    (hm : ∀ re, P.code pattern rep = some re → Sound (P.match re s1) s1.length)
    (hlen : s1.length < 2 ^ 63) :
    (Works P s1 pattern s3 rep ↔ ∀ re, P.code pattern rep = some re →
      NoReturn (next (P.match re s1)) 0 ∧ (pattern ≠ [] → ∀ segs,
        Segments Int.ofNat (P.match re s1) s1 0 segs ∨ Segments toInt (P.match re s1) s1 0 segs →
        Segments toInt (P.match re s1) s1 0 segs ∧ (s3.intercalate segs).length < 2 ^ 31)) ∧
    (s1.length < 2 ^ 31 → (Works P s1 pattern s3 rep ↔ ∀ re, P.code pattern rep = some re →
      Advances (P.match re s1) ∧ (pattern ≠ [] → ∀ segs,
        Segments Int.ofNat (P.match re s1) s1 0 segs →
          (s3.intercalate segs).length < 2 ^ 31))) := by
  have hworks := works_iff_noReturn P s1 pattern s3 rep hm hlen
  refine ⟨hworks, fun hshort ↦ hworks.trans (forall₂_congr fun re hcode ↦ ?_)⟩
  have hre := hm re hcode
  rw [noReturn_iff hre hshort]
  refine and_congr_right fun _ ↦ forall₂_congr fun hpat segs ↦ ?_
  rw [segments_toInt_iff hre hshort, or_self]
  exact ⟨fun h hseg ↦ (h hseg).2, fun h hseg ↦ ⟨hseg, h hseg⟩⟩

end Functions

/-- The matcher of a library that knows one pattern. -/
def single (m : List UInt8 → Nat → Match) : Pcre2 where
  Code := Unit
  compile _ := some ()
  «match» _ := m

/-- Looking for "a" in "ba". -/
def matchA (s : List UInt8) (o : Nat) : Match :=
  if o ≤ 1 then .found (1, 2) [] else if o ≤ s.length then .noMatch else .error

/-- Looking for "x*" in a text without an "x". -/
def matchEmpty (s : List UInt8) (o : Nat) : Match :=
  if o ≤ s.length then .found (o, o) [] else .error

theorem sound_matchA : Sound (matchA [98, 97]) ([98, 97] : List UInt8).length := by
  refine ⟨fun {o s e g} h ↦ ?_, fun {o} h ↦ ?_⟩
  · rw [matchA] at h
    split_ifs at h
    obtain ⟨⟨rfl, rfl⟩, -⟩ := (Match.found.inj h).imp_left Prod.mk.inj
    exact ⟨‹_›, by decide, by decide⟩
  · have hlt : 2 < o := h
    rw [matchA, if_neg (by omega), if_neg (Nat.not_le.mpr h)]

theorem segments_matchA {segs : List (List UInt8)}
    (h : Segments Int.ofNat (matchA [98, 97]) [98, 97] 0 segs) : segs = [[98], []] := by
  have hone : matchA [98, 97] (size 0) = .found (1, 2) [] := by decide
  have htwo : matchA [98, 97] (size (Int.ofNat 2)) = .noMatch := by decide
  cases h with
  | last hno => cases hone.symm.trans hno
  | more hfound hrest =>
    obtain ⟨⟨rfl, rfl⟩, -⟩ := (Match.found.inj (hone.symm.trans hfound)).imp_left Prod.mk.inj
    cases hrest with
    | last => rfl
    | more hfound' => cases htwo.symm.trans hfound'

theorem works_ba : Works (single matchA) [98, 97] [97] [99] none := by
  refine ((works_iff (single matchA) [98, 97] [97] [99] none (fun _ _ ↦ sound_matchA)
    (by decide)).2 (by decide)).mpr fun _ _ ↦ ⟨fun o _ s g hf ↦ ?_, fun _ segs hseg ↦ ?_⟩
  · change matchA [98, 97] (size o) = _ at hf
    rw [matchA] at hf
    split_ifs at hf with hle
    obtain ⟨⟨-, he⟩, -⟩ := (Match.found.inj hf).imp_left Prod.mk.inj
    rw [size] at hle
    omega
  · rw [segments_matchA hseg]
    decide

/-- A matcher that finds the empty string wherever it is asked to search never comes to an end. -/
theorem not_works_empty : Sound (matchEmpty [98]) ([98] : List UInt8).length ∧
    ¬ Works (single matchEmpty) [98] [120, 42] [] none := by
  refine ⟨⟨fun {o s e g} h ↦ ?_, fun h ↦ if_neg (Nat.not_le.mpr h)⟩, fun h ↦ ?_⟩
  · rw [matchEmpty] at h
    split_ifs at h with hle
    obtain ⟨⟨rfl, rfl⟩, -⟩ := (Match.found.inj h).imp_left Prod.mk.inj
    exact ⟨Nat.le_refl o, Nat.le_refl o, hle⟩
  · have hloop : ∀ fuel list, captureLoop (matchEmpty [98]) fuel list 0 = Exec.timeout := by
      intro fuel
      induction fuel with
      | zero => exact fun _ ↦ rfl
      | succ fuel ih => exact fun list ↦ (captureLoop_found fuel list rfl).trans (ih _)
    refine Diverges.not_terminates (fun fuel ↦ ?_) h.capture
    change (captureLoop (matchEmpty [98]) fuel (DlList.create 1) 0 >>= _) = _
    rw [hloop]
    rfl

end Dlbase.Re
