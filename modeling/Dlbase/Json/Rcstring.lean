import Dlbase.Lib.Exec

/-!
# The strings of `dl_json.c`

An `rcstring` is a buffer that grows by reallocation.  The buffer is modelled byte by byte, with
bytes that have not been written being nothing that could be read.  What it stands for is the text
in front of the terminator.
-/

namespace Dlbase.Json

open Cmem

/-- An `rcstring`. -/
structure Rcstring where
  /-- The bytes that have been allocated. -/
  text : List (Option UInt8)
  /-- The length of the string. -/
  length : Nat
  /-- The number of bytes that can be used, without the one for the terminator. -/
  max : Nat
deriving DecidableEq, Repr

/-- `RSTRING_INCSTEP`. -/
def incStep : Nat := 5

/-- `RSTRING_DEFAULT`. -/
def rstringDefault : Nat := 8

/-- Reading a string up to its terminator. -/
def readString : List (Option UInt8) → Exec (List UInt8)
  | some c :: t => do
    if c = 0 then pure []
    else
      let s ← readString t
      pure (c :: s)
  | _ => Exec.undef

namespace Rcstring

/-- `rcs->text[i] = c`. -/
def put (r : Rcstring) (i : Nat) (c : UInt8) : Exec Rcstring :=
  if i < r.text.length then .ok { r with text := r.text.set i (some c) } else Exec.undef

/-- Writing bytes one after the other. -/
def putAll (r : Rcstring) (i : Nat) : List UInt8 → Exec Rcstring
  | [] => .ok r
  | c :: s => do
    let r ← r.put i c
    r.putAll (i + 1) s

/-- `rcs_create`. -/
def create (length : Nat) : Rcstring := ⟨some 0 :: List.replicate length none, 0, length⟩

/-- `rcs_resize`. -/
def resize (r : Rcstring) (length : Nat) : Exec Rcstring :=
  let text := (r.text ++ List.replicate (length + 1) none).take (length + 1)
  { r with text, max := length }.put length 0

/-- `rcs_catcs`; the bytes behind the end of `pos` are filled by `strncpy`. -/
def catcs (r : Rcstring) (pos : List UInt8) (length : Nat) : Exec Rcstring := do
  let r ← (if r.max < r.length + length then r.resize (r.length + length + incStep) else pure r)
  let r ← r.putAll r.length (pos.take length ++ List.replicate (length - pos.length) 0)
  let r ← r.put (r.length + length) 0
  pure { r with length := r.length + length }

/-- `rcs_catc`. -/
def catc (r : Rcstring) (c : UInt8) : Exec Rcstring := do
  let r ← (if r.max ≤ r.length then r.resize (r.max + incStep) else pure r)
  let r ← r.put r.length c
  let r := { r with length := r.length + 1 }
  r.put r.length 0

/-- `rcs_unwrap`: the string that is left. -/
def unwrap (r : Rcstring) : Exec (List UInt8) := readString r.text

/-! ## The text -/

/-- The buffer stands for the text `s`: it is large enough, and the text and a terminator have been
written to it. -/
structure Holds (r : Rcstring) (s : List UInt8) : Prop where
  /-- The length is that of the text. -/
  length_eq : r.length = s.length
  /-- The buffer has one byte more than can be used. -/
  size_eq : r.text.length = r.max + 1
  /-- There is room for the text. -/
  le_max : s.length ≤ r.max
  /-- The text has been written. -/
  written : ∃ t, r.text = s.map some ++ some 0 :: t

/-- The text `u` is added to `w`. -/
def Adds (w : List UInt8) (x : Exec Rcstring) (u : List UInt8) : Prop :=
  ∃ r, x = .ok r ∧ r.Holds (w ++ u)

variable {r r' : Rcstring} {s w : List UInt8} {c : UInt8} {n i : Nat}

theorem holds_create (n : Nat) : (create n).Holds [] := by
  refine ⟨rfl, ?_, Nat.zero_le _, _, rfl⟩
  change (some 0 :: List.replicate n none).length = n + 1
  rw [List.length_cons, List.length_replicate]

theorem put_eq (h : i < r.text.length) (c : UInt8) :
    r.put i c = .ok { r with text := r.text.set i (some c) } := if_pos h

/-- Writing replaces as many bytes as are written. -/
theorem putAll_append {x y z : List (Option UInt8)} (hr : r.text = x ++ y ++ z)
    (hi : i = x.length) (hy : y.length = s.length) :
    r.putAll i s = .ok { r with text := x ++ s.map some ++ z } := by
  induction s generalizing r i x y with
  | nil =>
    obtain rfl := List.length_eq_zero_iff.mp hy
    rw [List.append_nil] at hr
    rw [putAll, List.map_nil, List.append_nil, ← hr]
  | cons c s ih =>
    obtain ⟨d, y, rfl⟩ := List.exists_cons_of_length_eq_add_one hy
    have hlen : i < r.text.length := by
      rw [hr, List.length_append, List.length_append, List.length_cons]
      omega
    rw [putAll, put_eq hlen, Exec.ok_bind, hr, hi, List.append_assoc, List.cons_append,
      List.set_append_right _ _ (Nat.le_refl _), Nat.sub_self, List.set_cons_zero]
    have heq := ih (r := { r with text := x ++ some c :: (y ++ z) }) (i := x.length + 1)
      (x := x ++ [some c]) (y := y) ?_ ?_ ?_
    · rw [heq]
      simp only [List.map_cons, List.append_assoc, List.cons_append, List.nil_append]
    · simp only [List.append_assoc, List.cons_append, List.nil_append]
    · rw [List.length_append, List.length_singleton]
    · exact Nat.succ.inj hy

theorem put_append {x z : List (Option UInt8)} {d : Option UInt8} (hr : r.text = x ++ d :: z)
    (hi : i = x.length) (c : UInt8) :
    r.put i c = .ok { r with text := x ++ some c :: z } := by
  have hlen : i < r.text.length := by
    rw [hr, List.length_append, List.length_cons]
    omega
  rw [put_eq hlen, hr, hi, List.set_append_right _ _ (Nat.le_refl _), Nat.sub_self,
    List.set_cons_zero]

namespace Holds

/-- There is room behind the terminator. -/
theorem length_rest (h : r.Holds s) {t : List (Option UInt8)}
    (ht : r.text = s.map some ++ some 0 :: t) : t.length = r.max - s.length := by
  have hsize := h.size_eq
  rw [ht, List.length_append, List.length_map, List.length_cons] at hsize
  omega

/-- More text is written behind the old one, and then a terminator. -/
theorem extend (h : r.Holds s) (hw : s.length + w.length ≤ r.max) :
    ∃ x y : List (Option UInt8), r.putAll r.length w = .ok ⟨x, r.length, r.max⟩ ∧
      (∀ n, put ⟨x, n, r.max⟩ (r.length + w.length) 0 = .ok ⟨y, n, r.max⟩) ∧
      Holds ⟨y, r.length + w.length, r.max⟩ (s ++ w) := by
  obtain ⟨t, ht⟩ := h.written
  have hrest := h.length_rest ht
  have hsplit : some 0 :: t = (some 0 :: t).take w.length ++ (some 0 :: t).drop w.length :=
    (List.take_append_drop _ _).symm
  have htake : ((some 0 :: t).take w.length).length = w.length := by
    rw [List.length_take, List.length_cons]
    omega
  have hdrop : ((some 0 :: t).drop w.length).length = t.length - w.length + 1 := by
    rw [List.length_drop, List.length_cons]
    omega
  obtain ⟨d, z, hz⟩ := List.exists_cons_of_length_eq_add_one hdrop
  rw [hsplit, ← List.append_assoc, hz] at ht
  rw [hz, List.length_cons] at hdrop
  have hlen : r.length = (s.map some).length := by rw [List.length_map, h.length_eq]
  refine ⟨_, s.map some ++ w.map some ++ some 0 :: z, putAll_append ht hlen htake,
    fun n ↦ ?_, ?_, ?_, ?_, z, ?_⟩
  · refine put_append (d := d) rfl ?_ 0
    rw [List.length_append, List.length_map, List.length_map, h.length_eq]
  · rw [List.length_append, h.length_eq]
  · have hsize := h.size_eq
    simp only [List.length_append, List.length_map, List.length_cons]
    omega
  · rw [List.length_append]
    exact hw
  · rw [List.map_append]

/-- The text stays when the buffer grows. -/
theorem resize (h : r.Holds s) (hn : s.length < n) :
    ∃ r', r.resize n = .ok r' ∧ r'.max = n ∧ r'.Holds s := by
  obtain ⟨t, ht⟩ := h.written
  have htake : (r.text ++ List.replicate (n + 1) none).take (n + 1) =
      s.map some ++ some 0 :: (t ++ List.replicate (n + 1) none).take (n - s.length) := by
    rw [ht, List.append_assoc, List.take_append, List.length_map, List.take_of_length_le (by
      rw [List.length_map]; omega), List.cons_append, Nat.succ_sub (Nat.le_of_lt hn),
      List.take_succ_cons]
  have hlen : ((r.text ++ List.replicate (n + 1) none).take (n + 1)).length = n + 1 := by
    rw [List.length_take, List.length_append, List.length_replicate]
    omega
  refine ⟨_, put_eq (by rw [hlen]; exact Nat.lt_succ_self n) 0, rfl, h.length_eq, ?_,
    Nat.le_of_lt hn, ((t ++ List.replicate (n + 1) none).take (n - s.length)).set
      (n - s.length - 1) (some 0), ?_⟩
  · rw [List.length_set, hlen]
  · obtain ⟨k, hk⟩ := Nat.exists_eq_add_of_lt hn
    rw [htake, List.set_append_right _ _ (by rw [List.length_map]; omega), List.length_map, hk,
      show s.length + k + 1 - s.length = k + 1 by omega, List.set_cons_succ, Nat.add_sub_cancel]

/-- There is room for as many bytes as are asked for. -/
theorem grow (h : r.Holds s) (hn : s.length < n) (p : Prop) [Decidable p]
    (hp : ¬ p → s.length + w.length ≤ r.max) (hw : s.length + w.length ≤ n) :
    ∃ r', (if p then r.resize n else pure r) = .ok r' ∧ r'.Holds s ∧
      s.length + w.length ≤ r'.max := by
  split_ifs with hc
  · obtain ⟨r', hr', hmax, hr⟩ := h.resize hn
    exact ⟨r', hr', hr, hmax ▸ hw⟩
  · exact ⟨r, rfl, h, hp hc⟩

/-- `rcs_catc` adds a character. -/
theorem catc (h : r.Holds s) (c : UInt8) : Adds s (r.catc c) [c] := by
  have hmax := h.le_max
  have hlen := h.length_eq
  obtain ⟨r', hr', hs, hroom⟩ := h.grow (n := r.max + incStep) (w := [c])
    (by unfold incStep; omega) (r.max ≤ r.length) (by rw [List.length_singleton]; omega)
    (by rw [List.length_singleton]; unfold incStep; omega)
  obtain ⟨x, y, hput, hzero, hholds⟩ := hs.extend hroom
  have hone : r'.put r'.length c = .ok ⟨x, r'.length, r'.max⟩ := by
    rw [putAll] at hput
    obtain ⟨x, hx, he⟩ := Exec.bind_eq_ok.mp hput
    rw [putAll] at he
    exact hx.trans he
  refine ⟨_, ?_, hholds⟩
  rw [Rcstring.catc, hr', Exec.ok_bind, hone, Exec.ok_bind]
  exact hzero (r'.length + 1)

/-- `rcs_catcs` adds as many characters as it is told to. -/
theorem catcs (h : r.Holds s) (w : List UInt8) : Adds s (r.catcs w w.length) w := by
  have hmax := h.le_max
  have hlen := h.length_eq
  obtain ⟨r', hr', hs, hroom⟩ := h.grow (n := r.length + w.length + incStep) (w := w)
    (by unfold incStep; omega) (r.max < r.length + w.length) (by omega)
    (by unfold incStep; omega)
  obtain ⟨x, y, hput, hzero, hholds⟩ := hs.extend hroom
  refine ⟨_, ?_, hholds⟩
  rw [Rcstring.catcs, hr', Exec.ok_bind, List.take_length, Nat.sub_self, List.replicate_zero,
    List.append_nil, hput, Exec.ok_bind, hzero, Exec.ok_bind]
  rfl

/-- `rcs_unwrap` gives the text, which has no terminator in it. -/
theorem unwrap (h : r.Holds s) (hs : 0 ∉ s) : r.unwrap = .ok s := by
  obtain ⟨t, ht⟩ := h.written
  rw [Rcstring.unwrap, ht]
  clear h ht
  induction s with
  | nil => rfl
  | cons c s ih =>
    rw [List.mem_cons, not_or] at hs
    rw [List.map_cons, List.cons_append, readString, if_neg (Ne.symm hs.1), ih hs.2,
      Exec.ok_bind, Exec.pure_eq_ok]

theorem adds_nil (h : r.Holds s) : Adds s (.ok r) [] := ⟨r, rfl, (List.append_nil s).symm ▸ h⟩

end Holds

variable {u v : List UInt8} {x y : Exec Rcstring}

theorem Adds.ite {P : Prop} [Decidable P] (hx : Adds w x u) (hy : Adds w y v) :
    Adds w (if P then x else y) (if P then u else v) := by
  by_cases h : P
  · rwa [if_pos h, if_pos h]
  · rwa [if_neg h, if_neg h]

theorem Adds.bind {f : Rcstring → Exec Rcstring} (hx : Adds w x u)
    (hf : ∀ r, r.Holds (w ++ u) → Adds (w ++ u) (f r) v) : Adds w (x >>= f) (u ++ v) := by
  obtain ⟨r, rfl, hr⟩ := hx
  obtain ⟨r', hr', hholds⟩ := hf r hr
  exact ⟨r', hr', by rwa [← List.append_assoc]⟩

end Rcstring

end Dlbase.Json
