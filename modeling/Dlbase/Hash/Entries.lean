import Mathlib

/-!
# Entries

The keys of a slot with their values, in the order of the chain.
-/

namespace Dlbase.Hash

/-- Keys are compared byte by byte. -/
scoped instance lawfulBEq_key : LawfulBEq (List UInt8) := inferInstance

variable {K X : Type} [DecidableEq K]

/-- A key with its values. -/
abbrev Entry (K X : Type) := K × List X

/-- The values of a key. -/
def values (k : K) : List (Entry K X) → List X
  | [] => []
  | e :: E => if e.1 = k then e.2 else values k E

/-- The key of a new entry goes to the second place. -/
def insertSecond (e : Entry K X) : List (Entry K X) → List (Entry K X)
  | [] => [e]
  | e' :: E => e' :: e :: E

/-- The values of a key are changed. -/
def update (key : K) (f : List X → List X) : List (Entry K X) → List (Entry K X)
  | [] => []
  | e :: E => if e.1 = key then (e.1, f e.2) :: E else e :: update key f E

/-- The entry of a key is removed. -/
def erase (key : K) : List (Entry K X) → List (Entry K X)
  | [] => []
  | e :: E => if e.1 = key then E else e :: erase key E

/-- A further value goes to the second place. -/
def addValue (x : X) : List X → List X
  | [] => [x]
  | y :: ys => y :: x :: ys

variable {k key : K} {e : Entry K X} {E E' : List (Entry K X)} {f : List X → List X}

theorem values_eq_nil (h : k ∉ E.map Prod.fst) : values k E = [] := by
  induction E with
  | nil => rfl
  | cons e E ih =>
    rw [List.map_cons, List.mem_cons, not_or] at h
    rw [values, if_neg (Ne.symm h.1), ih h.2]

theorem values_ne_nil (hE : ∀ e ∈ E, e.2 ≠ []) : values k E ≠ [] ↔ k ∈ E.map Prod.fst := by
  induction E with
  | nil => exact ⟨fun h ↦ absurd rfl h, nofun⟩
  | cons e E ih =>
    have ih := ih fun e he ↦ hE e (List.mem_cons_of_mem _ he)
    rw [List.map_cons, List.mem_cons, values]
    split_ifs with hk
    · exact ⟨fun _ ↦ .inl hk.symm, fun _ ↦ hE e List.mem_cons_self⟩
    · rw [ih]
      exact ⟨.inr, fun h ↦ h.resolve_left (Ne.symm hk)⟩

/-! ## Keys -/

theorem keys_update : (update key f E).map Prod.fst = E.map Prod.fst := by
  induction E with
  | nil => rfl
  | cons e E ih =>
    rw [update]
    split_ifs
    · rfl
    · rw [List.map_cons, ih, List.map_cons]

theorem erase_eq_self (h : key ∉ E.map Prod.fst) : erase key E = E := by
  induction E with
  | nil => rfl
  | cons e E ih =>
    rw [List.map_cons, List.mem_cons, not_or] at h
    rw [erase, if_neg (Ne.symm h.1), ih h.2]

theorem erase_sublist : (erase key E).Sublist E := by
  induction E with
  | nil => exact .slnil
  | cons e E ih =>
    rw [erase]
    split_ifs
    · exact List.sublist_cons_self _ _
    · exact ih.cons_cons _

omit [DecidableEq K] in
theorem perm_insertSecond : (insertSecond e E).Perm (e :: E) := by
  cases E with
  | nil => exact .refl _
  | cons e' E => exact .swap ..

/-! ## Values -/

theorem values_update (h : key ∈ E.map Prod.fst) :
    values k (update key f E) = if k = key then f (values key E) else values k E := by
  induction E with
  | nil => cases h
  | cons e E ih =>
    rw [update]
    by_cases he : e.1 = key
    · rw [if_pos he, values, values, values, if_pos he]
      by_cases hk : k = key
      · rw [if_pos hk, if_pos (he.trans hk.symm)]
      · rw [if_neg hk, if_neg (fun h ↦ hk (h.symm.trans he)), if_neg (fun h ↦ hk (h.symm.trans he))]
    · rw [List.map_cons, List.mem_cons] at h
      rw [if_neg he, values, ih (h.resolve_left (Ne.symm he)), values, values, if_neg he]
      by_cases hk : k = key
      · rw [if_pos hk, if_pos hk, if_neg (fun h ↦ he (h.trans hk))]
      · rw [if_neg hk, if_neg hk]

theorem values_insertSecond (h : e.1 ∉ E.map Prod.fst) :
    values k (insertSecond e E) = if k = e.1 then e.2 else values k E := by
  cases E with
  | nil =>
    rw [insertSecond, values, values]
    by_cases hk : k = e.1
    · rw [if_pos hk, if_pos hk.symm]
    · rw [if_neg hk, if_neg (Ne.symm hk), values]
  | cons e' E =>
    rw [List.map_cons, List.mem_cons, not_or] at h
    rw [insertSecond, values, values, values]
    by_cases hk : k = e.1
    · rw [if_neg (fun he ↦ h.1 (hk.symm.trans he.symm)), if_pos hk.symm, if_pos hk]
    · rw [if_neg (Ne.symm hk), if_neg hk]

theorem values_erase (h : (E.map Prod.fst).Nodup) :
    values k (erase key E) = if k = key then [] else values k E := by
  induction E with
  | nil => exact (ite_self _).symm
  | cons e E ih =>
    rw [List.map_cons, List.nodup_cons] at h
    rw [erase]
    by_cases he : e.1 = key
    · rw [if_pos he, values]
      by_cases hk : k = key
      · rw [if_pos hk, values_eq_nil (by rw [hk, ← he]; exact h.1)]
      · rw [if_neg hk, if_neg (fun h ↦ hk (h.symm.trans he))]
    · rw [if_neg he, values, ih h.2, values]
      by_cases hk : k = key
      · rw [if_pos hk, if_neg (fun h ↦ he (h.trans hk)), if_pos hk]
      · rw [if_neg hk, if_neg hk]

end Dlbase.Hash
