import Mathlib

/-!
# Splitting a list at a separator

The separator is a list itself.  It is looked for from left to right, and the search goes on behind
each place where it has been found; elements that satisfy `stop` end the search.  The pieces joined
by the separator are the list.
-/

namespace Cmem

variable {α : Type _} [DecidableEq α] {stop : α → Prop} [DecidablePred stop] {sep s : List α}
  {i : Nat}

/-- The first position at which the separator begins. -/
def findSep (stop : α → Prop) [DecidablePred stop] (sep : List α) : List α → Option Nat
  | [] => none
  | c :: s =>
    if stop c then none
    else if sep <+: c :: s then some 0
    else (findSep stop sep s).map (· + 1)

/-- Where the separator has been found, it begins, and it does not begin before. -/
theorem findSep_eq_some (h : findSep stop sep s = some i) :
    i < s.length ∧ sep <+: s.drop i ∧ ∀ j < i, ¬ sep <+: s.drop j := by
  induction s generalizing i with
  | nil => cases h
  | cons c s ih =>
    rw [findSep] at h
    split_ifs at h with hstop hpre
    · obtain rfl := Option.some.inj h
      exact ⟨Nat.succ_pos _, hpre, fun j hj ↦ absurd hj (Nat.not_lt_zero j)⟩
    · obtain ⟨k, hk, rfl⟩ := Option.map_eq_some_iff.mp h
      obtain ⟨hlt, hsep, hfirst⟩ := ih hk
      refine ⟨Nat.succ_lt_succ hlt, hsep, fun j hj ↦ ?_⟩
      cases j with
      | zero => exact hpre
      | succ j => exact hfirst j (Nat.lt_of_succ_lt_succ hj)

/-- A search that nothing ends finds the separator. -/
theorem not_infix_of_findSep (hsep : sep ≠ []) (hstop : ∀ c ∈ s, ¬ stop c)
    (h : findSep stop sep s = none) : ¬ sep <:+: s := by
  induction s with
  | nil => exact fun hin ↦ hsep (List.infix_nil.mp hin)
  | cons c s ih =>
    rw [List.forall_mem_cons] at hstop
    rw [findSep, if_neg hstop.1] at h
    split_ifs at h with hpre
    rw [List.infix_cons_iff]
    exact not_or.mpr ⟨hpre, ih hstop.2 (Option.map_eq_none_iff.mp h)⟩

/-- The list in front of the first separator does not contain it. -/
theorem not_infix_take (h : findSep stop sep s = some i) (hsep : sep ≠ []) :
    ¬ sep <:+: s.take i := by
  obtain ⟨-, -, hfirst⟩ := findSep_eq_some h
  rintro ⟨pre, post, hin⟩
  have hlen := congrArg List.length hin
  have hpos : 0 < sep.length := List.length_pos_iff.mpr hsep
  simp only [List.length_append, List.length_take] at hlen
  have hpre : sep <+: (s.take i).drop pre.length :=
    ⟨post, by rw [← hin, List.append_assoc, List.drop_left]⟩
  rw [List.drop_take] at hpre
  exact hfirst pre.length (by omega) (hpre.trans (List.take_prefix _ _))

/-- The list is cut at the separator. -/
theorem take_append_drop_of_findSep (h : findSep stop sep s = some i) :
    s.take i ++ (sep ++ s.drop (i + sep.length)) = s := by
  obtain ⟨-, ⟨post, hpost⟩, -⟩ := findSep_eq_some h
  have hdrop : s.drop (i + sep.length) = post := by
    rw [← List.drop_drop, ← hpost, List.drop_left]
  rw [hdrop, hpost, List.take_append_drop]

/-- The pieces between the separators. -/
def splitSep (stop : α → Prop) [DecidablePred stop] (sep s : List α) : List (List α) :=
  if hsep : sep = [] then [s]
  else
    match h : findSep stop sep s with
    | none => [s]
    | some i => s.take i :: splitSep stop sep (s.drop (i + sep.length))
termination_by s.length
decreasing_by
  have hlt := (findSep_eq_some h).1
  have hpos : 0 < sep.length := List.length_pos_iff.mpr hsep
  rw [List.length_drop]
  omega

theorem splitSep_none (h : findSep stop sep s = none) : splitSep stop sep s = [s] := by
  rw [splitSep]
  split_ifs
  · rfl
  · split
    · rfl
    · next hi => exact nomatch h.symm.trans hi

theorem splitSep_some (hsep : sep ≠ []) (h : findSep stop sep s = some i) :
    splitSep stop sep s = s.take i :: splitSep stop sep (s.drop (i + sep.length)) := by
  rw [splitSep, dif_neg hsep]
  split
  · next hi => exact nomatch h.symm.trans hi
  · next j hi =>
    obtain rfl := Option.some.inj (h.symm.trans hi)
    rfl

theorem splitSep_ne_nil (s : List α) : splitSep stop sep s ≠ [] := by
  rw [splitSep]
  split_ifs
  · exact List.cons_ne_nil _ _
  · split <;> exact List.cons_ne_nil _ _

/-- Splitting goes on with a shorter list. -/
theorem length_drop_lt (hsep : sep ≠ []) (h : findSep stop sep s = some i) :
    (s.drop (i + sep.length)).length < s.length := by
  have hlt := (findSep_eq_some h).1
  have hpos : 0 < sep.length := List.length_pos_iff.mpr hsep
  rw [List.length_drop]
  omega

/-- Joining the pieces by the separator gives the list. -/
theorem intercalate_splitSep (hsep : sep ≠ []) (s : List α) :
    sep.intercalate (splitSep stop sep s) = s := by
  induction hn : s.length using Nat.strongRecOn generalizing s with
  | ind n ih =>
    cases h : findSep stop sep s with
    | none => rw [splitSep_none h, List.intercalate_singleton]
    | some i =>
      rw [splitSep_some hsep h, List.intercalate_cons_of_ne_nil (splitSep_ne_nil _),
        ih _ (hn ▸ length_drop_lt hsep h) _ rfl, List.append_assoc,
        take_append_drop_of_findSep h]

/-- If nothing ends the search, no piece contains the separator. -/
theorem not_infix_splitSep (hsep : sep ≠ []) (hstop : ∀ c ∈ s, ¬ stop c) :
    ∀ p ∈ splitSep stop sep s, ¬ sep <:+: p := by
  induction hn : s.length using Nat.strongRecOn generalizing s with
  | ind n ih =>
    cases h : findSep stop sep s with
    | none =>
      rw [splitSep_none h, List.forall_mem_singleton]
      exact not_infix_of_findSep hsep hstop h
    | some i =>
      rw [splitSep_some hsep h, List.forall_mem_cons]
      exact ⟨not_infix_take h hsep, ih _ (hn ▸ length_drop_lt hsep h)
        (fun c hc ↦ hstop c (List.mem_of_mem_drop hc)) rfl⟩

end Cmem
