import Mathlib

/-!
# Insertion from the back

An element is put into a sorted list behind the last element that is not greater.  Doing so with the
elements of a list one after the other sorts the list, and keeps equal elements in their order.
-/

namespace Cmem

variable {α : Type _} {r : α → α → Prop} {a b q : α} {l l' A c : List α}

/-- `l'` is `l` sorted, with equal elements in the order they had. -/
structure StableSort (r : α → α → Prop) (l l' : List α) : Prop where
  /-- The elements are the same. -/
  perm : l'.Perm l
  /-- They are sorted. -/
  sorted : l'.Pairwise r
  /-- What was sorted already has kept its order. -/
  stable : ∀ c : List α, c.Pairwise r → c.Sublist l → c.Sublist l'

/-- Equal elements keep their order. -/
theorem StableSort.pair (h : StableSort r l l') (hab : r a b) (hl : [a, b].Sublist l) :
    [a, b].Sublist l' :=
  h.stable _ (List.pairwise_pair.mpr hab) hl

theorem StableSort.singleton (r : α → α → Prop) (a : α) : StableSort r [a] [a] :=
  ⟨.refl _, List.pairwise_singleton _ _, fun _ _ h ↦ h⟩

/-- A list that is sorted already. -/
theorem StableSort.refl (h : l.Pairwise r) : StableSort r l l := ⟨.refl _, h, fun _ _ hc ↦ hc⟩

variable [DecidableRel r]

/-- The elements in front of the place of `q`. -/
def frontOf (r : α → α → Prop) [DecidableRel r] (q : α) (A : List α) : List α :=
  A.rdropWhile fun x ↦ ¬ r x q

/-- The elements behind the place of `q`. -/
def backOf (r : α → α → Prop) [DecidableRel r] (q : α) (A : List α) : List α :=
  A.rtakeWhile fun x ↦ ¬ r x q

theorem frontOf_append_backOf (r : α → α → Prop) [DecidableRel r] (q : α) (A : List α) :
    frontOf r q A ++ backOf r q A = A := List.rdropWhile_append_rtakeWhile

/-- All elements behind the place are greater. -/
theorem not_of_mem_backOf (h : a ∈ backOf r q A) : ¬ r a q := by
  have hmem := List.mem_rtakeWhile_imp h
  rwa [decide_eq_true_eq] at hmem

/-- No element in front of the place is greater. -/
theorem of_mem_frontOf [IsTrans α r] (hA : A.Pairwise r) (h : a ∈ frontOf r q A) : r a q := by
  have hne : frontOf r q A ≠ [] := List.ne_nil_of_mem h
  have hlast : r ((frontOf r q A).getLast hne) q := by
    have hnot := List.rdropWhile_last_not (fun x ↦ ¬ r x q) A hne
    rwa [decide_eq_true_eq, not_not] at hnot
  have hsorted : (frontOf r q A).Pairwise r := hA.sublist (List.rdropWhile_prefix _ _).sublist
  rw [← List.dropLast_append_getLast hne, List.pairwise_append] at hsorted
  rw [← List.dropLast_append_getLast hne, List.mem_append] at h
  rcases h with h | h
  · exact IsTrans.trans _ _ _ (hsorted.2.2 a h _ (List.mem_singleton_self _)) hlast
  · rwa [List.mem_singleton.mp h]

/-- One more element is sorted in. -/
theorem StableSort.insert [Std.Total r] [IsTrans α r] (h : StableSort r l A) (q : α) :
    StableSort r (l ++ [q]) (frontOf r q A ++ q :: backOf r q A) where
  perm := by
    refine List.perm_middle.trans ?_
    rw [frontOf_append_backOf]
    exact (h.perm.cons q).trans (List.perm_append_singleton q l).symm
  sorted := by
    have hA := h.sorted
    have hfront {a : α} (ha : a ∈ frontOf r q A) : r a q := of_mem_frontOf hA ha
    rw [← frontOf_append_backOf r q A, List.pairwise_append] at hA
    obtain ⟨hl, hr, hlr⟩ := hA
    rw [List.pairwise_append, List.pairwise_cons]
    refine ⟨hl, ⟨fun b hb ↦ ?_, hr⟩, fun a ha b hb ↦ ?_⟩
    · exact (total_of r q b).resolve_right (not_of_mem_backOf hb)
    · rcases List.mem_cons.mp hb with rfl | hb
      · exact hfront ha
      · exact hlr a ha b hb
  stable c hc hcl := by
    have hA : frontOf r q A ++ backOf r q A = A := frontOf_append_backOf r q A
    obtain ⟨c₁, c₂, rfl, h₁, h₂⟩ := List.sublist_append_iff.mp hcl
    rw [List.pairwise_append] at hc
    obtain ⟨hc₁, -, hcq⟩ := hc
    have hA₁ := h.stable c₁ hc₁ h₁
    rcases List.sublist_cons_iff.mp h₂ with h₂ | ⟨c₃, rfl, h₃⟩
    · rw [List.sublist_nil.mp h₂, List.append_nil]
      rw [← hA] at hA₁
      exact hA₁.trans (List.Sublist.append_left (List.sublist_cons_self _ _) _)
    · -- no element of `c₁` is greater than `q`, and so all are in front of it
      rw [List.sublist_nil.mp h₃] at hcq ⊢
      rw [← hA] at hA₁
      obtain ⟨d₁, d₂, rfl, hd₁, hd₂⟩ := List.sublist_append_iff.mp hA₁
      have hd₂ : d₂ = [] := List.eq_nil_iff_forall_not_mem.mpr fun a ha ↦
        not_of_mem_backOf (hd₂.subset ha)
          (hcq a (List.mem_append_right _ ha) q (List.mem_singleton_self q))
      rw [hd₂, List.append_nil]
      exact List.Sublist.append hd₁ (List.Sublist.cons_cons q (List.nil_sublist _))

end Cmem
