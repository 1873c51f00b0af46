import Dlbase.Json.Model

/-!
# Inserting nodes

`json_insert_child` adds a tree as the last child of a node, and changes nothing else.
-/

namespace Dlbase.Json

open Cmem Cmem.Rose

variable {m : Mem} {H : Cells Node} {v : Nat × Data} {cs : List (Placed Data)} {t : Placed Data}
  {k : Links} {a : Nat} {n : Node}

/-- A tree that is accepted becomes the last child of a node without children. -/
theorem insertChild_first (h : Exactly m (cell v.1 (root (.node v []) k) + (t.cells .none + H)))
    (hacc : accepts (root (.node v []) k) (t.root .none)) :
    ∃ m', insertChild m v.1 t.addr = .ok (m', .ok) ∧
      Exactly m' ((Rose.node v [t]).cells k + H) := by
  have hne : v.1 ≠ t.addr := fun he ↦ h.toHolds.ne (e := (t.addr, t.root .none))
    (Multiset.mem_add.mpr (.inl (by rw [cells_eq]; exact Holds.mem_cell))) he.symm
  have hchild : Exactly m (cell t.addr (t.root .none) + (cell v.1 (root (.node v []) k) +
      (t.under + H))) := h.of_eq (by rw [cells_eq]; abel)
  obtain ⟨m₁, h₁, hm₁⟩ := hchild.modify ({ · with parent := some v.1 })
  have hparent := hm₁.of_eq (add_left_comm _ _ _)
  obtain ⟨m₂, h₂, hm₂⟩ := hparent.modify ({ · with child := some t.addr })
  obtain ⟨m₃, h₃, hm₃⟩ := hm₂.modify ({ · with childEnd := some t.addr })
  refine ⟨m₃, ?_, hm₃.of_eq ?_⟩
  · rw [insertChild, if_neg hne, h.get_eq, Exec.ok_bind, hchild.get_eq, Exec.ok_bind,
      if_neg (not_not.mpr hacc), setParent, h₁, Exec.ok_bind, hparent.get_eq, Exec.ok_bind,
      if_neg (show ¬ (root (.node v []) k).child.isSome from Bool.false_ne_true), setChild, h₂,
      Exec.ok_bind, setChildEnd, h₃, Exec.ok_bind]
    rfl
  · rw [cells, cellsAll_singleton, cells_eq, root, root]
    simp only [add_assoc]
    rfl

/-- A tree that is accepted becomes the last child of a node with children. -/
theorem insertChild_next {ls : List (Placed Data)} {l : Placed Data}
    (h : Exactly m ((Rose.node v (ls ++ [l])).cells k + (t.cells .none + H)))
    (hacc : accepts (root (.node v (ls ++ [l])) k) (t.root .none)) :
    ∃ m', insertChild m v.1 t.addr = .ok (m', .ok) ∧
      Exactly m' ((Rose.node v (ls ++ [l] ++ [t])).cells k + H) := by
  let lk : Links := ⟨some v.1, lastAddr none ls, none⟩
  let C : Cells Node := cellsAll ls (some v.1) none (some l.addr)
  have hlast : (root (.node v (ls ++ [l])) k).childEnd = some l.addr :=
    lastAddr_append_singleton none ls l
  have hsome : (root (.node v (ls ++ [l])) k).child.isSome := by
    cases ls <;> rfl
  have hcells : (Rose.node v (ls ++ [l])).cells k = cell v.1 (root (.node v (ls ++ [l])) k) +
      (C + (cell l.addr (l.root lk) + l.under)) := by
    rw [cells, cellsAll_append, cellsAll_singleton, cells_eq l]
    rfl
  have hparent : Exactly m (cell v.1 (root (.node v (ls ++ [l])) k) +
      (t.cells .none + (C + (cell l.addr (l.root lk) + l.under) + H))) :=
    h.of_eq (by rw [hcells]; abel)
  have hne : v.1 ≠ t.addr := fun he ↦ hparent.toHolds.ne (e := (t.addr, t.root .none))
    (Multiset.mem_add.mpr (.inl (by rw [cells_eq]; exact Holds.mem_cell))) he.symm
  have hchild : Exactly m (cell t.addr (t.root .none) + (cell v.1 (root (.node v (ls ++ [l])) k) +
      (t.under + (C + (cell l.addr (l.root lk) + l.under) + H)))) :=
    hparent.of_eq (by rw [cells_eq t]; abel)
  obtain ⟨m₁, h₁, hm₁⟩ := hchild.modify ({ · with parent := some v.1 })
  have hget : m₁.get v.1 = .ok (root (.node v (ls ++ [l])) k) :=
    (hm₁.of_eq (add_left_comm _ _ _)).get_eq
  obtain ⟨m₂, h₂, hm₂⟩ := hm₁.modify ({ · with previous := some l.addr })
  have hl : Exactly m₂ (cell l.addr (l.root lk) + (cell t.addr _ +
    (cell v.1 (root (.node v (ls ++ [l])) k) + (t.under + (C + l.under + H))))) :=
      hm₂.of_eq (by abel)
  obtain ⟨m₃, h₃, hm₃⟩ := hl.modify ({ · with next := some t.addr })
  have hv : Exactly m₃ (cell v.1 (root (.node v (ls ++ [l])) k) + (cell l.addr _ +
    (cell t.addr _ + (t.under + (C + l.under + H))))) := hm₃.of_eq (by abel)
  obtain ⟨m₄, h₄, hm₄⟩ := hv.modify ({ · with childEnd := some t.addr })
  refine ⟨m₄, ?_, hm₄.of_eq ?_⟩
  · rw [insertChild, if_neg hne, hparent.get_eq, Exec.ok_bind, hchild.get_eq, Exec.ok_bind,
      if_neg (not_not.mpr hacc), setParent, h₁, Exec.ok_bind, hget, Exec.ok_bind, if_pos hsome,
      hlast, setPrevious, h₂, Exec.ok_bind, deref, Exec.ok_bind, setNext, h₃, Exec.ok_bind,
      setChildEnd, h₄, Exec.ok_bind]
    rfl
  · have hroot : root (.node v (ls ++ [l] ++ [t])) k =
        { root (.node v (ls ++ [l])) k with childEnd := some t.addr } := by
      simp only [root, children_node, lastAddr_append_singleton, val_node, RoseNode.mk.injEq,
        and_true, true_and]
      cases ls <;> rfl
    rw [cells, cellsAll_append, cellsAll_append, cellsAll_singleton, cellsAll_singleton,
      cells_eq l, cells_eq t, lastAddr_append_singleton, hroot]
    have he : ∀ a b c d e f g : Cells Node, a + (b + (c + (d + (e + f + g)))) =
        a + (e + (b + f) + (c + d)) + g := fun a b c d e f g ↦ by abel
    exact he _ _ _ _ _ _ _

/-- A tree that is accepted becomes the last child. -/
theorem insertChild_spec (h : Exactly m ((Rose.node v cs).cells k + (t.cells .none + H)))
    (hacc : accepts (root (.node v cs) k) (t.root .none)) :
    ∃ m', insertChild m v.1 t.addr = .ok (m', .ok) ∧
      Exactly m' ((Rose.node v (cs ++ [t])).cells k + H) := by
  rcases List.eq_nil_or_concat' cs with rfl | ⟨ls, l, rfl⟩
  · refine insertChild_first (h.of_eq ?_) hacc
    rw [cells, cellsAll, add_zero]
  · exact insertChild_next h hacc

end Dlbase.Json
