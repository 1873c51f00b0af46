import Dlbase.Bstree.Delete

/-!
# Deleting from an AVL tree

When `dl_bstree_delete_by_key` leaves an AVL tree without the key, and that it does not always.
-/

namespace Dlbase.Bstree

open Cmem BinaryTree

variable {s : State} {T : Shape} {k : Int}

/-- The state holds the AVL tree `T`, with parent links that are right or null. -/
structure IsAvl (s : State) (T : Shape) : Prop where
  /-- The links make up the tree. -/
  rep : Rep none Loose s.cells none s.root T
  /-- No node occurs twice. -/
  nodup : (addrs T).Nodup
  /-- It is a search tree. -/
  ordered : Ordered T
  /-- The stored heights are the real ones. -/
  exact : Exact T
  /-- It is balanced. -/
  avl : Avl T

/-- `dl_bstree_delete_by_key` returns and leaves an AVL tree of the nodes with other keys. -/
def Deletes (s : State) (T : Shape) (k : Int) : Prop :=
  ∃ s' p T', Returns (fun fuel ↦ deleteByKey fuel s k) (s', p) ∧ IsAvl s' T' ∧
    idents T' = (idents T).filter fun i ↦ i.2 ≠ k

theorem steady_min (h : Cells) (p : Ptr) : Steady fun fuel ↦ min fuel h p := by
  intro fuel
  induction fuel generalizing p with
  | zero => exact .timeout _
  | succ fuel ih => exact .ite (.refl _) (.bind_right _ fun l ↦ .ite (ih l) (.refl _))

theorem steady_delete (h : Cells) (p : Ptr) (k : Int) : Steady fun fuel ↦ delete fuel h p k := by
  intro fuel
  induction fuel generalizing h p k with
  | zero => exact .timeout _
  | succ fuel ih =>
    refine .ite (.refl _) (.bind_right _ fun n ↦ .ite ?_ (.ite ?_ ?_))
    · exact .bind_right _ fun q ↦ (ih h q k).bind fun _ ↦ .refl _
    · exact .bind_right _ fun q ↦ (ih h q k).bind fun _ ↦ .refl _
    · refine .bind_right _ fun l ↦ .bind_right _ fun r ↦ .ite (.refl _) ?_
      refine (steady_min h r fuel).bind fun c ↦ .bind_right _ fun h' ↦ .bind_right _ fun q ↦ ?_
      exact (ih h' q n).bind fun _ ↦ .refl _

theorem steady_deleteByKey (s : State) (k : Int) : Steady fun fuel ↦ deleteByKey fuel s k := fun fuel ↦
  .ite (.refl _) ((steady_delete s.cells s.root k fuel).bind fun _ ↦ .refl _)

/-- What `dl_bstree_delete_by_key` does, given enough fuel. -/
theorem IsAvl.yields {fuel : Nat} (h : IsAvl s T) (hfuel : T.height < fuel) :
    Yields none .left s.cells (addrs T) (delete fuel s.cells s.root k)
      (deleted (linked s.cells) k T) :=
  delete_yields h.rep h.nodup h.ordered nofun nofun hfuel

theorem deleteByKey_eq {fuel : Nat} (h : IsAvl s T) (hT : T ≠ .nil) :
    deleteByKey fuel s k = delete fuel s.cells s.root k >>= fun x ↦
      .ok ({ s with root := x.2, cells := x.1 }, x.2) :=
  if_neg fun e ↦ hT (h.rep.eq_nil_iff.mpr e)

/-- `dl_bstree_delete_by_key` leaves an AVL tree without the key exactly if no rotation on the way
up meets a higher child that leans to the right and no null parent link is followed. -/
theorem delete_iff (h : IsAvl s T) : Deletes s T k ↔ Deletable (linked s.cells) k T := by
  by_cases hT : T = .nil
  · subst hT
    have hroot : s.root = none := h.rep
    exact ⟨fun _ ↦ trivial, fun _ ↦ ⟨s, none, .nil, ⟨0, fun fuel _ ↦ if_pos hroot⟩, h, rfl⟩⟩
  have hout : Outcome (Deletable (linked s.cells) k T) (Lowers k T) T (deleted (linked s.cells) k T) :=
    deleted_outcome h.avl h.exact (height_lt h.avl h.nodup)
  constructor
  · rintro ⟨s', p, T', ⟨N, hN⟩, hT', -⟩
    by_contra hbad
    have hrun : deleteByKey (max N (T.height + 1)) s k = .ok (s', p) := hN _ (Nat.le_max_left ..)
    have hy := h.yields (k := k) (Nat.le_max_right N (T.height + 1))
    rw [deleteByKey_eq h hT] at hrun
    cases hdel : deleted (linked s.cells) k T with
    | none =>
      rw [hdel] at hy
      rw [show _ = Exec.undef from hy] at hrun
      cases hrun
    | some t' =>
      rw [hdel] at hy
      obtain ⟨h', hrun', hr', -⟩ := hy
      rw [hrun', Exec.ok_bind] at hrun
      cases hrun
      have heq : T' = t' := hT'.rep.unique hr'
      exact (hout.spoiled hbad t' hdel).not_avl (heq ▸ hT'.avl)
  · intro hgood
    obtain ⟨t', hdel, hs⟩ := hout.shrunk hgood
    have hy := h.yields (k := k) (Nat.lt_succ_self _)
    rw [hdel] at hy
    obtain ⟨h', hrun, hr', -⟩ := hy
    have hid := idents_deleted h.ordered hdel
    refine ⟨{ s with root := ptr none t', cells := h' }, _, t',
      (steady_deleteByKey s k).returns (n := T.height + 1) (by rw [deleteByKey_eq h hT, hrun]; rfl),
      ⟨hr', (addrs_deleted_sublist h.ordered hdel).nodup h.nodup, ?_, hs.exact, hs.avl⟩, hid⟩
    rw [Ordered, hid]
    exact h.ordered.filter _

/-! ## Deleting from the tree of 2, 1, 3, 4 -/

/-- The nodes after 2, 1, 3 and 4 have been inserted. -/
def fourCells : Cells
  | 1 => ⟨some 2, some 3, none, ⟨2, 3⟩⟩
  | 2 => ⟨none, none, some 1, ⟨1, 1⟩⟩
  | 3 => ⟨none, some 4, some 1, ⟨3, 2⟩⟩
  | 4 => ⟨none, none, some 3, ⟨4, 1⟩⟩
  | _ => ⟨none, none, none, ⟨0, 0⟩⟩

/-- The tree of these nodes. -/
def fourNodes : State := { root := some 1, insert := insertValue, cells := fourCells }

/-- The tree of these nodes as a shape. -/
def fourShape : Shape :=
  .node (1, ⟨2, 3⟩) (.node (2, ⟨1, 1⟩) .nil .nil)
    (.node (3, ⟨3, 2⟩) .nil (.node (4, ⟨4, 1⟩) .nil .nil))

theorem isAvl_fourNodes : IsAvl fourNodes fourShape where
  rep := by simp [fourNodes, fourShape, fourCells, rep_node, Loose]
  nodup := by decide
  ordered := by
    unfold Ordered
    decide
  exact := by simp [fourShape, BinaryTree.height]
  avl := by simp [fourShape, BinaryTree.height]

/-- The keys 2, 3 and 4 can be deleted, the key 1 cannot. -/
theorem delete_fourNodes : Deletes fourNodes fourShape 2 ∧ ¬ Deletes fourNodes fourShape 1 :=
  ⟨(delete_iff isAvl_fourNodes).mpr (by decide), fun h ↦
    absurd ((delete_iff isAvl_fourNodes).mp h) (by decide)⟩

theorem delete_one (fuel : Nat) : deleteByKey (fuel + 2) fourNodes 1 = Exec.undef := rfl

/-- Deleting the key 1 dereferences a null child. -/
theorem delete_not_total : ¬ ∀ (s : State) (T : Shape) (k : Int), IsAvl s T → Deletes s T k := by
  intro hall
  obtain ⟨s', p, T', ⟨N, hN⟩, -⟩ := hall _ _ 1 isAvl_fourNodes
  have hret := hN (N + 2) (Nat.le_add_right N 2)
  exact nomatch (delete_one N).symm.trans hret

end Dlbase.Bstree
