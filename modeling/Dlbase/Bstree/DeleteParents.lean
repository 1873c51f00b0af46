import Dlbase.Bstree.DeleteByKey
import Dlbase.Bstree.Next

/-!
# Parent links after an AVL deletion

A rotation clears the parent link of the new root of the subtree.  On the way up from an insertion
the link is set again; on the way up from a deletion it is not.  So `dl_bstree_delete` keeps the
parent links exact as long as it rotates nowhere but at the root of the tree.
-/

namespace Dlbase.Bstree

open Cmem BinaryTree

variable {h h' : Cells} {par p q : Ptr} {d e : Side} {a b g m x y : Addr} {v vg vm : Data}
  {t t' l r A X X' Y M : Shape} {k : Int} {c : Ctx (Addr × Data)}

/-! ## What the primitives do to parent links -/

theorem store_eq_ok {f : Cell Addr Data → Cell Addr Data} (hrun : h.store p f = .ok h') :
    ∃ a, p = some a ∧ h' = h.upd a f := by
  cases p with
  | none => cases hrun
  | some a => exact ⟨a, rfl, (Except.ok.inj hrun).symm⟩

theorem parent_setChild {o : Ptr} (hrun : setChild h d p o = .ok h') (b : Addr) :
    (h' b).parent = (h b).parent := by
  obtain ⟨a, rfl, rfl⟩ := store_eq_ok hrun
  by_cases hb : b = a <;> simp [hb]

theorem parent_setParent {o : Ptr} (hrun : setParent h p o = .ok h') (b : Addr) :
    (h' b).parent = if p = some b then o else (h b).parent := by
  obtain ⟨a, rfl, rfl⟩ := store_eq_ok hrun
  by_cases hb : b = a
  · simp [hb]
  · simp [hb, Ne.symm hb]

theorem parent_hang {o : Ptr} (hrun : hang h p o = .ok h') (b : Addr) :
    (h' b).parent = if p = some b then o else (h b).parent := by
  unfold hang at hrun
  split_ifs at hrun with hp
  · exact parent_setParent hrun b
  · rw [not_not] at hp
    obtain rfl := Except.ok.inj hrun
    simp [hp]

theorem parent_updateHeight (hrun : updateHeight h p = .ok h') (b : Addr) :
    (h' b).parent = (h b).parent := by
  simp only [updateHeight, Exec.bind_eq_ok] at hrun
  obtain ⟨_, -, _, -, _, -, _, -, hrun⟩ := hrun
  obtain ⟨a, rfl, rfl⟩ := store_eq_ok hrun
  by_cases hb : b = a <;> simp [hb]

/-- A rotation clears the parent link of the new root `x`, and sets those of `g` and of the
middle subtree. -/
theorem parent_rotate (hx : (h g).child d.other = some x) (hgx : g ≠ x)
    (hrun : rotate d h (some g) = .ok (h', q)) : q = some x ∧ ∀ b, (h' b).parent =
      if b = x then none else if b = g then some x
        else if (h x).child d = some b then some g else (h b).parent := by
  simp only [rotate, Exec.bind_eq_ok] at hrun
  obtain ⟨o, ho, m, hm, h₁, hrun₁, m', hm', h₂, hrun₂, h₃, hrun₃, h₄, hrun₄, h₅, hrun₅, h₆, hrun₆,
    h₇, hrun₇, hrun⟩ := hrun
  obtain rfl : some x = o := by simpa [child, hx] using ho
  obtain rfl : (h x).child d = m := by simpa [child] using hm
  obtain ⟨rfl, rfl⟩ := Prod.mk.inj (Except.ok.inj hrun)
  have hm' : (h x).child d = m' := by
    obtain ⟨_, ⟨⟩, rfl⟩ := store_eq_ok hrun₁
    simpa [child, Ne.symm hgx] using hm'
  subst hm'
  refine ⟨rfl, fun b ↦ ?_⟩
  rw [parent_updateHeight hrun₇, parent_updateHeight hrun₆, parent_setParent hrun₅,
    parent_setParent hrun₄, parent_setChild hrun₃, parent_hang hrun₂, parent_setChild hrun₁]
  simp only [Option.some.injEq, eq_comm]

/-- `dl_bstree_delete` hands the parent link of a node on to the child that replaces it. -/
theorem parent_replace (hrun : replace h (some g) (some x) = .ok h') (b : Addr) :
    (h' b).parent = if b = x then (h g).parent else (h b).parent := by
  simp only [replace, parent, Heap.load_some, Exec.ok_bind, Exec.pure_eq_ok] at hrun
  split_ifs at hrun with hp
  · rw [parent_setParent hrun b, hp]
    simp only [Option.some.injEq, eq_comm]
  · simp only [Exec.bind_eq_ok] at hrun
    obtain ⟨h₁, hrun₁, _, -, hrun⟩ := hrun
    have hlast : (h' b).parent = (h₁ b).parent := by
      split_ifs at hrun <;> exact parent_setChild hrun b
    rw [hlast, parent_setParent hrun₁ b]
    simp only [Option.some.injEq, eq_comm]

theorem parent_splice (hrun : splice h (some g) = .ok (h', q)) (b : Addr) :
    (h' b).parent = if q = some b then (h g).parent else (h b).parent := by
  simp only [splice, Exec.bind_eq_ok] at hrun
  obtain ⟨o, -, hrun⟩ := hrun
  split_ifs at hrun with ho
  · obtain ⟨h₁, hrun₁, hrun⟩ := Exec.bind_eq_ok.mp hrun
    obtain ⟨rfl, rfl⟩ := Prod.mk.inj (Except.ok.inj hrun)
    simp only [unlink, parent, Heap.load_some, Exec.ok_bind, Exec.pure_eq_ok] at hrun₁
    split_ifs at hrun₁ with hp
    · rw [← Except.ok.inj hrun₁]
      simp
    · obtain ⟨_, -, hrun₁⟩ := Exec.bind_eq_ok.mp hrun₁
      split_ifs at hrun₁ <;> simpa using parent_setChild hrun₁ b
  · obtain ⟨h₁, hrun₁, hrun⟩ := Exec.bind_eq_ok.mp hrun
    obtain ⟨rfl, rfl⟩ := Prod.mk.inj (Except.ok.inj hrun)
    obtain ⟨x, rfl⟩ := Option.ne_none_iff_exists'.mp ho
    rw [parent_replace hrun₁ b]
    simp only [Option.some.injEq, eq_comm]

/-- A parent link that is null after a `setParent` to a cell was so before, and elsewhere. -/
theorem parent_setParent_null (hrun : setParent h p (some a) = .ok h') (hb : (h' b).parent = none) :
    p ≠ some b ∧ (h b).parent = none := by
  rw [parent_setParent hrun b] at hb
  split_ifs at hb with hp
  exact ⟨hp, hb⟩

theorem parent_hang_null (hrun : hang h p (some a) = .ok h') (hb : (h' b).parent = none) :
    (h b).parent = none := by
  rw [parent_hang hrun b] at hb
  split_ifs at hb
  exact hb

/-- The change of places clears no parent link, but for handing on a null one to the successor. -/
theorem parent_swap (hrun : swap h (some g) (some m) = .ok h') (hb : (h' b).parent = none) :
    (b = m ∧ (h g).parent = none) ∨ (b ≠ g ∧ b ≠ m ∧ (h b).parent = none) := by
  simp only [swap, Heap.load_some, Exec.ok_bind, Exec.bind_eq_ok] at hrun
  obtain ⟨h₁, hrun₁, _, -, h₂, hrun₂, y, -, h₃, hrun₃, z, -, hrun⟩ := hrun
  -- the first half sets the parent link of the successor only
  have hfirst : (h₃ b).parent = none → b ≠ g →
      (b = m ∧ (h g).parent = none) ∨ (b ≠ g ∧ b ≠ m ∧ (h b).parent = none) := by
    intro hb₃ hbg
    obtain ⟨-, hb₂⟩ := parent_setParent_null hrun₃ hb₃
    rw [parent_setChild hrun₂, parent_replace hrun₁ b] at hb₂
    split_ifs at hb₂ with hbm
    · exact .inl ⟨hbm, hb₂⟩
    · exact .inr ⟨hbg, hbm, hb₂⟩
  split_ifs at hrun with hz
  · simp only [Exec.bind_eq_ok] at hrun
    obtain ⟨h₄, hrun₄, h₅, hrun₅, h₆, hrun₆, h₇, hrun₇, hrun₈⟩ := hrun
    have hb₇ := parent_hang_null hrun₈ hb
    rw [parent_setChild hrun₇, parent_setChild hrun₆] at hb₇
    obtain ⟨hbg, hb₄⟩ := parent_setParent_null hrun₅ hb₇
    rw [parent_setChild hrun₄] at hb₄
    exact hfirst hb₄ fun e ↦ hbg (by rw [e])
  · simp only [Exec.bind_eq_ok] at hrun
    obtain ⟨h₄, hrun₄, h₅, hrun₅, h₆, hrun₆, h₇, hrun₇, h₈, hrun₈, h₉, hrun₉, hrun⟩ := hrun
    have hb₉ := parent_hang_null hrun hb
    rw [parent_setChild hrun₉, parent_setChild hrun₈] at hb₉
    obtain ⟨o, ho, -⟩ := store_eq_ok hrun₈
    rw [ho] at hrun₇
    obtain ⟨hbg, hb₆⟩ := parent_setParent_null hrun₇ hb₉
    rw [parent_setChild hrun₆] at hb₆
    obtain ⟨-, hb₄⟩ := parent_setParent_null hrun₅ hb₆
    rw [parent_setChild hrun₄] at hb₄
    exact hfirst hb₄ fun e ↦ hbg (by rw [e])

/-! ## Rotating -/

/-- What a rotation towards the lower subtree `X` of `a` does to the parent links: the one of the new
root `z`, which comes from the higher subtree `Y`, is cleared, and no other. -/
structure Turned (h h' : Cells) (a : Addr) (X Y : Shape) (z : Addr) : Prop where
  /-- The new root comes from the higher subtree. -/
  mem : z ∈ addrs Y
  /-- It has no parent. -/
  root : (h' z).parent = none
  /-- Nothing changes in the lower subtree. -/
  low : ∀ b ∈ addrs X, (h' b).parent = (h b).parent
  /-- The old root has a parent. -/
  node : (h' a).parent ≠ none
  /-- The other nodes of the higher subtree keep one. -/
  high : ∀ b ∈ addrs Y, b ≠ z → (h b).parent ≠ none → (h' b).parent ≠ none

theorem turned_rotate (hr : Rep none Loose h par p (sideNode d (a, v) X Y))
    (hnd : (addrs (sideNode d (a, v) X Y)).Nodup) (hrun : rotate d h (some a) = .ok (h', q)) :
    ∃ z, q = some z ∧ ptr none Y = some z ∧ Turned h h' a X Y z := by
  obtain ⟨haX, haY, -, -, hXY⟩ := nodup_addrs_sideNode.mp hnd
  obtain ⟨-, -, -, -, -, hY⟩ := rep_sideNode.mp hr
  have hne : Y ≠ .nil := by
    rintro rfl
    rw [rotate_undef (rep_nil.mp hY)] at hrun
    cases hrun
  obtain ⟨⟨x, vx⟩, B, C, rfl⟩ : ∃ w B C, Y = sideNode d w B C := by
    cases Y with
    | nil => exact absurd rfl hne
    | node w B C => exact ⟨w, exists_sideNode_eq_node d w B C⟩
  obtain ⟨hx, -, -, -, hB, -⟩ := rep_sideNode.mp hY
  have hax : a ≠ x := fun e ↦ haY (by simp [e])
  obtain ⟨rfl, hpar⟩ := parent_rotate hx hax hrun
  refine ⟨x, rfl, ptr_sideNode, by simp, by simp [hpar], fun b hb ↦ ?_, by simp [hpar, hax], fun b _ hbx hb ↦ ?_⟩
  · have hbx : b ≠ x := fun e ↦ hXY b hb (by simp [e])
    have hba : b ≠ a := fun e ↦ haX (e ▸ hb)
    have hbB : (h x).child d ≠ some b := by
      rw [hB.eq_ptr]
      exact ptr_ne (fun hbB ↦ hXY b hb (by simp [hbB])) nofun
    rw [hpar, if_neg hbx, if_neg hba, if_neg hbB]
  · rw [hpar, if_neg hbx]
    split_ifs
    · exact nofun
    · exact nofun
    · exact hb

/-- A tree whose root has no parent can hang anywhere. -/
theorem rep_of_null (hr : Rep none Loose h none p t) : Rep none Loose h q p t := by
  refine hr.reparent fun b hb _ ↦ ?_
  cases t with
  | nil => exact nomatch hb.symm.trans hr
  | node w l r =>
    obtain ⟨hp, -, -, hpar, -⟩ := hr
    rw [Option.some.inj (hb.symm.trans hp)]
    exact .inl (hpar.elim id id)

theorem turned_rotateTwice (hr : Rep none Loose h par p (sideNode d (a, v) X Y))
    (hnd : (addrs (sideNode d (a, v) X Y)).Nodup) (hne : Y ≠ .nil)
    (hrun : rotateTwice d h (some a) = .ok (h', q)) : ∃ z, q = some z ∧ Turned h h' a X Y z := by
  obtain ⟨haX, haY, hndX, hndY, hXY⟩ := nodup_addrs_sideNode.mp hnd
  obtain ⟨rfl, hn, hd, hpar, hX, hY⟩ := rep_sideNode.mp hr
  rw [rotateTwice_eq (q := ptr none Y) (by simp [child, hY.eq_ptr])] at hrun
  obtain ⟨⟨h₁, q₁⟩, hrun₁, hrun⟩ := Exec.bind_eq_ok.mp hrun
  obtain ⟨h₂, hrun₂, hrun⟩ := Exec.bind_eq_ok.mp hrun
  rw [hY.eq_ptr] at hY
  -- the first rotation, of the higher subtree
  obtain ⟨⟨y, vy⟩, B, C, rfl⟩ : ∃ w B C, Y = sideNode d.other w B C := by
    cases Y with
    | nil => exact absurd rfl hne
    | node w B C => exact ⟨w, exists_sideNode_eq_node d.other w B C⟩
  have hYB := (rep_sideNode.mp hY).2.2.2.2.2
  obtain ⟨Y', hY'⟩ : ∃ Y', rot d.other (sideNode d.other (y, vy) B C) = some Y' := by
    by_contra hnone
    obtain ⟨g, A, hshape⟩ := rot_eq_none (t := sideNode d.other (y, vy) B C) (d := d.other)
      (Option.eq_none_iff_forall_ne_some.mpr fun Y' h ↦ hnone ⟨Y', h⟩) hne
    have hC : C = .nil := by
      cases d <;> cases hshape <;> rfl
    subst hC
    rw [ptr_sideNode, rotate_undef (rep_nil.mp hYB)] at hrun₁
    cases hrun₁
  obtain ⟨h₁', _, hrun₁', rfl, hr₁, hh₁⟩ := rotate_makes loose_self hY' hY hndY
  obtain ⟨rfl, rfl⟩ := Prod.mk.inj (Except.ok.inj (hrun₁'.symm.trans hrun₁))
  have hid : idents Y' = idents (sideNode d.other (y, vy) B C) := by
    cases d with
    | left => exact idents_rotR hY'
    | right => exact idents_rotL hY'
  have hmem : ∀ {b}, b ∈ addrs Y' ↔ b ∈ addrs (sideNode d.other (y, vy) B C) := mem_addrs_of_idents hid
  have hkeep : ∀ z, ptr none Y' = some z → ∀ b, b ≠ z → (h b).parent ≠ none → (h₁' b).parent ≠ none := by
    intro z hz b hbz hb
    have hCn : C ≠ .nil := by
      rintro rfl
      rw [ptr_sideNode, rotate_undef (rep_nil.mp hYB)] at hrun₁
      cases hrun₁
    obtain ⟨w, hw⟩ := exists_ptr_eq hCn
    have hyw : y ≠ w := fun e ↦ (nodup_addrs_sideNode.mp hndY).2.1 (e ▸ mem_addrs_of_ptr hw)
    rw [ptr_sideNode] at hrun₁
    obtain ⟨hqw, hall⟩ := parent_rotate (hYB.eq_ptr.trans hw) hyw hrun₁
    obtain rfl : z = w := Option.some.inj (hz.symm.trans hqw)
    rw [hall, if_neg hbz]
    split_ifs
    · rintro ⟨⟩
    · rintro ⟨⟩
    · exact hb
  -- its new root is linked
  obtain ⟨_, ⟨⟩, rfl⟩ := store_eq_ok hrun₂
  have haY' : a ∉ addrs Y' := fun ha ↦ haY (hmem.mp ha)
  have ha₁ : h₁' a = h a := hh₁ a haY
  have hr₂ : Rep none Loose (h₁'.upd a (·.setChild d.other (ptr none Y'))) par (some a)
      (sideNode d (a, v) X Y') := by
    refine rep_sideNode.mpr ⟨rfl, hn, by simpa [ha₁] using hd, by simpa [ha₁] using hpar, ?_, ?_⟩
    · rw [Heap.upd_same, Cell.child_other_setChild, ha₁]
      refine hX.congr fun b hb ↦ ?_
      have hba : b ≠ a := fun e ↦ haX (e ▸ hb)
      rw [Heap.upd_of_ne _ _ hba, hh₁ b (hXY b hb)]
    · rw [Heap.upd_same, Cell.child_setChild_self]
      exact (rep_of_null hr₁).congr (h₁'.upd_eq_on _ haY')
  have hnd₂ : (addrs (sideNode d (a, v) X Y')).Nodup := nodup_addrs_sideNode.mpr ⟨haX, haY', hndX,
    by rwa [addrs_eq_idents, hid, ← addrs_eq_idents], fun b hb hbY ↦ hXY b hb (hmem.mp hbY)⟩
  obtain ⟨z, rfl, hz, hturn⟩ := turned_rotate hr₂ hnd₂ hrun
  have hpar₂ : ∀ b, (h₁'.upd a (·.setChild d.other (ptr none Y')) b).parent = (h₁' b).parent :=
    parent_setChild hrun₂
  refine ⟨z, rfl, hmem.mp hturn.mem, hturn.root, fun b hb ↦ ?_, hturn.node, fun b hb hbz hlink ↦ ?_⟩
  · rw [hturn.low b hb, hpar₂, hh₁ b (hXY b hb)]
  · refine hturn.high b (hmem.mpr hb) hbz ?_
    rw [hpar₂]
    exact hkeep z hz b hbz hlink

/-- What the end of `dl_bstree_delete` does to the parent links of a node whose subtree `X` may have
become too low. -/
theorem rebalance_parents (hr : Rep none Loose h par p (sideNode d (a, v) X Y))
    (hnd : (addrs (sideNode d (a, v) X Y)).Nodup) (hX : Exact X) (hY : Exact Y)
    (hXY : X.height ≤ Y.height + 1) (hYX : Y.height ≤ X.height + 2)
    (hb : max X.height Y.height < 2 ^ 64) (hrun : rebalance h (some a) = .ok (h', q)) :
    if Y.height = X.height + 2 then ∃ z, q = some z ∧ Turned h h' a X Y z
    else q = some a ∧ ∀ b, (h' b).parent = (h b).parent := by
  obtain rfl : p = some a := (rep_sideNode.mp hr).1
  obtain ⟨h₁, hrun₁, hr₁, hh₁⟩ := updateHeight_spec hr hnd
  have hpar := parent_updateHeight hrun₁
  rw [raise_sideNode] at hr₁
  have hnd₁ : ∀ w : Data, (addrs (sideNode d (a, w) X Y)).Nodup := fun w ↦
    nodup_addrs_sideNode.mpr (nodup_addrs_sideNode.mp hnd)
  have hturn : (rotate d h₁ (some a) = .ok (h', q) ∨
      (Y ≠ .nil ∧ rotateTwice d h₁ (some a) = .ok (h', q))) → ∃ z, q = some z ∧ Turned h h' a X Y z := by
    intro hcase
    obtain ⟨z, rfl, hz⟩ : ∃ z, q = some z ∧ Turned h₁ h' a X Y z := by
      rcases hcase with hrun | ⟨hne, hrun⟩
      · obtain ⟨z, hz, -, hturn⟩ := turned_rotate hr₁ (hnd₁ _) hrun
        exact ⟨z, hz, hturn⟩
      · exact turned_rotateTwice hr₁ (hnd₁ _) hne hrun
    exact ⟨z, rfl, hz.mem, hz.root, fun b hb ↦ (hz.low b hb).trans (hpar b), hz.node,
      fun b hb hbz hlink ↦ hz.high b hb hbz (by rwa [hpar])⟩
  cases d with
  | left =>
    have hbal := balance_eq hX hY (by omega) (by omega) hb
    rw [rebalance_eq hr hnd hrun₁, hbal, if_neg (by omega)] at hrun
    split_ifs with hhigh
    · rw [if_pos (by omega)] at hrun
      split_ifs at hrun with hlevel
      · exact hturn (.inl hrun)
      · exact hturn (.inr ⟨fun e ↦ hlevel (by rw [e, storedBalance]), hrun⟩)
    · rw [if_neg (by omega)] at hrun
      obtain ⟨rfl, rfl⟩ := Prod.mk.inj (Except.ok.inj hrun)
      exact ⟨rfl, hpar⟩
  | right =>
    rw [sideNode_right] at hr hnd
    have hbal := balance_eq hY hX (by omega) (by omega) (by omega)
    rw [rebalance_eq hr hnd hrun₁, hbal] at hrun
    split_ifs with hhigh
    · rw [if_pos (by omega)] at hrun
      exact hturn (.inl hrun)
    · rw [if_neg (by omega), if_neg (by omega)] at hrun
      obtain ⟨rfl, rfl⟩ := Prod.mk.inj (Except.ok.inj hrun)
      exact ⟨rfl, hpar⟩

/-! ## Where a deletion rotates -/

/-- Taking out the leftmost node rotates a subtree. -/
def MinTurns : Shape → Prop
  | .nil => False
  | .node _ .nil _ => False
  | .node _ (.node x a b) r => MinTurns (.node x a b) ∨
      (MinLowers (.node x a b) ∧ (BinaryTree.node x a b).height < r.height)

/-- Deleting the key `k` rotates a subtree: one of its sides becomes lower that is the lower one
already. -/
def Turns (k : Int) : Shape → Prop
  | .nil => False
  | .node v l r =>
    if k < v.2.key then Turns k l ∨ (Lowers k l ∧ l.height < r.height)
    else if v.2.key < k then Turns k r ∨ (Lowers k r ∧ r.height < l.height)
    else l ≠ .nil ∧ r ≠ .nil ∧ (MinTurns r ∨ (MinLowers r ∧ r.height < l.height))

/-- Deleting the key `k` rotates a subtree other than the whole tree. -/
def TurnsBelow (k : Int) : Shape → Prop
  | .nil => False
  | .node v l r =>
    if k < v.2.key then Turns k l
    else if v.2.key < k then Turns k r
    else l ≠ .nil ∧ r ≠ .nil ∧ MinTurns r

instance MinTurns.decidable : DecidablePred MinTurns
  | .nil => inferInstanceAs (Decidable False)
  | .node _ .nil _ => inferInstanceAs (Decidable False)
  | .node _ (.node x a b) _ =>
    have := MinTurns.decidable (.node x a b)
    inferInstanceAs (Decidable (_ ∨ _ ∧ _))

instance Turns.decidable (k : Int) : DecidablePred (Turns k)
  | .nil => inferInstanceAs (Decidable False)
  | .node v l r =>
    have := Turns.decidable k l
    have := Turns.decidable k r
    inferInstanceAs (Decidable (if k < v.2.key then _ ∨ _ ∧ _ else if v.2.key < k then _ ∨ _ ∧ _
      else _ ∧ _ ∧ (_ ∨ _ ∧ _)))

instance TurnsBelow.decidable (k : Int) : DecidablePred (TurnsBelow k)
  | .nil => inferInstanceAs (Decidable False)
  | .node v _ _ => inferInstanceAs (Decidable (if k < v.2.key then _ else if v.2.key < k then _
      else _ ∧ _ ∧ _))

/-- A wrong rotation is a rotation. -/
theorem minTurns_of_not_minDeletable (hbad : ¬ MinDeletable t) : MinTurns t := by
  induction t with
  | nil => exact absurd trivial hbad
  | node v l r ihl _ =>
    cases l with
    | nil => exact absurd trivial hbad
    | node x a b =>
      rw [MinDeletable, not_and_or] at hbad
      rw [MinTurns]
      refine hbad.imp ihl fun hlow ↦ ?_
      simp only [MayLowerLeft, not_forall, not_not] at hlow
      obtain ⟨hlow, hlt, -⟩ := hlow
      exact ⟨hlow, hlt⟩

theorem turns_of_not_deletable {linked : Addr → Bool} (hdel : deleted linked k t = some t')
    (hbad : ¬ Deletable linked k t) : Turns k t := by
  induction t generalizing t' with
  | nil => exact absurd trivial hbad
  | node v l r ihl ihr =>
    simp only [deleted] at hdel
    simp only [Deletable] at hbad
    simp only [Turns]
    split_ifs at hdel hbad ⊢ with hlt hgt hl hr hlink
    · obtain ⟨l', hl', -⟩ := Option.bind_eq_some_iff.mp hdel
      rw [not_and_or] at hbad
      refine hbad.imp (ihl hl') fun hlow ↦ ?_
      simp only [MayLowerLeft, not_forall, not_not] at hlow
      obtain ⟨hlow, hlt, -⟩ := hlow
      exact ⟨hlow, hlt⟩
    · obtain ⟨r', hr', -⟩ := Option.bind_eq_some_iff.mp hdel
      rw [not_and_or] at hbad
      refine hbad.imp (ihr hr') fun hlow ↦ ?_
      simp only [MayLowerRight, not_forall, not_not] at hlow
      obtain ⟨hlow, hlt, -⟩ := hlow
      exact ⟨hlow, hlt⟩
    · simp [hl] at hbad
    · simp [hr] at hbad
    · simp only [hl, hr, hlink, false_or, true_and, not_and_or] at hbad
      refine ⟨hl, hr, hbad.imp minTurns_of_not_minDeletable fun hlow ↦ ?_⟩
      simp only [MayLowerRight, not_forall, not_not] at hlow
      obtain ⟨hlow, hlt, -⟩ := hlow
      exact ⟨hlow, hlt⟩

/-- A node is rotated exactly if its lower side becomes lower. -/
theorem Outcome.turned_iff {good low : Prop} (hout : Outcome good low X (some X')) (hgood : good)
    (hXY : X.height ≤ Y.height + 1) (hYX : Y.height ≤ X.height + 1) :
    Y.height = X'.height + 2 ↔ low ∧ X.height < Y.height := by
  obtain ⟨_, he, hs⟩ := hout.shrunk hgood
  obtain rfl := Option.some.inj he
  by_cases hlow : low
  · have := hs.lower hlow
    simp only [hlow, true_and]
    omega
  · have := hs.level hlow
    simp only [hlow, false_and, iff_false]
    omega

/-- What a deletion leaves of a subtree has exact heights, and is lower by one at most. -/
theorem Outcome.heights {good low : Prop} (hout : Outcome good low X (some X')) :
    Exact X' ∧ X'.height ≤ X.height ∧ X.height ≤ X'.height + 1 := by
  by_cases hgood : good
  · obtain ⟨_, he, hs⟩ := hout.shrunk hgood
    obtain rfl := Option.some.inj he
    by_cases hlow : low
    · have := hs.lower hlow
      exact ⟨hs.exact, by omega, by omega⟩
    · have := hs.level hlow
      exact ⟨hs.exact, by omega, by omega⟩
  · have hs := hout.spoiled hgood X' rfl
    have := hs.level
    exact ⟨hs.exact, by omega, by omega⟩

/-! ## The way up -/

/-- Every node of the tree has a parent. -/
def Hung (h : Cells) (t : Shape) : Prop := ∀ b ∈ addrs t, (h b).parent ≠ none

/-- The parent links after the node `a` has been rebalanced over its new subtree `X'`, `z` being at
the root. -/
structure Climbed (turn : Prop) (h h₁ h' : Cells) (a : Addr) (X' Y : Shape) (z : Addr) : Prop where
  /-- The new root is the node itself or comes from its other subtree. -/
  mem : z = a ∨ z ∈ addrs Y
  /-- Nothing changes in the new subtree. -/
  low : ∀ b ∈ addrs X', (h' b).parent = (h₁ b).parent
  /-- The other nodes have a parent. -/
  rest : ∀ b, b = a ∨ b ∈ addrs Y → b ≠ z → (h' b).parent ≠ none
  /-- A rotation clears the link of the new root. -/
  turned : turn → (h' z).parent = none
  /-- Without one the root stays as it was. -/
  level : ¬ turn → (h' z).parent = (h a).parent

theorem climb_hung {run : Exec (Cells × Ptr)} (hr : Rep none Loose h par p (sideNode d (a, v) X Y))
    (hnd : (addrs (sideNode d (a, v) X Y)).Nodup)
    (hrunX : Yields (some a) d h (addrs X) run (some X')) (hsub : (addrs X').Sublist (addrs X))
    (hX' : Exact X') (hY : Exact Y) (hXY : X'.height ≤ Y.height + 1)
    (hYX : Y.height ≤ X'.height + 2) (hb : max X'.height Y.height < 2 ^ 64) (hhung : Hung h Y)
    (hrun : (run >>= fun x ↦ setChild x.1 d (some a) x.2 >>= fun h ↦ rebalance h (some a)) =
      .ok (h', q)) :
    ∃ h₁ z, run = .ok (h₁, ptr none X') ∧ q = some z ∧
      Climbed (Y.height = X'.height + 2) h h₁ h' a X' Y z := by
  obtain ⟨haX, haY, -, -, hdisj⟩ := nodup_addrs_sideNode.mp hnd
  obtain ⟨h₁, rfl, hX₁, hh₁⟩ := hrunX
  obtain ⟨hr₂, hnd₂, hold⟩ := relink_rep hr hnd hX₁ hh₁ hsub
  have hpar₂ : ∀ b, (h₁.upd a (·.setChild d (ptr none X')) b).parent = (h₁ b).parent := fun b ↦
    parent_setChild (p := some a) rfl b
  have ha₂ : (h₁.upd a (·.setChild d (ptr none X')) a).parent = (h a).parent := by
    rw [hpar₂]
    rcases hh₁ a haX with he | ⟨-, o, he⟩ <;> simp [he]
  have hY₂ : ∀ b ∈ addrs Y, (h₁.upd a (·.setChild d (ptr none X')) b).parent ≠ none := by
    intro b hbY
    rw [hold b (fun hbX ↦ hdisj b hbX hbY) fun e ↦ haY (e ▸ hbY)]
    exact hhung b hbY
  have hcase := rebalance_parents hr₂ hnd₂ hX' hY hXY hYX hb hrun
  split_ifs at hcase with hturn
  · obtain ⟨z, rfl, hz⟩ := hcase
    refine ⟨h₁, z, rfl, rfl, .inr hz.mem, fun b hb ↦ (hz.low b hb).trans (hpar₂ b), ?_,
      fun _ ↦ hz.root, fun h ↦ absurd hturn h⟩
    rintro b (rfl | hbY) hbz
    · exact hz.node
    · exact hz.high b hbY hbz (hY₂ b hbY)
  · obtain ⟨rfl, hall⟩ := hcase
    refine ⟨h₁, a, rfl, rfl, .inl rfl, fun b _ ↦ (hall b).trans (hpar₂ b), ?_,
      fun h ↦ absurd h hturn, fun _ ↦ (hall a).trans ha₂⟩
    rintro b (rfl | hbY) hbz
    · exact absurd rfl hbz
    · rw [hall]
      exact hY₂ b hbY

/-- All nodes are hung after the step if those of the new subtree are and there is no rotation. -/
theorem Climbed.hung_iff {turn : Prop} {h₁ : Cells} {z : Addr} (hc : Climbed turn h h₁ h' a X' Y z)
    (ha : (h a).parent ≠ none) (ht : ∀ b, b ∈ addrs t' ↔ b ∈ addrs X' ∨ b = a ∨ b ∈ addrs Y) :
    Hung h' t' ↔ Hung h₁ X' ∧ ¬ turn := by
  constructor
  · intro hall
    refine ⟨fun b hb ↦ ?_, fun hturn ↦ ?_⟩
    · rw [← hc.low b hb]
      exact hall b ((ht b).mpr (.inl hb))
    · exact hall z ((ht z).mpr (.inr hc.mem)) (hc.turned hturn)
  · rintro ⟨hX, hturn⟩ b hb
    by_cases hbz : b = z
    · rw [hbz, hc.level hturn]
      exact ha
    · rcases (ht b).mp hb with hb | hb
      · rw [hc.low b hb]
        exact hX b hb
      · exact hc.rest b hb hbz

end Dlbase.Bstree
