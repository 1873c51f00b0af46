import Dlbase.Bstree.InsertShape
import Dlbase.Bstree.Links

/-!
# AVL insertion in memory

`dl_bstree_insert` makes the memory hold the tree that `inserted` computes.  The parent links
are exact: a rotation clears the link of the new root, and the caller sets it again.
-/

namespace Dlbase.Bstree

open Cmem BinaryTree

variable {h h' : Cells} {par p : Ptr} {d : Side} {a x y : Addr} {v : Data} {t l r t' : Shape}
  {k k' : Int}

/-! ## Rebalancing -/

theorem keyLt_eq (hx : (h x).data.key = k) (hy : (h y).data.key = k') :
    keyLt h (some x) (some y) = .ok (decide (k < k')) := by
  simp [keyLt, key, hx, hy]

theorem insertRepair_makes {P : Ptr → Ptr → Prop} (hP : ∀ q, P q q)
    (hr : Rep none P h par p (.node (a, v) l r)) (hnd : (addrs (.node (a, v) l r)).Nodup)
    (hx : (h x).data.key = k) (hxa : x ≠ a)
    (ht : insertRepaired k (.node (a, v) l r) = some t') :
    Makes P (fun q ↦ q = par ∨ q = none) h (addrs (.node (a, v) l r))
      (insertRepair h p (some x)) t' := by
  obtain rfl : p = some a := hr.1
  obtain ⟨h₁, hrun₁, hr₁, hh₁⟩ := updateHeight_spec (d := .left) hr hnd
  rw [sideNode_left] at hr₁
  have hx₁ : (h₁ x).data.key = k := by rw [hh₁ x hxa, hx]
  have hnd₁ : (addrs (raise (.node (a, v) l r))).Nodup := by rwa [addrs_raise]
  rw [← addrs_raise]
  refine Makes.after (fun b hb ↦ hh₁ b fun e ↦ hb (by simp [e])) ?_
  have hbal : getBalance h₁ (some a) = .ok (subWord (storedHeight l) (storedHeight r)) :=
    getBalance_eq hr₁
  have hl₁ : left h₁ (some a) = .ok (ptr none l) := left_eq hr₁
  have hrt₁ : right h₁ (some a) = .ok (ptr none r) := right_eq hr₁
  have hstay : raise (.node (a, v) l r) = t' → Makes P (fun q ↦ q = par ∨ q = none) h₁
      (addrs (raise (.node (a, v) l r))) (.ok (h₁, some a)) t' := by
    rintro rfl
    exact ⟨h₁, par, rfl, .inl rfl, hr₁, fun _ _ ↦ rfl⟩
  simp only [insertRepaired] at ht
  simp only [insertRepair, hrun₁, Exec.ok_bind, hbal, hl₁, hrt₁]
  generalize toInt (subWord (storedHeight l) (storedHeight r)) = balance at ht ⊢
  split_ifs at ht with h1 h2
  · -- the left subtree is too high
    cases l with
    | nil => cases ht
    | node w b c =>
      obtain ⟨y, w⟩ := w
      have hy : (h₁ y).data.key = w.key := by rw [(rep_left hr₁).2.2.1]
      have h2 : ¬ balance < -1 := by omega
      simp only [ptr_node, keyLt_eq hx₁ hy, keyLt_eq hy hx₁, h1, h2, Exec.pure_eq_ok, Exec.ok_and, if_true, if_false, Exec.ok_bind,
        Bool.false_eq_true, decide_eq_true_eq]
      simp only at ht
      split_ifs at ht ⊢ with h3 h4
      · exact (rotate_makes (d := .right) hP ((rotR_height _ v.height).trans ht) hr₁ hnd₁).imp fun q hq ↦ .inr hq
      · obtain ⟨l', hl', ht⟩ := Option.bind_eq_some_iff.mp ht
        have hmakes := rotateTwice_makes (d := .right) hP hl' ((rotR_height _ v.height).trans ht) hr₁ hnd₁
        rw [rotateTwice_eq hl₁] at hmakes
        exact hmakes.imp fun q hq ↦ .inr hq
      · exact hstay (Option.some.inj ht)
  · -- the right subtree is too high
    cases r with
    | nil => cases ht
    | node w b c =>
      obtain ⟨y, w⟩ := w
      have hy : (h₁ y).data.key = w.key := by rw [(rep_right hr₁).2.2.1]
      simp only [ptr_node, keyLt_eq hx₁ hy, keyLt_eq hy hx₁, h1, h2, Exec.pure_eq_ok, Exec.ok_and,
        if_true, if_false, Exec.ok_bind, Bool.false_eq_true, decide_eq_true_eq]
      simp only at ht
      split_ifs at ht ⊢ with h3 h4
      · exact (rotate_makes (d := .left) hP ((rotL_height _ v.height).trans ht) hr₁ hnd₁).imp fun q hq ↦ .inr hq
      · obtain ⟨r', hr', ht⟩ := Option.bind_eq_some_iff.mp ht
        have hmakes := rotateTwice_makes (d := .left) hP hr' ((rotL_height _ v.height).trans ht) hr₁ hnd₁
        rw [rotateTwice_eq hrt₁] at hmakes
        exact hmakes.imp fun q hq ↦ .inr hq
      · exact hstay (Option.some.inj ht)
  · simp only [h1, h2, Exec.pure_eq_ok, Exec.ok_and, if_false, Exec.ok_bind, Bool.false_eq_true]
    exact hstay (Option.some.inj ht)

/-! ## Going down and up again -/

/-- A subtree is hung below the node, whatever its parent link has been. -/
theorem adopt_makes {q : Ptr} {X Y : Shape} (hd : (h a).data = v) (hpar : (h a).parent = par)
    (hX : Rep none (· = ·) h q ((h a).child d) X) (hne : X ≠ .nil)
    (hY : Rep none (· = ·) h (some a) ((h a).child d.other) Y)
    (hnd : (addrs (sideNode d (a, v) X Y)).Nodup) (hx : (h x).data.key = k) (hxa : x ≠ a)
    (ht : insertRepaired k (sideNode d (a, v) X Y) = some t') :
    Makes (· = ·) (fun q ↦ q = par ∨ q = none) h (addrs (sideNode d (a, v) X Y))
      (adopt h d (some a) (some x)) t' := by
  cases X with
  | nil => exact absurd rfl hne
  | node w b c =>
    obtain ⟨y, w⟩ := w
    obtain ⟨haX, haY, hndX, -, hXY⟩ := nodup_addrs_sideNode.mp hnd
    have hya : a ≠ y := fun e ↦ haX (by simp [e])
    have hchild : (h a).child d = some y := hX.1
    rw [hchild] at hX
    let h₁ := h.upd y (·.setParent (some a))
    have ha₁ : h₁ a = h a := h.upd_of_ne _ hya
    have hr₁ : Rep none (· = ·) h₁ par (some a) (sideNode d (a, v) (.node (y, w) b c) Y) := by
      refine rep_sideNode.mpr ⟨rfl, by simp, ha₁ ▸ hd, ha₁ ▸ hpar, ?_, ?_⟩
      · rw [ha₁, hchild]
        exact hX.hang hndX (by simp) rfl
      · rw [ha₁]
        exact hY.congr (h.upd_eq_on _ (hXY y (by simp)))
    have hx₁ : (h₁ x).data.key = k := by
      by_cases hxy : x = y
      · simpa [h₁, hxy] using hxy ▸ hx
      · simpa [h₁, hxy] using hx
    have hrun : adopt h d (some a) (some x) = insertRepair h₁ (some a) (some x) := by
      simp [adopt, child, setParent, hchild, h₁]
    rw [hrun]
    refine Makes.after (fun b hb ↦ show h₁ b = h b from h.upd_of_ne _ fun e ↦ hb (by simp [e])) ?_
    cases d with
    | left => exact insertRepair_makes (fun _ ↦ rfl) hr₁ hnd hx₁ hxa ht
    | right => exact insertRepair_makes (fun _ ↦ rfl) hr₁ hnd hx₁ hxa ht

theorem rep_key {P : Ptr → Ptr → Prop} (hr : Rep none P h par p t) {i : Addr × Int}
    (hi : i ∈ idents t) : (h i.1).data.key = i.2 := by
  induction t generalizing par p with
  | nil => simp at hi
  | node v l r ihl ihr =>
    obtain ⟨-, -, hd, -, hl, hr⟩ := hr
    rw [idents_node, List.mem_append, List.mem_cons] at hi
    rcases hi with hi | rfl | hi
    · exact ihl hl hi
    · rw [hd]
    · exact ihr hr hi

/-- What the insertion of `x` below the root makes of a tree. -/
theorem insertBelow_makes {insert : Cells → Ptr → Exec (Cells × Ptr)} {q : Ptr} {X X' Y : Shape}
    (hr : Rep none (· = ·) h par p (sideNode d (a, v) X Y))
    (hnd : (addrs (sideNode d (a, v) X Y)).Nodup) (hxt : x ∉ addrs (sideNode d (a, v) X Y))
    (hx : Rep none (· = ·) h q (some x) (.node (x, ⟨k, 1⟩) .nil .nil))
    (hX' : inserted x k X = some X')
    (hrec : X ≠ .nil → Makes (· = ·) (fun q ↦ q = some a ∨ q = none) h (x :: addrs X)
      (insert h (ptr none X)) X')
    (ht : insertRepaired k (sideNode d (a, v) X' Y) = some t') :
    Makes (· = ·) (fun q ↦ q = par ∨ q = none) h (x :: addrs (sideNode d (a, v) X Y))
      (insertBelow insert h d (some a) (some x)) t' := by
  obtain ⟨haX, haY, hndX, hndY, hXY⟩ := nodup_addrs_sideNode.mp hnd
  simp only [mem_addrs_sideNode, not_or] at hxt
  obtain ⟨hxa, hxX, hxY⟩ := hxt
  obtain ⟨-, -, hd, hpar, hX, hY⟩ := rep_sideNode.mp hr
  have hmem : ∀ {b}, b ∈ addrs X' ↔ b = x ∨ b ∈ addrs X := mem_addrs_inserted hX'
  have haX' : a ∉ addrs X' := by simp [hmem, haX, Ne.symm hxa]
  have hnd' : (addrs (sideNode d (a, v) X' Y)).Nodup := by
    refine nodup_addrs_sideNode.mpr ⟨haX', haY, (nodup_addrs_inserted hX').mpr ⟨hxX, hndX⟩, hndY, ?_⟩
    intro b hb
    rcases hmem.mp hb with rfl | hb
    · exact hxY
    · exact hXY b hb
  -- whichever way `X'` has come about, it is hung below `a` next
  have hadopt : ∀ {h₁ : Cells} {q : Ptr}, Rep none (· = ·) h₁ q (ptr none X') X' →
      (∀ b ∉ x :: addrs X, h₁ b = h b) →
      Makes (· = ·) (fun q ↦ q = par ∨ q = none) h (x :: addrs (sideNode d (a, v) X Y))
        (adopt (h₁.upd a (·.setChild d (ptr none X'))) d (some a) (some x)) t' := by
    intro h₁ q hX₁ hh₁
    have ha₁ : h₁ a = h a := hh₁ a (by simp [Ne.symm hxa, haX])
    have hne' : X' ≠ .nil := fun e ↦ by simpa [e] using hmem.mpr (.inl rfl)
    have hkey : (h₁ x).data.key = k := rep_key hX₁ ((idents_inserted_perm hX').mem_iff.mpr
      (List.mem_cons_self ..))
    let h₂ := h₁.upd a (·.setChild d (ptr none X'))
    have ha₂ : h₂ a = (h a).setChild d (ptr none X') := by simp [h₂, ha₁]
    have hold₂ : ∀ b, b ≠ a → h₂ b = h₁ b := fun b hb ↦ h₁.upd_of_ne _ hb
    obtain ⟨h₃, q₃, hrun, hq₃, hr₃, hh₃⟩ := adopt_makes (h := h₂) (q := q) (X := X')
      (by simpa [ha₂] using hd) (by simpa [ha₂] using hpar)
      (by
        rw [ha₂, Cell.child_setChild_self]
        exact hX₁.congr (h₁.upd_eq_on _ haX')) hne'
      (by
        rw [ha₂, Cell.child_setChild_other]
        refine hY.congr fun b hb ↦ ?_
        rw [hold₂ b fun e ↦ haY (e ▸ hb), hh₁ b fun hbX ↦ ?_]
        rcases List.mem_cons.mp hbX with rfl | hbX
        · exact hxY hb
        · exact hXY b hbX hb) hnd' (by rw [hold₂ x hxa, hkey]) hxa ht
    refine ⟨h₃, q₃, hrun, hq₃, hr₃, fun b hb ↦ ?_⟩
    simp only [List.mem_cons, mem_addrs_sideNode, not_or] at hb
    obtain ⟨hbx, hba, hbX, hbY⟩ := hb
    rw [hh₃ b (by simp [hba, hmem, hbx, hbX, hbY]), hold₂ b hba, hh₁ b (by simp [hbx, hbX])]
  obtain ⟨hchild, -⟩ := child_eq hr
  simp only [insertBelow, hchild, Exec.ok_bind]
  cases X with
  | nil =>
    obtain rfl := Option.some.inj hX'
    simp only [ptr_nil, if_true, setChild, Heap.store_some, Exec.ok_bind]
    exact hadopt hx fun _ _ ↦ rfl
  | node w b c =>
    obtain ⟨h₁, q₁, hrun₁, -, hX₁, hh₁⟩ := hrec (by simp)
    have hne' : ptr none X' ≠ none := fun e ↦ by
      have hnil := hX₁.eq_nil_iff.mpr e
      simpa [hnil] using hmem.mpr (.inl rfl)
    simp only [ptr_node, reduceCtorEq, if_false] at hrun₁ ⊢
    simp only [hrun₁, Exec.ok_bind, setChild, Heap.store_some, hne', if_false]
    exact hadopt hX₁ hh₁

/-- `dl_bstree_insert_value` makes the memory hold what `inserted` computes. -/
theorem insertValue_makes {fuel : Nat} {q : Ptr} (hne : t ≠ .nil)
    (hr : Rep none (· = ·) h par p t) (hnd : (addrs t).Nodup) (hxt : x ∉ addrs t)
    (hx : Rep none (· = ·) h q (some x) (.node (x, ⟨k, 1⟩) .nil .nil)) (hfuel : t.height ≤ fuel)
    (ht : inserted x k t = some t') :
    Makes (· = ·) (fun q ↦ q = par ∨ q = none) h (x :: addrs t)
      (insertValue fuel h p (some x)) t' := by
  induction t generalizing par p fuel t' with
  | nil => exact absurd rfl hne
  | node v l r ihl ihr =>
    obtain ⟨a, v⟩ := v
    rw [height_node] at hfuel
    obtain ⟨fuel, rfl⟩ : ∃ m, fuel = m + 1 := ⟨fuel - 1, by omega⟩
    obtain rfl : p = some a := hr.1
    have hkx : key h (some x) = .ok k := key_eq hx
    simp only [insertValue, hkx, key_eq hr, Exec.ok_bind]
    obtain ⟨hal, har, hndl, hndr, -⟩ := (nodup_addrs_sideNode (s := .left)).mp hnd
    obtain ⟨hxl, -, hxr⟩ : x ∉ addrs l ∧ x ≠ a ∧ x ∉ addrs r := by simpa using hxt
    simp only [inserted] at ht
    split_ifs at ht ⊢ with hlt hgt
    · obtain ⟨l', hl', ht⟩ := Option.bind_eq_some_iff.mp ht
      exact insertBelow_makes (d := .left) hr hnd hxt hx hl'
        (fun hne ↦ ihl hne (rep_left hr) hndl hxl (by omega) hl') ht
    · obtain ⟨r', hr', ht⟩ := Option.bind_eq_some_iff.mp ht
      exact insertBelow_makes (d := .right) hr hnd hxt hx hr'
        (fun hne ↦ ihr hne (rep_right hr) hndr hxr (by omega) hr') ht

end Dlbase.Bstree
