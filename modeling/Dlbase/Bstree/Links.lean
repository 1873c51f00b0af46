import Dlbase.Bstree.Shape

/-!
# What the link operations of the AVL tree do to the tree held in memory

The trees are represented with a policy `P` for the parent links, since the code clears the
parent link of a rotated root and only insertion sets it again.  `Makes` says which tree a run
makes of the cells it writes to.
-/

namespace Dlbase.Bstree

open Cmem BinaryTree

variable {P : Ptr → Ptr → Prop} {h h' : Cells} {par p : Ptr} {d : Side} {a g x : Addr}
  {v vg vx : Data} {t l r A B C : Shape} {k : Int}

@[simp] theorem addrs_raise (t : Shape) : addrs (raise t) = addrs t := by
  rw [addrs_eq_idents, idents_raise, addrs_eq_idents]

@[simp] theorem ptr_raise (t : Shape) : ptr none (raise t) = ptr none t := by cases t <;> rfl

/-! ## Reading -/

theorem height_eq (hr : Rep none P h par p t) : height h p = .ok (storedHeight t) := by
  cases t with
  | nil =>
    obtain rfl : p = none := hr
    rfl
  | node w l r =>
    obtain ⟨b, w⟩ := w
    obtain ⟨rfl, -, hd, -⟩ := hr
    simp [height, storedHeight, hd]

theorem child_eq (hr : Rep none P h par p (sideNode d (a, v) l r)) :
    child h d (some a) = .ok (ptr none l) ∧ child h d.other (some a) = .ok (ptr none r) := by
  obtain ⟨-, -, -, -, hl, hr⟩ := rep_sideNode.mp hr
  exact ⟨congrArg _ hl.eq_ptr, congrArg _ hr.eq_ptr⟩

theorem left_eq (hr : Rep none P h par p (.node (a, v) l r)) :
    left h (some a) = .ok (ptr none l) := (child_eq (d := .left) hr).1

theorem right_eq (hr : Rep none P h par p (.node (a, v) l r)) :
    right h (some a) = .ok (ptr none r) := (child_eq (d := .left) hr).2

theorem key_eq (hr : Rep none P h par p (.node (a, v) l r)) : key h (some a) = .ok v.key := by
  obtain ⟨-, -, hd, -⟩ := hr
  simp [key, hd]

theorem rep_left (hr : Rep none P h par p (.node (a, v) l r)) :
    Rep none P h (some a) (ptr none l) l := by
  have hl := hr.2.2.2.2.1
  rwa [hl.eq_ptr] at hl

theorem rep_right (hr : Rep none P h par p (.node (a, v) l r)) :
    Rep none P h (some a) (ptr none r) r := by
  have hr := hr.2.2.2.2.2
  rwa [hr.eq_ptr] at hr

theorem getBalance_eq (hr : Rep none P h par p t) : getBalance h p = .ok (storedBalance t) := by
  cases t with
  | nil =>
    obtain rfl : p = none := hr
    rfl
  | node w l r =>
    obtain ⟨b, w⟩ := w
    obtain rfl : p = some b := hr.1
    simp only [getBalance, reduceCtorEq, if_false, left_eq hr, right_eq hr, Exec.ok_bind,
      height_eq (rep_left hr), height_eq (rep_right hr), storedBalance]
    rfl

/-! ## Writing -/

theorem hang_spec {q : Ptr} (hP : P q q) (hr : Rep none P h par p t)
    (hnd : (addrs t).Nodup) : ∃ h', hang h p q = .ok h' ∧ Rep none P h' q p t ∧
      ∀ b ∉ addrs t, h' b = h b := by
  cases t with
  | nil =>
    obtain rfl : p = none := hr
    exact ⟨h, rfl, rfl, fun _ _ ↦ rfl⟩
  | node w l r =>
    obtain ⟨b, w⟩ := w
    obtain rfl : p = some b := hr.1
    refine ⟨h.upd b (·.setParent q), rfl, hr.hang hnd (by simp) hP, fun c hc ↦ ?_⟩
    exact h.upd_of_ne _ fun e ↦ hc (by simp [e])

theorem raise_sideNode (d : Side) (a : Addr) (v : Data) (x y : Shape) :
    raise (sideNode d (a, v) x y) =
      sideNode d (a, ⟨v.key, word (1 + max (storedHeight x) (storedHeight y))⟩) x y := by
  cases d with
  | left => rfl
  | right => simp [raise, Nat.max_comm]

theorem height_ptr_eq (hr : Rep none P h par p t) : height h (ptr none t) = .ok (storedHeight t) := by
  rw [← hr.eq_ptr]
  exact height_eq hr

/-- Updating the height of the root. -/
theorem updateHeight_spec (hr : Rep none P h par p (sideNode d (a, v) l r))
    (hnd : (addrs (sideNode d (a, v) l r)).Nodup) :
    ∃ h', updateHeight h (some a) = .ok h' ∧
      Rep none P h' par p (raise (sideNode d (a, v) l r)) ∧ ∀ b, b ≠ a → h' b = h b := by
  obtain ⟨hp, hn, hd, hpar, hl, hr'⟩ := rep_sideNode.mp hr
  obtain ⟨hal, har, -⟩ := nodup_addrs_sideNode.mp hnd
  obtain ⟨hcl, hcr⟩ := child_eq hr
  refine ⟨h.upd a (·.mapData
    ({ · with height := word (1 + max (storedHeight l) (storedHeight r)) })), ?_, ?_,
    fun b hb ↦ h.upd_of_ne _ hb⟩
  · cases d with
    | left =>
      simp only [updateHeight, hcl, Exec.ok_bind, height_ptr_eq hl, Heap.store_some]
      rw [show right h (some a) = _ from hcr, Exec.ok_bind, height_ptr_eq hr', Exec.ok_bind]
    | right =>
      simp only [updateHeight, hcl, Exec.ok_bind, height_ptr_eq hl, Heap.store_some]
      rw [show left h (some a) = _ from hcr, Exec.ok_bind, height_ptr_eq hr', Exec.ok_bind,
        Nat.max_comm]
  · rw [raise_sideNode]
    refine rep_sideNode.mpr ⟨hp, hn, by simp [hd], by simpa using hpar, ?_, ?_⟩
    · rw [Heap.upd_same, Cell.child_mapData]
      exact hl.congr (h.upd_eq_on _ hal)
    · rw [Heap.upd_same, Cell.child_mapData]
      exact hr'.congr (h.upd_eq_on _ har)

/-- The run makes the memory hold the tree `t'`, with one of the `Q` for the parent link of its
root, and writes to no cells but those in `L`. -/
def Makes (P : Ptr → Ptr → Prop) (Q : Ptr → Prop) (h : Cells) (L : List Addr)
    (run : Exec (Cells × Ptr)) (t' : Shape) : Prop :=
  ∃ h' q, run = .ok (h', ptr none t') ∧ Q q ∧ Rep none P h' q (ptr none t') t' ∧
    ∀ b ∉ L, h' b = h b

theorem Makes.imp {Q Q' : Ptr → Prop} {L : List Addr} {run : Exec (Cells × Ptr)} {t' : Shape}
    (ht : Makes P Q h L run t') (hQ : ∀ q, Q q → Q' q) : Makes P Q' h L run t' := by
  obtain ⟨h', q, hrun, hq, hr, hh⟩ := ht
  exact ⟨h', q, hrun, hQ q hq, hr, hh⟩

/-- Something has been written to cells in `L` before. -/
theorem Makes.after {Q : Ptr → Prop} {L : List Addr} {run : Exec (Cells × Ptr)} {t' : Shape}
    (hh : ∀ b ∉ L, h' b = h b) (ht : Makes P Q h' L run t') : Makes P Q h L run t' := by
  obtain ⟨h₂, q, hrun, hq, hr₂, hh₂⟩ := ht
  exact ⟨h₂, q, hrun, hq, hr₂, fun b hb ↦ (hh₂ b hb).trans (hh b hb)⟩

/-- Both rotations at once: `node` goes down on the side `d`. -/
def rotate (d : Side) (h : Cells) (node : Ptr) : Exec (Cells × Ptr) := do
  let root ← child h d.other node
  let h ← setChild h d.other node (← child h d root)
  let h ← hang h (← child h d root) node
  let h ← setChild h d root node
  let h ← setParent h node root
  let h ← setParent h root none
  let h ← updateHeight h node
  let h ← updateHeight h root
  pure (h, root)

theorem leftRotate_eq : leftRotate = rotate .left := rfl

theorem rightRotate_eq : rightRotate = rotate .right := rfl

/-- A rotation about `g`, whatever the parent links of `g` and of the new root. -/
theorem rotate_spec {q : Ptr} (hP : ∀ q, P q q) (hgd : (h g).data = vg)
    (hA : Rep none P h (some g) ((h g).child d) A)
    (hX : Rep none P h q ((h g).child d.other) (sideNode d (x, vx) B C))
    (hnd : (addrs (sideNode d (g, vg) A (sideNode d (x, vx) B C))).Nodup) :
    Makes P (· = none) h (addrs (sideNode d (g, vg) A (sideNode d (x, vx) B C)))
      (rotate d h (some g)) (raise (sideNode d (x, vx) (raise (sideNode d (g, vg) A B)) C)) := by
  obtain ⟨hgx, -, hxd, -, hB, hC⟩ := rep_sideNode.mp hX
  obtain ⟨hgA, hgX, hndA, hndX, hAX⟩ := nodup_addrs_sideNode.mp hnd
  obtain ⟨hxB, hxC, hndB, hndC, hBC⟩ := nodup_addrs_sideNode.mp hndX
  simp only [mem_addrs_sideNode, not_or] at hgX hAX
  obtain ⟨hgx', hgB, hgC⟩ := hgX
  have hxA : x ∉ addrs A := fun hx ↦ (hAX x hx).1 rfl
  -- the middle subtree is hung below `g`
  obtain ⟨h₂, hrun₂, hB₂, hh₂⟩ := hang_spec (q := some g)
    (h := h.upd g (·.setChild d.other ((h x).child d))) (hP _)
    (hB.congr (h.upd_eq_on _ hgB)) hndB
  -- `g` is hung below `x`
  let h₅ := ((h₂.upd x (·.setChild d (some g))).upd g (·.setParent (some x))).upd x
    (·.setParent none)
  have hg₂ : h₂ g = (h g).setChild d.other ((h x).child d) := by simp [hh₂ g hgB]
  have hx₂ : h₂ x = h x := by simp [hh₂ x hxB, Ne.symm hgx']
  have hg₅ : h₅ g = (h₂ g).setParent (some x) := by simp [h₅, hgx']
  have hx₅ : h₅ x = ((h x).setChild d (some g)).setParent none := by
    simp [h₅, Ne.symm hgx', hx₂]
  have hold₅ : ∀ b, b ≠ g → b ≠ x → h₅ b = h₂ b := fun b hbg hbx ↦ by simp [h₅, hbg, hbx]
  have hA₅ : Rep none P h₅ (some g) ((h g).child d) A := hA.congr fun b hb ↦ by
    have hbg : b ≠ g := fun e ↦ hgA (e ▸ hb)
    rw [hold₅ b hbg fun e ↦ hxA (e ▸ hb), hh₂ b (hAX b hb).2.1, Heap.upd_of_ne _ _ hbg]
  have hB₅ : Rep none P h₅ (some g) ((h x).child d) B := hB₂.congr fun b hb ↦
    hold₅ b (fun e ↦ hgB (e ▸ hb)) fun e ↦ hxB (e ▸ hb)
  have hC₅ : Rep none P h₅ (some x) ((h x).child d.other) C := hC.congr fun b hb ↦ by
    have hbg : b ≠ g := fun e ↦ hgC (e ▸ hb)
    rw [hold₅ b hbg fun e ↦ hxC (e ▸ hb), hh₂ b (fun hbB ↦ hBC b hbB hb), Heap.upd_of_ne _ _ hbg]
  have hG₅ : Rep none P h₅ (some x) (some g) (sideNode d (g, vg) A B) := by
    refine rep_sideNode.mpr ⟨rfl, by simp, by simpa [hg₅, hg₂] using hgd, by simpa [hg₅] using hP _,
      ?_, ?_⟩
    · rw [hg₅, hg₂, Cell.child_setParent]
      simpa using hA₅
    · rw [hg₅, hg₂, Cell.child_setParent, Cell.child_setChild_self]
      exact hB₅
  -- the two heights are computed anew
  obtain ⟨h₆, hrun₆, hG₆, hh₆⟩ := updateHeight_spec hG₅
    (nodup_addrs_sideNode.mpr ⟨hgA, hgB, hndA, hndB, fun b hb ↦ (hAX b hb).2.1⟩)
  have hX₆ : Rep none P h₆ none (some x)
      (sideNode d (x, vx) (raise (sideNode d (g, vg) A B)) C) := by
    have hx₆ : h₆ x = h₅ x := hh₆ x (Ne.symm hgx')
    refine rep_sideNode.mpr ⟨rfl, by simp, by simpa [hx₆, hx₅] using hxd,
      by simpa [hx₆, hx₅] using hP _, ?_, ?_⟩
    · rw [hx₆, hx₅, Cell.child_setParent, Cell.child_setChild_self]
      exact hG₆
    · rw [hx₆, hx₅, Cell.child_setParent, Cell.child_setChild_other]
      exact hC₅.congr fun b hb ↦ hh₆ b fun e ↦ hgC (e ▸ hb)
  have hndX₆ : (addrs (sideNode d (x, vx) (raise (sideNode d (g, vg) A B)) C)).Nodup := by
    rw [nodup_addrs_sideNode, addrs_raise, nodup_addrs_sideNode]
    simp only [mem_addrs_sideNode]
    grind
  obtain ⟨h₇, hrun₇, hX₇, hh₇⟩ := updateHeight_spec hX₆ hndX₆
  refine ⟨h₇, none, ?_, rfl, by rwa [ptr_raise, ptr_sideNode], fun b hb ↦ ?_⟩
  · have hx₁ : (h.upd g (·.setChild d.other ((h x).child d))) x = h x := by
      simp [Ne.symm hgx']
    simp only [rotate, child, setChild, setParent, Heap.load_some, Heap.store_some, Exec.ok_bind,
      Exec.pure_eq_ok, hgx, hx₁, hrun₂]
    rw [show ((h₂.upd x (·.setChild d (some g))).upd g (·.setParent (some x))).upd x
      (·.setParent none) = h₅ from rfl, hrun₆, Exec.ok_bind, hrun₇, Exec.ok_bind, ptr_raise,
      ptr_sideNode]
  · simp only [mem_addrs_sideNode, not_or] at hb
    obtain ⟨hbg, hbA, hbx, hbB, hbC⟩ := hb
    rw [hh₇ b hbx, hh₆ b hbg, hold₅ b hbg hbx, hh₂ b hbB, Heap.upd_of_ne _ _ hbg]

/-- The rotation of a tree that lets its root go down on the side `d`. -/
def rot : Side → Shape → Option Shape
  | .left => rotL
  | .right => rotR

theorem rot_eq_some {t' : Shape} : rot d t = some t' ↔ ∃ g x A B C,
    t = sideNode d g A (sideNode d x B C) ∧
      t' = raise (sideNode d x (raise (sideNode d g A B)) C) := by
  cases d with
  | left =>
    constructor
    · intro ht
      simp only [rot, rotL] at ht
      split at ht
      · exact ⟨_, _, _, _, _, rfl, (Option.some.inj ht).symm⟩
      · cases ht
    · rintro ⟨g, x, A, B, C, rfl, rfl⟩
      rfl
  | right =>
    constructor
    · intro ht
      simp only [rot, rotR] at ht
      split at ht
      · exact ⟨_, _, _, _, _, rfl, (Option.some.inj ht).symm⟩
      · cases ht
    · rintro ⟨g, x, A, B, C, rfl, rfl⟩
      rfl

theorem rotate_makes {t' : Shape} (hP : ∀ q, P q q) (ht : rot d t = some t')
    (hr : Rep none P h par p t) (hnd : (addrs t).Nodup) :
    Makes P (· = none) h (addrs t) (rotate d h p) t' := by
  obtain ⟨⟨g, vg⟩, ⟨x, vx⟩, A, B, C, rfl, rfl⟩ := rot_eq_some.mp ht
  obtain ⟨rfl, -, hgd, -, hA, hX⟩ := rep_sideNode.mp hr
  exact rotate_spec hP hgd hA hX hnd

/-- A rotation does not look at the height of the root. -/
theorem rotR_height (n m : Nat) : rotR (.node (a, ⟨k, n⟩) l r) = rotR (.node (a, ⟨k, m⟩) l r) := by
  rcases l with _ | ⟨x, b, c⟩ <;> rfl

theorem rotL_height (n m : Nat) : rotL (.node (a, ⟨k, n⟩) l r) = rotL (.node (a, ⟨k, m⟩) l r) := by
  rcases r with _ | ⟨x, b, c⟩ <;> rfl

/-- The child on the other side is rotated first. -/
def rotateTwice (d : Side) (h : Cells) (node : Ptr) : Exec (Cells × Ptr) := do
  let (h, q) ← rotate d.other h (← child h d.other node)
  let h ← setChild h d.other node q
  rotate d h node

theorem rotateTwice_eq {q : Ptr} (hq : child h d.other p = .ok q) : rotateTwice d h p =
    (rotate d.other h q >>= fun x ↦ setChild x.1 d.other p x.2 >>= fun h ↦ rotate d h p) := by
  rw [rotateTwice, hq]
  rfl

theorem rotateTwice_makes {X X' t' : Shape} (hP : ∀ q, P q q) (hX' : rot d.other X = some X')
    (ht : rot d (sideNode d (g, vg) A X') = some t')
    (hr : Rep none P h par p (sideNode d (g, vg) A X))
    (hnd : (addrs (sideNode d (g, vg) A X)).Nodup) :
    Makes P (· = none) h (addrs (sideNode d (g, vg) A X)) (rotateTwice d h p) t' := by
  obtain ⟨rfl, -, hgd, -, hA, hX⟩ := rep_sideNode.mp hr
  obtain ⟨hgA, hgX, hndA, hndX, hAX⟩ := nodup_addrs_sideNode.mp hnd
  obtain ⟨h₁, q, hrun₁, -, hX₁, hh₁⟩ := rotate_makes hP hX' hX hndX
  have hid : idents X' = idents X := by
    cases d with
    | left => exact idents_rotR hX'
    | right => exact idents_rotL hX'
  have hmem : ∀ {b}, b ∈ addrs X' ↔ b ∈ addrs X := mem_addrs_of_idents hid
  have hndX' : (addrs X').Nodup := by rwa [addrs_eq_idents, hid, ← addrs_eq_idents]
  have hgX' : g ∉ addrs X' := fun hg ↦ hgX (hmem.mp hg)
  let h₂ := h₁.upd g (·.setChild d.other (ptr none X'))
  have hg₂ : h₂ g = (h g).setChild d.other (ptr none X') := by simp [h₂, hh₁ g hgX]
  have hold₂ : ∀ b, b ≠ g → h₂ b = h₁ b := fun b hb ↦ h₁.upd_of_ne _ hb
  have hnd₂ : (addrs (sideNode d (g, vg) A X')).Nodup := nodup_addrs_sideNode.mpr
    ⟨hgA, hgX', hndA, hndX', fun b hb hbX ↦ hAX b hb (hmem.mp hbX)⟩
  obtain ⟨⟨g', vg'⟩, ⟨x, vx⟩, A', B, C, hshape, rfl⟩ := rot_eq_some.mp ht
  obtain ⟨rfl, rfl, rfl, rfl⟩ : g = g' ∧ vg = vg' ∧ A = A' ∧ X' = sideNode d (x, vx) B C := by
    cases d <;> simpa [and_assoc, and_comm, and_left_comm] using hshape
  obtain ⟨h₃, par₃, hrun₃, hpar₃, hr₃, hh₃⟩ := rotate_spec (h := h₂) (q := q) hP
    (by simpa [hg₂] using hgd) (by
      rw [hg₂]
      simpa using hA.congr fun b hb ↦ by
        rw [hold₂ b fun e ↦ hgA (e ▸ hb), hh₁ b (hAX b hb)]) (by
      rw [hg₂, Cell.child_setChild_self]
      exact hX₁.congr (h₁.upd_eq_on _ hgX')) hnd₂
  refine ⟨h₃, par₃, ?_, hpar₃, hr₃, fun b hb ↦ ?_⟩
  · simp only [rotateTwice, child, Heap.load_some, Exec.ok_bind, Exec.pure_eq_ok, hrun₁, setChild,
      Heap.store_some]
    exact hrun₃
  · simp only [mem_addrs_sideNode, not_or] at hb
    rw [hh₃ b (by simpa [← hmem] using hb), hold₂ b hb.1, hh₁ b hb.2.2]

end Dlbase.Bstree
