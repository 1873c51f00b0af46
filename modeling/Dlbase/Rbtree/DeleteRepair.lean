import Dlbase.Rbtree.Links

/-!
# Repair after a red-black deletion

`dl_rbtree_delete_repair` is given a node `n` whose paths are one black node short and turns
the tree around it until they are not.  The subtree at `n` stays as it is throughout, so that
the repair is a transformation of the path above it: `Turned` relates the paths before and
after, and says that the new one has room for a subtree that is one black node lower.
-/

namespace Dlbase.Rbtree

open Cmem BinaryTree

variable {s : State} {c : Path} {d e : Side} {p y x : Addr} {vp vy vx : Data}
  {t w near far l r : Shape} {n : Nat}

/-- The path `c'` passes the same nodes as `c` on either side, in the same order. -/
structure SameAround (c' c : Path) : Prop where
  /-- The nodes left of the focus. -/
  before : (before c').map ident = (before c).map ident
  /-- The nodes right of the focus. -/
  after : (after c').map ident = (after c).map ident

theorem SameAround.refl (c : Path) : SameAround c c := ⟨rfl, rfl⟩

theorem SameAround.trans {c c' c'' : Path} (h : SameAround c'' c') (h' : SameAround c' c) :
    SameAround c'' c := ⟨h.before.trans h'.before, h.after.trans h'.after⟩

theorem SameAround.idents_eq {c c' : Path} (h : SameAround c' c) (t : Shape) :
    idents (plug c' t) = idents (plug c t) := by
  rw [idents_plug, idents_plug, h.before, h.after]

/-- A frame above the focus may change along with the path around it. -/
theorem SameAround.cons {c c' : Path} (h : SameAround c' c) {v v' : Addr × Data}
    (hv : ident v' = ident v) {w' : Shape} (hw : idents w' = idents w) :
    SameAround (⟨d, v', w'⟩ :: c') (⟨d, v, w⟩ :: c) := by
  have hw' : (inorder w').map ident = (inorder w).map ident := hw
  cases d with
  | left => exact ⟨h.before, by simp [Cmem.after, hv, hw', h.after]⟩
  | right => exact ⟨by simp [Cmem.before, hv, hw', h.before], h.after⟩

/-- The state has turned the path `c` around the subtree `t` into one around which the
black heights fit a subtree of height `n`. -/
structure Turned (s : State) (c : Path) (t : Shape) (n : Nat) (s' : State) (c' : Path) : Prop where
  /-- The subtree sits on the new path. -/
  holds : Holds s' (plug c' t)
  /-- The nodes around it are the same. -/
  same : SameAround c' c
  /-- Nothing else has changed. -/
  keeps : Keeps (plug c t) s s'
  /-- The new path has room for the subtree. -/
  hole : ∃ b, Hole IsRed c' b n

/-- Steps that keep the nodes around the focus may come first. -/
theorem Turned.of_keeps {s₁ s₂ : State} {c₁ c₂ : Path} (hkeep : Keeps (plug c t) s s₁)
    (hsame : SameAround c₁ c) (h : Turned s₁ c₁ t n s₂ c₂) : Turned s c t n s₂ c₂ where
  holds := h.holds
  same := h.same.trans hsame
  keeps := hkeep.trans h.keeps fun _ hb ↦ (mem_addrs_of_idents (hsame.idents_eq t)).mp hb
  hole := h.hole

theorem Turned.trans {s₁ s₂ : State} {c₁ c₂ : Path} {m : Nat} (h : Turned s c t m s₁ c₁)
    (h' : Turned s₁ c₁ t n s₂ c₂) : Turned s c t n s₂ c₂ := .of_keeps h.keeps h.same h'

theorem Holds.paint_sibling (h : Holds s (plug (⟨d, (p, vp), sideNode e (y, vy) near far⟩ :: c) t))
    (col : Color) : Holds (s.paint y col)
      (plug (⟨d, (p, vp), sideNode e (y, { vy with color := col }) near far⟩ :: c) t) := by
  rw [plug_cons, Frame.fill, ← plug_cons_other] at h ⊢
  exact h.paint col

theorem Holds.child_of_sibling
    (h : Holds s (plug (⟨d, (p, vp), sideNode e (y, vy) near far⟩ :: c) t)) :
    Holds s (plug (⟨e, (y, vy), far⟩ :: ⟨d.other, (p, vp), t⟩ :: c) near) := by
  rwa [plug_cons, Frame.fill, ← plug_cons_other] at h

theorem Holds.colors_of_sibling
    (h : Holds s (plug (⟨d, (p, vp), sideNode e (y, vy) near far⟩ :: c) t)) :
    s.color (some y) = .ok vy.color ∧ s.child e (some y) = .ok (ptr s.sentinel near) ∧
      s.child e.other (some y) = .ok (ptr s.sentinel far) ∧
      s.color (ptr s.sentinel near) = .ok (rootColor near) ∧
      s.color (ptr s.sentinel far) = .ok (rootColor far) := by
  have hnear := h.child_of_sibling
  have hfar : Holds s (plug (⟨e.other, (y, vy), near⟩ :: ⟨d.other, (p, vp), t⟩ :: c) far) := by
    rwa [plug_cons_other]
  have hy : Holds s (plug (⟨d.other, (p, vp), t⟩ :: c) (sideNode e (y, vy) near far)) := hnear
  exact ⟨by simpa using hy.color, hy.child, hy.child_other, hnear.color, hfar.color⟩

/-- On which side of its parent the focus hangs, as the code finds out. -/
theorem Holds.side (h : Holds s (plug (⟨d, (p, vp), w⟩ :: c) (.node (x, vx) l r))) (e : Side) :
    ∃ q, s.child e (some p) = .ok q ∧ (some x = q ↔ d = e) := by
  have hP : Holds s (plug c (sideNode d (p, vp) (.node (x, vx) l r) w)) := h
  have hne : some x ≠ ptr s.sentinel w :=
    (ptr_ne (fun hx ↦ hP.disjoint.2.2 x (by simp) hx) (Holds.node (d := .left) h).1).symm
  rcases Side.eq_or_eq_other d e with rfl | rfl
  · exact ⟨_, hP.child, by simp⟩
  · exact ⟨_, hP.child_other, by simp [hne]⟩

/-- Turning the parent towards the focus, whichever side that is. -/
theorem rotate_parent (h : Holds s (plug (⟨d, (p, vp), w⟩ :: c) (.node (x, vx) l r))) :
    (do let q ← s.left (some p)
        if some x = q then leftRotate s (some p) s.sentinel
        else rightRotate s (some p) s.sentinel) = rotate d s (some p) s.sentinel := by
  obtain ⟨q, hq, hside⟩ := h.side .left
  simp only [State.left, hq, Exec.ok_bind, hside, leftRotate_eq, rightRotate_eq]
  cases d <;> simp

/-- A red sibling is turned over the parent, which becomes red; the new sibling is black. -/
theorem deleteCase2_red {b : Bool}
    (h : Holds s (plug (⟨d, (p, vp), sideNode d (y, vy) near far⟩ :: c) (.node (x, vx) l r)))
    (hole : Hole IsRed (⟨d, (p, vp), sideNode d (y, vy) near far⟩ :: c) b (n + 1))
    (hy : vy.color = .red) :
    ∃ s', deleteCase2 s (some x) s.sentinel = .ok s' ∧
      Balanced IsRed near false (n + 1) ∧
      Turned s (⟨d, (p, vp), sideNode d (y, vy) near far⟩ :: c) (.node (x, vx) l r) (n + 1) s'
        (⟨d, (p, { vp with color := .red }), near⟩ ::
          ⟨d, (y, { vy with color := .black }), far⟩ :: c) := by
  obtain ⟨-, -, hsib, -⟩ | ⟨hp, rfl, ⟨sc, hsib⟩, b', hc⟩ := hole_cons.mp hole
  · obtain ⟨-, hff, -⟩ | ⟨hyb, -⟩ := balanced_sideNode_iff.mp hsib
    · cases hff
    · exact absurd hy hyb
  obtain ⟨-, rfl, hnear, hfar⟩ | ⟨hyb, -⟩ := balanced_sideNode_iff.mp hsib
  swap
  · exact absurd hy hyb
  have hsibling := Holds.sibling (e := .left) h
  have hpx := Holds.parent (d := .left) h
  have h₁ := Holds.paint (d := d) (c := c) h .red
  have h₂ := Holds.paint_sibling (s := s.paint p .red) h₁ .black
  obtain ⟨s', hrun, h', hkeep⟩ := rotate_spec (s := (s.paint p .red).paint y .black) (c := c) h₂
  have hred : s.isRed (some y) = .ok true := by
    simp [State.isRed, h.colors_of_sibling.1, hy, -State.color_some]
  have hturn := rotate_parent h₂
  refine ⟨s', ?_, hnear, h', ?_, ?_, false, ?_⟩
  · simp only [deleteCase2, hsibling, Exec.ok_bind, ptr_sideNode, hred, if_true, hpx,
      ctxParent_cons, State.setColor_some]
    rw [← hrun, ← hturn]
    rfl
  · cases d <;> refine ⟨?_, ?_⟩ <;> simp [before, after]
  · refine (((Keeps.refl _ s).paint ?_ .red).paint ?_ .black).trans hkeep fun a ha ↦ ?_
    · simp [mem_addrs_plug]
    · simp [mem_addrs_plug]
    · simp only [mem_addrs_plug, mem_ctxAddrs_cons, mem_addrs_sideNode] at ha ⊢
      tauto
  · have hroom : Hole IsRed (⟨d, (y, { vy with color := .black }), far⟩ :: c) true (n + 1) :=
      hole_cons.mpr (.inr ⟨(by rintro ⟨⟩), rfl, ⟨_, hfar⟩, b', hc⟩)
    exact hole_cons.mpr (.inl ⟨rfl, rfl, hnear, hroom⟩)

/-- Case 4: the red parent and the black sibling exchange their colours. -/
theorem exchange_spec {b : Bool}
    (h : Holds s (plug (⟨d, (p, vp), sideNode d (y, vy) near far⟩ :: c) t))
    (hole : Hole IsRed (⟨d, (p, vp), sideNode d (y, vy) near far⟩ :: c) b (n + 1))
    (hp : vp.color = .red) (hnear : rootColor near = .black)
    (hfar : rootColor far = .black) :
    Turned s (⟨d, (p, vp), sideNode d (y, vy) near far⟩ :: c) t n
      ((s.paint y .red).paint p .black)
      (⟨d, (p, { vp with color := .black }),
        sideNode d (y, { vy with color := .red }) near far⟩ :: c) := by
  obtain ⟨-, -, hsib, hc⟩ | ⟨hpb, -⟩ := hole_cons.mp hole
  swap
  · exact absurd hp hpb
  obtain ⟨-, hff, -⟩ | ⟨-, -, m, cn, cf, hm, hn, hf⟩ := balanced_sideNode_iff.mp hsib
  · cases hff
  obtain rfl : n = m := by omega
  obtain rfl : cn = false := by simpa [hnear] using rootColor_eq_red_iff hn
  obtain rfl : cf = false := by simpa [hfar] using rootColor_eq_red_iff hf
  have h₁ := h.paint_sibling .red
  have h₂ := Holds.paint (d := d) (c := c) h₁ .black
  refine ⟨h₂, ?_, ((Keeps.refl _ s).paint ?_ .red).paint ?_ .black, true, ?_⟩
  · cases d <;> refine ⟨?_, ?_⟩ <;> simp [before, after]
  · simp [mem_addrs_plug]
  · simp [mem_addrs_plug]
  · have hred : Balanced IsRed (sideNode d (y, { vy with color := .red }) near far) true n :=
      balanced_sideNode_iff.mpr (.inl ⟨rfl, rfl, hn, hf⟩)
    exact hole_cons.mpr (.inr ⟨(by rintro ⟨⟩), rfl, ⟨_, hred⟩, true, hc⟩)

/-- What case 5 does below a black sibling, whichever side the focus is on. -/
theorem deleteCase5_eq
    (h : Holds s (plug (⟨d, (p, vp), sideNode d (y, vy) near far⟩ :: c) (.node (x, vx) l r)))
    (hy : vy.color = .black) :
    deleteCase5 s (some x) (some y) s.sentinel =
      if rootColor far = .black ∧ rootColor near = .red then do
        let s' ← s.setColor (some y) .red
        let s' ← s'.setColor (ptr s.sentinel near) .black
        rotate d.other s' (some y) s.sentinel
      else pure s := by
  have hpx := Holds.parent (d := .left) h
  obtain ⟨hyc, hcn, hcf, hncol, hfcol⟩ := h.colors_of_sibling
  have hyb : s.isBlack (some y) = .ok true := by
    simp [State.isBlack, hyc, hy, -State.color_some]
  obtain ⟨q, hq, hqs⟩ := h.side .left
  obtain ⟨q', hq', hqs'⟩ := h.side .right
  rw [ctxParent_cons] at hpx
  cases d with
  | left =>
    simp only [Side.other_left] at hcf
    simp only [deleteCase5, hyb, hpx, hq, hq', hcn, hcf, Exec.ok_bind, if_true, hqs, hqs']
    cases hcol : rootColor far <;> cases hcol' : rootColor near <;>
      simp [andM, State.isBlack, State.isRed, hncol, hfcol, hcol, hcol', toBool, rightRotate_eq]
  | right =>
    simp only [Side.other_right] at hcf
    simp only [deleteCase5, hyb, hpx, hq, hq', hcn, hcf, Exec.ok_bind, if_true, hqs, hqs']
    cases hcol : rootColor far <;> cases hcol' : rootColor near <;>
      simp [andM, State.isBlack, State.isRed, hncol, hfcol, hcol, hcol', toBool, leftRotate_eq]

/-- Case 5: a red near child of the sibling is turned over it, so that its far child is red. -/
theorem deleteCase5_spec
    (h : Holds s (plug (⟨d, (p, vp), sideNode d (y, vy) near far⟩ :: c) (.node (x, vx) l r)))
    (hy : vy.color = .black) {cn cf : Bool} (hnear : Balanced IsRed near cn n)
    (hfar : Balanced IsRed far cf n) (hred : cn = true ∨ cf = true) :
    ∃ s' y' vy' near' far' cn', deleteCase5 s (some x) (some y) s.sentinel = .ok s' ∧
      Holds s' (plug (⟨d, (p, vp), sideNode d (y', vy') near' far'⟩ :: c) (.node (x, vx) l r)) ∧
      Keeps (plug (⟨d, (p, vp), sideNode d (y, vy) near far⟩ :: c) (.node (x, vx) l r)) s s' ∧
      idents (sideNode d (y', vy') near' far') = idents (sideNode d (y, vy) near far) ∧
      vy'.color = .black ∧ Balanced IsRed near' cn' n ∧ Balanced IsRed far' true n := by
  rw [deleteCase5_eq h hy]
  cases cf with
  | true =>
    -- the far child is red already
    have hfcol : rootColor far = .red := (rootColor_eq_red_iff hfar).mpr rfl
    exact ⟨s, y, vy, near, far, cn, by simp [hfcol], h, Keeps.refl _ _, rfl, hy, hnear, hfar⟩
  | false =>
    obtain rfl : cn = true := by simpa using hred
    have hncol : rootColor near = .red := (rootColor_eq_red_iff hnear).mpr rfl
    have hfcol : rootColor far = .black := by
      cases hcol : rootColor far with
      | black => rfl
      | red => cases (rootColor_eq_red_iff hfar).mp hcol
    obtain ⟨⟨z, vz⟩, u, w, rfl⟩ : ∃ v u w, near = sideNode d v u w := by
      cases near with
      | nil => cases hncol
      | node v l r => exact ⟨v, exists_sideNode_eq_node d v l r⟩
    obtain ⟨-, -, hu, hw⟩ | ⟨hz, -⟩ := balanced_sideNode_iff.mp hnear
    swap
    · exact absurd (by simpa using hncol) hz
    have h₁ := h.paint_sibling .red
    have h₂ := h₁.child_of_sibling.paint .black
    have h₃ : Holds ((s.paint y .red).paint z .black) (plug (⟨d.other, (p, vp), .node (x, vx) l r⟩ :: c)
        (sideNode d.other (y, { vy with color := .red }) far
          (sideNode d.other (z, { vz with color := .black }) w u))) := by
      rw [sideNode_other, sideNode_other]
      exact h₂
    obtain ⟨s', hrun, h', hkeep⟩ := rotate_spec h₃
    refine ⟨s', z, { vz with color := .black }, u,
      sideNode d.other (y, { vy with color := .red }) far w, false, ?_, ?_, ?_, ?_, rfl, hu, ?_⟩
    · simpa [hncol, hfcol] using hrun
    · rwa [sideNode_other, plug_cons_other] at h'
    · refine (((Keeps.refl _ s).paint ?_ .red).paint ?_ .black).trans hkeep fun a ha ↦ ?_
      · simp [mem_addrs_plug]
      · simp [mem_addrs_plug]
      · simp only [mem_addrs_plug, mem_ctxAddrs_cons, mem_addrs_sideNode] at ha ⊢
        tauto
    · cases d <;> simp [idents]
    · exact balanced_sideNode_iff.mpr (.inl ⟨rfl, rfl, hfar, hw⟩)

/-- Case 6: a black sibling with a red far child is turned over the parent, whose colour it
takes; the parent and the far child turn black. -/
theorem deleteCase6_spec {z : Addr} {vz : Data} {u w : Shape}
    (h : Holds s (plug (⟨d, (p, vp), sideNode d (y, vy) near (.node (z, vz) u w)⟩ :: c)
      (.node (x, vx) l r)))
    (hc : (vp.color = .red ∧ Hole IsRed c true (n + 1)) ∨
      (vp.color = .black ∧ ∃ b, Hole IsRed c b (n + 2)))
    {cn : Bool} (hnear : Balanced IsRed near cn n) (hfar : Balanced IsRed (.node (z, vz) u w) true n) :
    ∃ s', deleteCase6 s (some x) s.sentinel = .ok s' ∧
      Turned s (⟨d, (p, vp), sideNode d (y, vy) near (.node (z, vz) u w)⟩ :: c)
        (.node (x, vx) l r) n s'
        (⟨d, (p, { vp with color := .black }), near⟩ ::
          ⟨d, (y, { vy with color := vp.color }), .node (z, { vz with color := .black }) u w⟩ :: c) := by
  have hpx := Holds.parent (d := .left) h
  rw [ctxParent_cons] at hpx
  have hpc : s.color (some p) = .ok vp.color := by
    simpa using Holds.color (c := c) (t := sideNode d (p, vp) _ _) h
  have h₁ := h.paint_sibling vp.color
  have h₂ := Holds.paint (d := d) (c := c) h₁ .black
  have hfar₂ : Holds ((s.paint y vp.color).paint p .black) (plug (⟨d.other, (y, { vy with color := vp.color }), near⟩ ::
      ⟨d.other, (p, { vp with color := .black }), .node (x, vx) l r⟩ :: c)
      (sideNode .left (z, vz) u w)) := by
    rw [plug_cons_other, plug_cons_other]
    exact h₂
  have h₃ := hfar₂.paint .black
  rw [plug_cons_other, plug_cons_other] at h₃
  obtain ⟨s', hrun, h', hkeep⟩ := rotate_spec h₃
  obtain ⟨-, -, hu, hw⟩ | ⟨-, hff, -⟩ := balanced_node_iff.mp hfar
  swap
  · cases hff
  have hblack : Balanced IsRed (.node (z, { vz with color := .black }) u w) false (n + 1) :=
    .black (by rintro ⟨⟩) hu hw
  refine ⟨s', ?_, h', ?_, ?_, true, ?_⟩
  · have hsib := Holds.sibling (e := .left) h
    obtain ⟨q, hq, hqs⟩ := h.side .left
    have hz := h.colors_of_sibling.2.2.1
    simp only [ptr_node, ptr_sideNode] at hz hsib
    cases d with
    | left =>
      simp only [Side.other_left] at hz
      simpa [deleteCase6, hsib, hpx, hpc, hq, hqs, hz, leftRotate_eq, -State.child_some,
        -State.color_some, -State.parent_some] using hrun
    | right =>
      simp only [Side.other_right] at hz
      simpa [deleteCase6, hsib, hpx, hpc, hq, hqs, hz, rightRotate_eq, -State.child_some,
        -State.color_some, -State.parent_some] using hrun
  · cases d <;> refine ⟨?_, ?_⟩ <;> simp [before, after]
  · refine ((((Keeps.refl _ s).paint ?_ _).paint ?_ .black).paint ?_ .black).trans hkeep
      fun a ha ↦ ?_
    · simp [mem_addrs_plug]
    · simp [mem_addrs_plug]
    · simp [mem_addrs_plug]
    · simp only [mem_addrs_plug, mem_ctxAddrs_cons, mem_addrs_sideNode, mem_addrs_node] at ha ⊢
      tauto
  · refine hole_cons.mpr (.inr ⟨(by rintro ⟨⟩), rfl, ⟨_, hnear⟩, ?_⟩)
    rcases hc with ⟨hp, hc⟩ | ⟨hp, b, hc⟩
    · exact ⟨false, hole_cons.mpr (.inl ⟨hp, rfl, hblack, hc⟩)⟩
    · exact ⟨true, hole_cons.mpr (.inr ⟨by simp [hp], rfl, ⟨_, hblack⟩, b, hc⟩)⟩

/-- A subtree of positive black height with a black root is a black node. -/
theorem Balanced.exists_black {t : Shape} (ht : Balanced IsRed t false (n + 1)) (d : Side) :
    ∃ v u w cu cw, t = sideNode d v u w ∧ v.2.color = .black ∧ Balanced IsRed u cu n ∧
      Balanced IsRed w cw n := by
  cases t with
  | nil => cases (balanced_nil_iff.mp ht).2
  | node v l r =>
    obtain ⟨u, w, huw⟩ := exists_sideNode_eq_node d v l r
    rw [huw] at ht ⊢
    obtain ⟨-, hff, -⟩ | ⟨hv, -, m, cu, cw, hm, hu, hw⟩ := balanced_sideNode_iff.mp ht
    · cases hff
    obtain rfl : n = m := by omega
    refine ⟨v, u, w, cu, cw, rfl, ?_, hu, hw⟩
    cases hcol : v.2.color with
    | black => rfl
    | red => exact absurd hcol hv

/-- The situation after case 2: the focus has a black sibling, and the path above its parent
has room for a subtree one black node higher. -/
structure BlackSibling (p y : Addr) (vp vy : Data) (near far : Shape) (c : Path) (n len : Nat) :
    Prop where
  /-- The sibling is black. -/
  color : vy.color = .black
  /-- Its near child is balanced. -/
  near : ∃ cn, Balanced IsRed near cn n
  /-- Its far child is balanced. -/
  far : ∃ cf, Balanced IsRed far cf n
  /-- What the path above asks for. -/
  above : (vp.color = .red ∧ Hole IsRed c true (n + 1)) ∨
    (vp.color = .black ∧ c.length ≤ len ∧ ∃ b, Hole IsRed c b (n + 2))

/-- After case 2 the sibling is black. -/
theorem deleteCase2_spec {b : Bool}
    (h : Holds s (plug (⟨d, (p, vp), w⟩ :: c) (.node (x, vx) l r)))
    (hole : Hole IsRed (⟨d, (p, vp), w⟩ :: c) b (n + 1)) :
    ∃ s₁ vp₁ y vy near far c₁, deleteCase2 s (some x) s.sentinel = .ok s₁ ∧
      Turned s (⟨d, (p, vp), w⟩ :: c) (.node (x, vx) l r) (n + 1) s₁
        (⟨d, (p, vp₁), sideNode d (y, vy) near far⟩ :: c₁) ∧
      BlackSibling p y vp₁ vy near far c₁ n c.length := by
  have hblack : vp.color ≠ .red → vp.color = .black := fun hp ↦ by
    cases hcol : vp.color with
    | black => rfl
    | red => exact absurd hcol hp
  have hskip : ∀ y vy near far, w = sideNode d (y, vy) near far → vy.color = .black →
      deleteCase2 s (some x) s.sentinel = .ok s := by
    rintro y vy near far rfl hy
    have hsib := Holds.sibling (e := .left) h
    rw [ptr_sideNode] at hsib
    simp [deleteCase2, hsib, State.isRed, h.colors_of_sibling.1, hy, -State.color_some]
  have hturned : Turned s (⟨d, (p, vp), w⟩ :: c) (.node (x, vx) l r) (n + 1) s
      (⟨d, (p, vp), w⟩ :: c) := ⟨h, .refl _, .refl _ _, b, hole⟩
  obtain ⟨hp, rfl, hw, hc⟩ | ⟨hp, rfl, ⟨sc, hw⟩, b', hc⟩ := hole_cons.mp hole
  · -- under a red parent the sibling is black
    obtain ⟨⟨y, vy⟩, near, far, cn, cf, rfl, hy, hn, hf⟩ := Balanced.exists_black hw d
    exact ⟨s, vp, y, vy, near, far, c, hskip _ _ _ _ rfl hy, hturned, hy, ⟨cn, hn⟩, ⟨cf, hf⟩,
      .inl ⟨hp, hc⟩⟩
  cases sc with
  | false =>
    obtain ⟨⟨y, vy⟩, near, far, cn, cf, rfl, hy, hn, hf⟩ := Balanced.exists_black hw d
    exact ⟨s, vp, y, vy, near, far, c, hskip _ _ _ _ rfl hy, hturned, hy, ⟨cn, hn⟩, ⟨cf, hf⟩,
      .inr ⟨hblack hp, Nat.le_refl _, b', hc⟩⟩
  | true =>
    have hwred := (rootColor_eq_red_iff hw).mpr rfl
    obtain ⟨⟨y, vy⟩, near, far, rfl⟩ : ∃ v u u', w = sideNode d v u u' := by
      cases w with
      | nil => cases hwred
      | node v l r => exact ⟨v, exists_sideNode_eq_node d v l r⟩
    obtain ⟨s₁, hrun, hnear, hturned⟩ := deleteCase2_red h hole (by simpa using hwred)
    obtain ⟨⟨y', vy'⟩, near', far', cn, cf, rfl, hy', hn, hf⟩ := Balanced.exists_black hnear d
    obtain ⟨b₁, hole₁⟩ := hturned.hole
    obtain ⟨-, -, -, habove⟩ | ⟨hred, -⟩ := hole_cons.mp hole₁
    · exact ⟨s₁, _, y', vy', near', far', _, hrun, hturned, hy', ⟨cn, hn⟩, ⟨cf, hf⟩,
        .inl ⟨rfl, habove⟩⟩
    · exact absurd rfl hred

theorem blackWithBlackChildren_eq
    (h : Holds s (plug (⟨d, (p, vp), sideNode d (y, vy) near far⟩ :: c) t))
    (hy : vy.color = .black) : blackWithBlackChildren s (some y) =
      .ok (decide (rootColor near = .black ∧ rootColor far = .black)) := by
  obtain ⟨hyc, hcn, hcf, hncol, hfcol⟩ := h.colors_of_sibling
  have hyb : s.isBlack (some y) = .ok true := by
    simp [State.isBlack, hyc, hy, -State.color_some]
  have hnb : s.isBlack (ptr s.sentinel near) = .ok (decide (rootColor near = .black)) := by
    simp [State.isBlack, hncol]
  have hfb : s.isBlack (ptr s.sentinel far) = .ok (decide (rootColor far = .black)) := by
    simp [State.isBlack, hfcol]
  cases d with
  | left =>
    simp only [Side.other_left] at hcf
    simp only [blackWithBlackChildren, hyb, hcn, hcf, hnb, hfb, Exec.ok_bind]
    cases rootColor far <;> cases rootColor near <;> rfl
  | right =>
    simp only [Side.other_right] at hcf
    simp only [blackWithBlackChildren, hyb, hcn, hcf, hnb, hfb, Exec.ok_bind]
    cases rootColor far <;> cases rootColor near <;> rfl

theorem deleteRepair_root {fuel nest : Nat} (h : Holds s (.node (x, vx) l r)) :
    deleteRepair (fuel + 1) s (some x) s.sentinel nest = .ok s := by
  have hpx := Holds.parent (d := .left) (c := []) h
  have hroot : s.root = some x := h.rep.1
  have hset : s.setRoot (some x) = s := by rw [State.setRoot, ← hroot]
  simp only [deleteRepair, hpx, ctxParent_nil, Exec.ok_bind, if_true, hset, Exec.pure_eq_ok]

/-- `dl_rbtree_delete_repair` makes the path around `n` fit a subtree that is one black node
short. -/
theorem deleteRepair_spec {fuel : Nat} {b : Bool} (h : Holds s (plug c (.node (x, vx) l r)))
    (hole : Hole IsRed c b (n + 1)) (hfuel : c.length < fuel) :
    ∃ s' c', deleteRepair fuel s (some x) s.sentinel 1 = .ok s' ∧
      Turned s c (.node (x, vx) l r) n s' c' := by
  induction fuel generalizing s c x vx l r n b with
  | zero => exact absurd hfuel (Nat.not_lt_zero _)
  | succ fuel ih =>
    rcases c with _ | ⟨⟨d, ⟨p, vp⟩, w⟩, c⟩
    · exact ⟨s, [], deleteRepair_root h, h, .refl _, .refl _ _, false, hole_nil.mpr rfl⟩
    have hpx := Holds.parent (d := .left) h
    obtain ⟨s₁, vp₁, y, vy, near, far, c₁, hrun₁, hturn₁, hy, ⟨cn, hn⟩, ⟨cf, hf⟩, habove⟩ :=
      deleteCase2_spec h hole
    have h₁ := hturn₁.holds
    have hsent₁ := hturn₁.keeps.sentinel
    have hsib₁ := Holds.sibling (e := .left) h₁
    have hpx₁ := Holds.parent (d := .left) h₁
    have hpc₁ : s₁.color (some p) = .ok vp₁.color := by
      simpa using Holds.color (c := c₁) (t := sideNode d (p, vp₁) _ _) h₁
    have hpb₁ : s₁.isBlack (some p) = .ok (decide (vp₁.color = .black)) := by
      simp [State.isBlack, hpc₁, -State.color_some]
    have hpr₁ : s₁.isRed (some p) = .ok (decide (vp₁.color = .red)) := by
      simp [State.isRed, hpc₁, -State.color_some]
    have hbb := blackWithBlackChildren_eq h₁ hy
    rw [ctxParent_cons] at hpx hpx₁
    rw [ptr_sideNode] at hsib₁
    by_cases hchildren : rootColor near = .black ∧ rootColor far = .black
    · rcases habove with ⟨hp, hc⟩ | ⟨hp, hlen, b', hc⟩
      · -- case 4
        obtain ⟨b₁, hole₁⟩ := hturn₁.hole
        refine ⟨_, _, ?_, hturn₁.trans (exchange_spec h₁ hole₁ hp hchildren.1 hchildren.2)⟩
        simp [deleteRepair, hpx, hrun₁, hsib₁, hpx₁, hpb₁, hp, andM, toBool, deleteCase4, hpr₁,
          hbb, hchildren, -State.parent_some]
      · -- case 3
        obtain rfl : cn = false := by simpa [hchildren.1] using rootColor_eq_red_iff hn
        obtain rfl : cf = false := by simpa [hchildren.2] using rootColor_eq_red_iff hf
        have h₂ := h₁.paint_sibling .red
        have hred : Balanced IsRed (sideNode d (y, { vy with color := .red }) near far) true n :=
          balanced_sideNode_iff.mpr (.inl ⟨rfl, rfl, hn, hf⟩)
        obtain ⟨l', r', hlr⟩ := exists_node_eq_sideNode d (p, vp₁) (.node (x, vx) l r)
          (sideNode d (y, { vy with color := .red }) near far)
        have h₃ : Holds (s₁.paint y .red) (plug c₁ (.node (p, vp₁) l' r')) := hlr ▸ h₂
        obtain ⟨s₃, c₃, hrun₃, hturn₃⟩ := ih h₃ hc (by simp at hfuel; omega)
        refine ⟨s₃, ⟨d, (p, vp₁), sideNode d (y, { vy with color := .red }) near far⟩ :: c₃, ?_,
          hturn₁.trans ⟨?_, ?_, ?_, true, ?_⟩⟩
        · rw [State.sentinel_paint, hsent₁] at hrun₃
          simp [deleteRepair, hpx, hrun₁, hsib₁, hpx₁, hpb₁, hp, andM, toBool,
            hbb, hchildren, hrun₃, -State.parent_some]
        · have h₃ := hturn₃.holds
          rwa [← hlr] at h₃
        · refine hturn₃.same.cons rfl ?_
          cases d <;> simp
        · refine ((Keeps.refl _ s₁).paint ?_ .red).trans hturn₃.keeps fun a ha ↦ ?_
          · simp [mem_addrs_plug]
          · rw [← hlr] at ha
            simp only [mem_addrs_plug, mem_ctxAddrs_cons, mem_addrs_sideNode] at ha ⊢
            tauto
        · exact hole_cons.mpr (.inr ⟨by simp [hp], rfl, ⟨_, hred⟩, hturn₃.hole⟩)
    · -- cases 5 and 6
      have hcolor : cn = true ∨ cf = true := by
        rw [← rootColor_eq_red_iff hn, ← rootColor_eq_red_iff hf]
        cases hcn : rootColor near <;> cases hcf : rootColor far <;> simp_all
      obtain ⟨s₂, y', vy', near', far', cn', hrun₂, h₂, hkeep₂, hid₂, hy', hn', hf'⟩ :=
        deleteCase5_spec h₁ hy hn hf hcolor
      obtain ⟨⟨z, vz⟩, u, u', rfl⟩ : ∃ v u u', far' = .node v u u' := by
        cases far' with
        | nil => cases (balanced_nil_iff.mp hf').1
        | node v u u' => exact ⟨v, u, u', rfl⟩
      have hroom : (vp₁.color = .red ∧ Hole IsRed c₁ true (n + 1)) ∨
          (vp₁.color = .black ∧ ∃ b, Hole IsRed c₁ b (n + 2)) :=
        habove.imp_right fun h ↦ ⟨h.1, h.2.2⟩
      obtain ⟨s₃, hrun₃, hturn₃⟩ := deleteCase6_spec h₂ hroom hn' hf'
      refine ⟨s₃, _, ?_, hturn₁.trans (.of_keeps hkeep₂ (.cons (.refl _) rfl hid₂) hturn₃)⟩
      rw [hsent₁] at hrun₂
      rw [hkeep₂.sentinel, hsent₁] at hrun₃
      have hskip : (s₁.isBlack (some p) <&&> blackWithBlackChildren s₁ (some y)) = .ok false := by
        cases hp : vp₁.color <;> simp [hpb₁, hbb, hchildren, hp, andM, toBool]
      have hskip' : (s₁.isRed (some p) <&&> blackWithBlackChildren s₁ (some y)) = .ok false := by
        cases hp : vp₁.color <;> simp [hpr₁, hbb, hchildren, hp, andM, toBool]
      simp [deleteRepair, hpx, hrun₁, hsib₁, hpx₁, hskip, hskip', deleteCase4, hrun₂, hrun₃,
        -State.parent_some]

end Dlbase.Rbtree
