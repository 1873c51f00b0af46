import Dlbase.Rbtree.Links

/-!
# Red-black insertion

What `dl_rbtree_insert` does to the tree held in memory: the new node is hung
as a red leaf at the end of its search path, and `dl_rbtree_repair` carries the
conflict of a red node under a red parent upwards.

The inner rotation for a right child under a left child turns about the wrong
node, so the results here are about insertions whose conflict does not end in
that position (`bendsLeftRight`).
-/

namespace Dlbase.Rbtree

open Cmem BinaryTree

/-- The frames from the position at which a node with key `k` is hung to the root. -/
def descend (k : Int) : Shape → Path → Path
  | .nil, c => c
  | .node v l r, c =>
    if k < v.2.key then descend k l (⟨.left, v, r⟩ :: c) else descend k r (⟨.right, v, l⟩ :: c)

/-- The conflict of a red node under this context, carried upwards past red uncles, ends with
a right child under a left child. -/
def bendsLeftRight : Path → Bool
  | f :: g :: c =>
    if f.val.2.color = .red then
      if rootColor g.sib = .red then bendsLeftRight c
      else decide (f.side = .right ∧ g.side = .left)
    else false
  | _ => false

/-- The links of the sentinel, which the code never sets, do not lead into the tree. -/
def NoStray (s : State) (T : Shape) : Prop :=
  ∀ z d a, s.sentinel = some z → (s.cells z).child d = some a → a ∉ addrs T

/-! ## Hanging the new node -/

/-- The stores at the end of `dl_rbtree_insert_value`. -/
def hangLeaf (cells : Cells) (d : Side) (a x : Addr) (sentinel : Ptr) : Cells :=
  ((((cells.upd a (·.setChild d (some x))).upd x (·.setParent (some a))).upd x
    (·.setChild .left sentinel)).upd x (·.setChild .right sentinel)).upd x
    (·.mapData ({ · with color := .red }))

theorem hangLeaf_of_ne {cells : Cells} {d : Side} {a x b : Addr} {sentinel : Ptr} (hb : b ≠ a)
    (hbx : b ≠ x) : hangLeaf cells d a x sentinel b = cells b := by
  simp [hangLeaf, hb, hbx]

theorem hangLeaf_parent {cells : Cells} {d : Side} {a x : Addr} {sentinel : Ptr} (hax : a ≠ x) :
    hangLeaf cells d a x sentinel a = (cells a).setChild d (some x) := by
  simp [hangLeaf, hax]

theorem hangLeaf_new {cells : Cells} {d : Side} {a x : Addr} {sentinel : Ptr} (hax : a ≠ x) :
    hangLeaf cells d a x sentinel x = ⟨sentinel, sentinel, some a, ⟨(cells x).data.key, .red⟩⟩ := by
  simp [hangLeaf, hax.symm, Cell.setChild, Cell.setParent, Cell.mapData]

theorem hangLeaf_spec {s : State} {c : Path} {d : Side} {a x : Addr} {v : Data} {y : Shape}
    {k : Int} (hk : (s.cells x).data.key = k) (hxs : some x ≠ s.sentinel)
    (h : Holds s (plug c (sideNode d (a, v) .nil y)))
    (hx : x ∉ addrs (plug c (sideNode d (a, v) .nil y))) :
    Holds { s with cells := hangLeaf s.cells d a x s.sentinel }
      (plug (⟨d, (a, v), y⟩ :: c) (.node (x, ⟨k, .red⟩) .nil .nil)) := by
  obtain ⟨hc, hr⟩ := h.focus
  rw [ptr_sideNode] at hc hr
  obtain ⟨-, han, had, hap, -, hy⟩ := rep_sideNode.mp hr
  obtain ⟨hndc, hndt, hdisj⟩ := nodup_addrs_plug.mp h.nodup
  obtain ⟨-, hay, -, hndy, -⟩ := nodup_addrs_sideNode.mp hndt
  simp only [mem_addrs_plug, mem_addrs_sideNode, addrs_nil, List.not_mem_nil, false_or,
    not_or] at hx hdisj
  obtain ⟨hxc, hxa, hxy⟩ := hx
  have hax : a ≠ x := Ne.symm hxa
  have hac : a ∉ ctxAddrs c := fun ha ↦ (hdisj a ha).1 rfl
  have hagree : ∀ L : List Addr, a ∉ L → x ∉ L → ∀ b ∈ L,
      hangLeaf s.cells d a x s.sentinel b = s.cells b := fun L ha hx b hb ↦
    hangLeaf_of_ne (fun h ↦ ha (h ▸ hb)) (fun h ↦ hx (h ▸ hb))
  refine ⟨rep_plug_iff.mpr ⟨?_, ?_⟩, ?_, ?_⟩
  · simp only [ctxRep_cons, ptr_node, hangLeaf_parent hax]
    refine ⟨han, by simp, by simpa using had, by simpa using hap, ?_, ?_⟩
    · simpa using hy.congr (hagree _ hay hxy)
    · exact hc.congr (hagree _ hac hxc)
  · simp only [ptr_node, rep_node, hangLeaf_new hax]
    exact ⟨trivial, hxs, by simp [hk], by simp, by simp, by simp⟩
  · have hperm : (addrs (plug (⟨d, (a, v), y⟩ :: c) (.node (x, ⟨k, .red⟩) .nil .nil))).Nodup ↔ _ :=
      nodup_addrs_plug
    rw [hperm, nodup_ctxAddrs_cons]
    simp only [mem_ctxAddrs_cons]
    have : addrs (.node (x, (⟨k, .red⟩ : Data)) .nil .nil) = [x] := rfl
    rw [this]
    grind
  · obtain ⟨z, hz, hblack⟩ := h.sentinel
    refine ⟨z, hz, ?_⟩
    have hza : z ≠ a := fun e ↦ han (e ▸ hz.symm)
    have hzx : z ≠ x := fun e ↦ hxs (e ▸ hz.symm)
    simpa [hangLeaf_of_ne hza hzx] using hblack

theorem insertValue_succ {cells : Cells} {a x : Addr} {sentinel : Ptr} {d : Side} {fuel : Nat}
    (hd : (if (cells x).data.key < (cells a).data.key then .left else .right) = d) :
    insertValue (fuel + 1) cells (some a) (some x) sentinel =
      if (cells a).child d = sentinel then .ok (hangLeaf cells d a x sentinel)
      else insertValue fuel cells ((cells a).child d) (some x) sentinel := by
  subst hd
  rfl

/-- What the loop of `dl_rbtree_insert_value` achieves when it has come down to the subtree
`t` under the path `c`. -/
def Hangs (s : State) (x : Addr) (k : Int) (t : Shape) (c : Path) (fuel : Nat) : Prop :=
  ∃ cells, insertValue fuel s.cells (ptr s.sentinel t) (some x) s.sentinel = .ok cells ∧
    Holds { s with cells } (plug (descend k t c) (.node (x, ⟨k, .red⟩) .nil .nil)) ∧
    ∀ b ∉ addrs (plug c t), b ≠ x → cells b = s.cells b

theorem hangs_sideNode {s : State} {x : Addr} {k : Int} (hk : (s.cells x).data.key = k)
    (hxs : some x ≠ s.sentinel) {c : Path} {d : Side} {a : Addr} {v : Data} {u y : Shape}
    {fuel : Nat} (hd : (if k < v.key then .left else .right) = d)
    (h : Holds s (plug c (sideNode d (a, v) u y)))
    (hx : x ∉ addrs (plug c (sideNode d (a, v) u y)))
    (ih : u ≠ .nil → Hangs s x k u (⟨d, (a, v), y⟩ :: c) fuel) :
    Hangs s x k (sideNode d (a, v) u y) c (fuel + 1) := by
  obtain ⟨han, had, -, hu, -⟩ := h.node
  have hdesc : descend k (sideNode d (a, v) u y) c = descend k u (⟨d, (a, v), y⟩ :: c) := by
    split_ifs at hd with hlt <;> subst hd <;> simp [descend, hlt]
  rw [Hangs, ptr_sideNode, insertValue_succ (d := d) (by rw [hk, had]; exact hd), hu, hdesc]
  by_cases hnil : u = .nil
  · subst hnil
    refine ⟨_, if_pos rfl, hangLeaf_spec hk hxs h hx, fun b hb hbx ↦ hangLeaf_of_ne ?_ hbx⟩
    rintro rfl
    simp [mem_addrs_plug] at hb
  · have hfocus : Holds s (plug (⟨d, (a, v), y⟩ :: c) u) := h
    rw [if_neg (mt hfocus.focus.2.eq_nil_iff.mpr hnil)]
    exact ih hnil

/-- `dl_rbtree_insert_value` hangs the node as a red leaf at the end of its search path. -/
theorem insertValue_spec {s : State} {x : Addr} {k : Int} (hk : (s.cells x).data.key = k)
    (hxs : some x ≠ s.sentinel) {t : Shape} {c : Path} {fuel : Nat} (ht : t ≠ .nil)
    (h : Holds s (plug c t)) (hx : x ∉ addrs (plug c t)) (hfuel : t.height ≤ fuel) :
    Hangs s x k t c fuel := by
  induction t generalizing c fuel with
  | nil => exact absurd rfl ht
  | node v l r ihl ihr =>
    obtain ⟨a, v⟩ := v
    obtain ⟨fuel, rfl⟩ : ∃ m, fuel = m + 1 := ⟨fuel - 1, by simp at hfuel; omega⟩
    rw [BinaryTree.height, Nat.succ_le_succ_iff] at hfuel
    obtain ⟨hfl, hfr⟩ := Nat.max_le.mp hfuel
    by_cases hlt : k < v.key
    · exact hangs_sideNode (d := .left) hk hxs (if_pos hlt) h hx fun hl ↦ ihl hl h hx hfl
    · exact hangs_sideNode (d := .right) hk hxs (if_neg hlt) h hx fun hr ↦ ihr hr h hx hfr

/-! ## Repairing -/

variable {s : State} {T : Shape}

/-- A link read below a subtree the node `x` is not in does not lead to `x`. -/
theorem Holds.child_ne {c : Path} {u : Shape} {x : Addr} (h : Holds s (plug c u))
    (hstray : NoStray s (plug c u)) (hx : x ∈ addrs (plug c u)) (hxu : x ∉ addrs u) (d : Side) :
    ∃ q, s.child d (ptr s.sentinel u) = .ok q ∧ some x ≠ q := by
  cases u with
  | nil =>
    obtain ⟨z, hz, -⟩ := h.sentinel
    exact ⟨(s.cells z).child d, by simp [hz], fun hq ↦ hstray z d x hz hq.symm hx⟩
  | node v l r =>
    obtain ⟨b, v⟩ := v
    have hxs : some x ≠ s.sentinel := h.rep.ne_nil x hx
    simp only [mem_addrs_node, not_or] at hxu
    cases d with
    | left => exact ⟨_, Holds.child (d := .left) h, (ptr_ne hxu.1 hxs).symm⟩
    | right => exact ⟨_, Holds.child_other (d := .left) h, (ptr_ne hxu.2.2 hxs).symm⟩

theorem repairRotate_outer {c : Path} {d : Side} {g p x : Addr} {vg vp vx : Data}
    {u w l r : Shape}
    (h : Holds s (plug c (sideNode d (g, vg) u (sideNode d (p, vp) w (.node (x, vx) l r)))))
    (hstray : NoStray s (plug c (sideNode d (g, vg) u (sideNode d (p, vp) w (.node (x, vx) l r))))) :
    ∃ s', repairRotate s (some x) s.sentinel = .ok s' ∧
      Keeps (plug c (sideNode d (g, vg) u (sideNode d (p, vp) w (.node (x, vx) l r)))) s s' ∧
      Holds s' (plug c (sideNode d (p, { vp with color := .black })
        (sideNode d (g, { vg with color := .red }) u w) (.node (x, vx) l r))) := by
  have hP : Holds s (plug (⟨d.other, (g, vg), u⟩ :: c) (sideNode d (p, vp) w (.node (x, vx) l r))) := by
    rwa [plug_cons_other]
  have hX : Holds s (plug (⟨d.other, (p, vp), w⟩ :: ⟨d.other, (g, vg), u⟩ :: c)
      (sideNode .left (x, vx) l r)) := by
    rwa [plug_cons_other]
  have hU : Holds s (plug (⟨d, (g, vg), sideNode d (p, vp) w (.node (x, vx) l r)⟩ :: c) u) := h
  have hxu : x ∉ addrs u := fun hx ↦ h.disjoint.2.2 x hx (by simp)
  have hxw : x ∉ addrs w := fun hx ↦ hP.disjoint.2.2 x hx (by simp)
  have hxs := hX.node.1
  obtain ⟨q, hq, hqx⟩ := hU.child_ne hstray (by simp [mem_addrs_plug, Frame.fill]) hxu d.other
  obtain ⟨s₁, hrun₁, h₁, hkeep₁⟩ := rotate_spec h
  have h₂ := h₁.paint .black
  have h₃ := Holds.paint (c := ⟨d, _, _⟩ :: c) (d := d) h₂ .red
  have hpx := hX.parent
  have hgp := hP.parent
  have hgu := h.child
  have hgp' := h.child_other
  have hpw := hP.child
  have hpx' := hP.child_other
  have hwx := (ptr_ne hxw hxs).symm
  simp only [ctxParent_cons, ptr_node, ptr_sideNode] at hpx hgp hgp' hpx'
  refine ⟨_, ?_, (hkeep₁.paint ?_ .black).paint ?_ .red, h₃⟩
  · cases d with
    | left =>
      simp only [Side.other_left] at *
      simp [repairRotate, hpx, hgp, hgu, hgp', hpw, hq, hqx, hwx, hrun₁, leftRotate_eq,
        -State.child_some, -State.parent_some]
    | right =>
      simp only [Side.other_right] at *
      simp [repairRotate, hpx, hgp, hgu, hgp', hpx', hpw, hq, hqx, hwx, hrun₁, rightRotate_eq,
        -State.child_some, -State.parent_some]
  · simp [mem_addrs_plug]
  · simp [mem_addrs_plug]

theorem repairRotate_inner {c : Path} {g p x : Addr} {vg vp vx : Data} {u w l r : Shape}
    (h : Holds s (plug c (.node (g, vg) u (.node (p, vp) (.node (x, vx) l r) w))))
    (hstray : NoStray s (plug c (.node (g, vg) u (.node (p, vp) (.node (x, vx) l r) w)))) :
    ∃ s', repairRotate s (some x) s.sentinel = .ok s' ∧
      Keeps (plug c (.node (g, vg) u (.node (p, vp) (.node (x, vx) l r) w))) s s' ∧
      Holds s' (plug c (.node (x, { vx with color := .black })
        (.node (g, { vg with color := .red }) u l) (.node (p, vp) r w))) := by
  have hP : Holds s (plug (⟨.right, (g, vg), u⟩ :: c)
      (sideNode .left (p, vp) (.node (x, vx) l r) w)) := h
  have hX : Holds s (plug (⟨.left, (p, vp), w⟩ :: ⟨.right, (g, vg), u⟩ :: c)
      (sideNode .left (x, vx) l r)) := h
  have hU : Holds s (plug (⟨.left, (g, vg), .node (p, vp) (.node (x, vx) l r) w⟩ :: c) u) := h
  have hxu : x ∉ addrs u := fun hx ↦ (Holds.disjoint (d := .left) h).2.2 x hx (by simp)
  have hpl : p ∉ addrs l := fun hp ↦ hP.disjoint.1 (by simp [hp])
  obtain ⟨q, hq, hqx⟩ := hU.child_ne hstray (by simp [mem_addrs_plug, Frame.fill]) hxu .right
  obtain ⟨s₁, hrun₁, h₁, hkeep₁⟩ := rotate_spec (d := .right) (A := w) (B := r) (C := l)
    (c := ⟨.right, (g, vg), u⟩ :: c) h
  have hX₁ : Holds s₁ (plug (⟨.right, (g, vg), u⟩ :: c)
      (sideNode .right (x, vx) (.node (p, vp) r w) l)) := h₁
  have hP₁ : Holds s₁ (plug (⟨.right, (x, vx), l⟩ :: ⟨.right, (g, vg), u⟩ :: c)
      (sideNode .left (p, vp) r w)) := h₁
  obtain ⟨s₂, hrun₂, h₂, hkeep₂⟩ := rotate_spec (s := s₁) (d := .left) (A := u) (B := l)
    (C := .node (p, vp) r w) (c := c) h₁
  have h₃ := h₂.paint .black
  have h₄ := Holds.paint (c := ⟨.left, _, _⟩ :: c) (d := .left) h₃ .red
  have hpx := hX.parent
  have hgp := hP.parent
  have hgu := Holds.child (d := .left) h
  have hgp' := Holds.child_other (d := .left) h
  have hpx' := hP.child
  have hxp₁ := hX₁.child
  have hpx₁ := hP₁.parent
  have hgx₁ := hX₁.parent
  have hxl₁ := hX₁.child_other
  have hpl₁ : some p ≠ ptr s₁.sentinel l := (ptr_ne hpl hP₁.node.1).symm
  simp only [ctxParent_cons, ptr_node, Side.other_left,
    Side.other_right] at hpx hgp hgp' hpx' hxp₁ hpx₁ hgx₁ hxl₁
  have hkeep : Keeps (plug c (.node (g, vg) u (.node (p, vp) (.node (x, vx) l r) w))) s s₂ :=
    hkeep₁.trans hkeep₂ fun b hb ↦ by
      simp only [mem_addrs_plug, mem_ctxAddrs_cons, mem_addrs_sideNode, mem_addrs_node] at hb ⊢
      tauto
  rw [hkeep₁.sentinel] at hrun₂
  refine ⟨_, ?_, (hkeep.paint ?_ .black).paint ?_ .red, h₄⟩
  · simp [repairRotate, hpx, hgp, hgu, hgp', hq, hqx, hpx', hrun₁, rightRotate_eq, hxp₁, hpx₁,
      hgx₁, hxl₁, hpl₁, hrun₂, leftRotate_eq, -State.child_some, -State.parent_some]
  · simp [mem_addrs_plug]
  · simp [mem_addrs_plug]

theorem Holds.uncle {c : Path} {d e : Side} {g p x : Addr} {vg vp vx : Data} {u w l r : Shape}
    (h : Holds s (plug (⟨e, (p, vp), w⟩ :: ⟨d, (g, vg), u⟩ :: c) (.node (x, vx) l r))) :
    uncle s (some x) = .ok (ptr s.sentinel u) := by
  have hP : Holds s (plug (⟨d, (g, vg), u⟩ :: c) (sideNode e (p, vp) (.node (x, vx) l r) w)) := h
  have hpx := Holds.parent (d := .left) h
  simp [Rbtree.uncle, grandparent, hpx, hP.parent, hP.sibling, -State.parent_some]

/-- What a repair achieves: the tree keeps its in-order sequence and becomes balanced. -/
def Repairs (s : State) (T : Shape) (run : Exec State) : Prop :=
  ∃ s' T', run = .ok s' ∧ Keeps T s s' ∧ Holds s' T' ∧ idents T' = idents T ∧
    ∃ m, Balanced IsRed T' false m

/-- Steps that keep the in-order sequence may precede a repair. -/
theorem Repairs.of_keeps {s s₁ : State} {T T₁ : Shape} {run : Exec State}
    (hkeep : Keeps T s s₁) (hid : idents T₁ = idents T) (h : Repairs s₁ T₁ run) :
    Repairs s T run := by
  obtain ⟨s', T', hrun, hkeep', hT', hid', hbal⟩ := h
  exact ⟨s', T', hrun, hkeep.trans hkeep' fun b hb ↦ (mem_addrs_of_idents hid).mp hb, hT',
    hid'.trans hid, hbal⟩

/-- The stores of the recolouring case of `dl_rbtree_repair`. -/
def recolor (s : State) (p u g : Addr) : State :=
  ((s.paint p .black).paint u .black).paint g .red

section Recolor

variable {c : Path} {d e : Side} {g p x y : Addr} {vg vp vx vy : Data} {w l r ul ur : Shape}

/-- Recolouring: the red parent and the red uncle turn black, the grandparent red. -/
theorem Holds.recolor
    (h : Holds s (plug c (sideNode d (g, vg) (sideNode e (p, vp) (.node (x, vx) l r) w)
      (.node (y, vy) ul ur)))) :
    Holds (recolor s p y g) (plug c (sideNode d (g, { vg with color := .red })
      (sideNode e (p, { vp with color := .black }) (.node (x, vx) l r) w)
      (.node (y, { vy with color := .black }) ul ur))) := by
  have hP : Holds s (plug (⟨d, (g, vg), .node (y, vy) ul ur⟩ :: c)
      (sideNode e (p, vp) (.node (x, vx) l r) w)) := h
  have hP₁ := hP.paint .black
  rw [plug_cons, Frame.fill, ← plug_cons_other] at hP₁
  have hU := Holds.paint (d := .left) hP₁ .black
  rw [plug_cons_other] at hU
  exact hU.paint .red

theorem keeps_recolor : Keeps (plug c (sideNode d (g, vg)
    (sideNode e (p, vp) (.node (x, vx) l r) w) (.node (y, vy) ul ur))) s (recolor s p y g) := by
  refine Keeps.paint (Keeps.paint ((Keeps.refl _ s).paint ?_ _) ?_ _) ?_ _ <;>
    simp [mem_addrs_plug]

theorem idents_recolor : idents (plug c (sideNode d (g, { vg with color := .red })
      (sideNode e (p, { vp with color := .black }) (.node (x, vx) l r) w)
      (.node (y, { vy with color := .black }) ul ur))) =
    idents (plug c (sideNode d (g, vg) (sideNode e (p, vp) (.node (x, vx) l r) w)
      (.node (y, vy) ul ur))) := by
  rw [idents_plug, idents_plug]
  cases d <;> cases e <;> simp [idents]

theorem repair_recolor {fuel : Nat}
    (h : Holds s (plug c (sideNode d (g, vg) (sideNode e (p, vp) (.node (x, vx) l r) w)
      (.node (y, vy) ul ur)))) (hp : vp.color = .red) (hy : vy.color = .red) :
    repair (fuel + 1) s (some x) s.sentinel =
      repair fuel (recolor s p y g) (some g) s.sentinel := by
  have hP : Holds s (plug (⟨d, (g, vg), .node (y, vy) ul ur⟩ :: c)
      (sideNode e (p, vp) (.node (x, vx) l r) w)) := h
  have hX : Holds s (plug (⟨e, (p, vp), w⟩ :: ⟨d, (g, vg), .node (y, vy) ul ur⟩ :: c)
      (sideNode .left (x, vx) l r)) := h
  have hU : Holds s (plug (⟨d.other, (g, vg), sideNode e (p, vp) (.node (x, vx) l r) w⟩ :: c)
      (.node (y, vy) ul ur)) := by
    rwa [plug_cons_other]
  have huncle : ∀ s : State, uncle (s.paint p .black) (some x) = uncle s (some x) := fun s ↦ by
    simp [uncle, sibling, grandparent, -State.parent_some]
  have hpc : s.color (some p) = .ok .red := by simpa [hp] using hP.color
  have huc : s.color (some y) = .ok .red := by simpa [hy] using hU.color
  simp [repair, hX.parent, hpc, Holds.uncle hX, huncle, huc, hP.parent, Rbtree.recolor,
    -State.parent_some, -State.color_some]

end Recolor

/-- The sentinel's links lead out of the tree as long as its nodes are the same. -/
theorem NoStray.keep {s' : State} {U : Shape} (hstray : NoStray s T) (h : Holds s T)
    (hkeep : Keeps T s s') (haddrs : ∀ a, a ∈ addrs U → a ∈ addrs T) : NoStray s' U := by
  intro z d a hz ha haT
  rw [hkeep.sentinel] at hz
  rw [hkeep.cells z fun hzT ↦ h.rep.ne_nil z hzT hz.symm] at ha
  exact hstray z d a hz ha (haddrs a haT)

/-- The end of the repair below a black uncle. -/
theorem repairRotate_spec {c : Path} {d e : Side} {g p x : Addr} {vg vp vx : Data}
    {u w l r : Shape} {n : Nat} {b : Bool}
    (h : Holds s (plug (⟨e, (p, vp), w⟩ :: ⟨d, (g, vg), u⟩ :: c) (.node (x, vx) l r)))
    (hstray : NoStray s (plug (⟨e, (p, vp), w⟩ :: ⟨d, (g, vg), u⟩ :: c) (.node (x, vx) l r)))
    (hbal : Balanced IsRed (.node (x, vx) l r) true n) (hp : vp.color = .red)
    (hw : Balanced IsRed w false n) (hu : Balanced IsRed u false n)
    (hole : Hole IsRed c b (n + 1)) (hbend : ¬ (e = .right ∧ d = .left)) :
    Repairs s (plug (⟨e, (p, vp), w⟩ :: ⟨d, (g, vg), u⟩ :: c) (.node (x, vx) l r))
      (repairRotate s (some x) s.sentinel) := by
  obtain ⟨hredx, -, hl, hr⟩ | ⟨-, hff, -⟩ := balanced_node_iff.mp hbal
  swap
  · cases hff
  by_cases hed : e = d
  · -- the node is on the outer side: one rotation about the grandparent
    subst hed
    simp only [plug_cons, Frame.fill, ← sideNode_other e] at h hstray ⊢
    obtain ⟨s', hrun, hkeep, h'⟩ := repairRotate_outer h hstray
    refine ⟨s', _, hrun, hkeep, h', ?_, ?_⟩
    · rw [idents_plug, idents_plug]
      cases e <;> simp [idents]
    · have hg : Balanced IsRed (sideNode e.other (g, { vg with color := .red }) u w) true n :=
        balanced_sideNode_iff.mpr (.inl ⟨rfl, rfl, hu, hw⟩)
      have hpair := balanced_sideNode_iff (s := e.other) (v := (p, { vp with color := .black })).mpr
        (.inr ⟨(by rintro ⟨⟩), rfl, n, _, _, rfl, hg, hbal⟩)
      exact hole.plug hpair (by rintro ⟨⟩)
  · -- the node is on the inner side of a right child: a rotation about each of the two
    obtain ⟨rfl, rfl⟩ : e = .left ∧ d = .right := by cases e <;> cases d <;> simp_all
    obtain ⟨s', hrun, hkeep, h'⟩ := repairRotate_inner h hstray
    refine ⟨s', _, hrun, hkeep, h', ?_, ?_⟩
    · rw [idents_plug, plug_cons, plug_cons, idents_plug]
      simp [idents, Frame.fill]
    · have hg : Balanced IsRed (.node (g, { vg with color := .red }) _ _) true n :=
        .red rfl hu hl
      have hp : Balanced IsRed (.node (p, vp) _ _) true n := .red hp hr hw
      have hx : Balanced IsRed (.node (x, { vx with color := .black }) _ _) false (n + 1) :=
        .black (by rintro ⟨⟩) hg hp
      exact hole.plug hx (by rintro ⟨⟩)

/-- `dl_rbtree_repair` restores the balance around a red node, unless the conflict ends in a
right child under a left child. -/
theorem repair_spec (fuel : Nat) {c : Path} {x : Addr} {vx : Data} {l r : Shape} {b : Bool}
    {n : Nat} (h : Holds s (plug c (.node (x, vx) l r)))
    (hbal : Balanced IsRed (.node (x, vx) l r) true n) (hole : Hole IsRed c b n)
    (hfuel : c.length < fuel) (hbend : bendsLeftRight c = false)
    (hstray : NoStray s (plug c (.node (x, vx) l r))) :
    Repairs s (plug c (.node (x, vx) l r)) (repair fuel s (some x) s.sentinel) := by
  induction fuel generalizing s c x vx l r b n with
  | zero => exact absurd hfuel (Nat.not_lt_zero _)
  | succ fuel ih =>
    have hpx := Holds.parent (d := .left) h
    rcases c with _ | ⟨⟨e, ⟨p, vp⟩, w⟩, c⟩
    · -- the root is painted black
      obtain ⟨-, -, hl, hr⟩ | ⟨-, hff, -⟩ := balanced_node_iff.mp hbal
      · refine ⟨s.paint x .black, _, by simp [repair, hpx, -State.parent_some],
          (Keeps.refl _ _).paint (by simp) _, Holds.paint (d := .left) (c := []) h .black,
          by simp [idents], n + 1, ?_⟩
        exact .black (by rintro ⟨⟩) hl hr
      · cases hff
    have hP : Holds s (plug c (sideNode e (p, vp) (.node (x, vx) l r) w)) := h
    have hpcolor : s.color (some p) = .ok vp.color := by simpa using hP.color
    rcases hole_cons.mp hole with ⟨hp, -, hw, hole⟩ | ⟨hp, rfl, -⟩
    swap
    · -- below a black parent the tree is valid
      refine ⟨s, _, ?_, Keeps.refl _ _, h, rfl, hole.plug hbal fun _ ↦ rfl⟩
      have hblack : vp.color = .black := by cases hc : vp.color <;> simp_all
      simp [repair, hpx, hpcolor, hblack, -State.parent_some, -State.color_some]
    rcases c with _ | ⟨⟨d, ⟨g, vg⟩, u⟩, c⟩
    · cases hole_nil.mp hole
    rcases hole_cons.mp hole with ⟨-, hff, -⟩ | ⟨hg, -, ⟨uc, hu⟩, b', holeg⟩
    · cases hff
    have hG : Holds s (plug c (sideNode d (g, vg) (sideNode e (p, vp) (.node (x, vx) l r) w) u)) :=
      h
    replace hp : vp.color = .red := hp
    have hU : Holds s (plug (⟨d.other, (g, vg), sideNode e (p, vp) (.node (x, vx) l r) w⟩ :: c) u) := by
      rwa [plug_cons_other]
    cases hcol : rootColor u with
    | red =>
      obtain ⟨⟨y, vy⟩, ul, ur, rfl⟩ : ∃ v l r, u = .node v l r := by
        cases u with
        | nil => cases hcol
        | node v l r => exact ⟨v, l, r, rfl⟩
      obtain ⟨-, -, hul, hur⟩ | ⟨hvy, -⟩ := balanced_node_iff.mp hu
      swap
      · exact absurd hcol hvy
      -- recoloured, the conflict moves up to the grandparent
      have hyblack : Balanced IsRed (.node (y, { vy with color := .black }) ul ur) false (n + 1) :=
        .black (by rintro ⟨⟩) hul hur
      have hpblack : Balanced IsRed (sideNode e (p, { vp with color := .black }) _ _) false (n + 1) :=
        balanced_sideNode_iff.mpr (.inr ⟨(by rintro ⟨⟩), rfl, n, _, _, rfl, hbal, hw⟩)
      have hgred : Balanced IsRed (sideNode d (g, { vg with color := .red }) _ _) true (n + 1) :=
        balanced_sideNode_iff.mpr (.inl ⟨rfl, rfl, hpblack, hyblack⟩)
      have hrec := hG.recolor
      rw [repair_recolor hG hp hcol]
      refine Repairs.of_keeps keeps_recolor idents_recolor ?_
      obtain ⟨l', r', hlr⟩ := exists_node_eq_sideNode d (g, { vg with color := .red })
        (sideNode e (p, { vp with color := .black }) (.node (x, vx) l r) w)
        (.node (y, { vy with color := .black }) ul ur)
      have hstray' := hstray.keep h keeps_recolor (U := plug c (.node _ l' r')) fun a ha ↦
        (mem_addrs_of_idents idents_recolor).mp (hlr ▸ ha)
      rw [hlr] at hrec hgred ⊢
      exact ih hrec hgred holeg (by simp at hfuel; omega)
        (by simpa [bendsLeftRight, hp, hcol] using hbend) hstray'
    | black =>
      have hrun : repair (fuel + 1) s (some x) s.sentinel = repairRotate s (some x) s.sentinel := by
        simp [repair, hpx, hpcolor, hp, h.uncle, hU.color, hcol, -State.parent_some,
          -State.color_some]
      rw [hrun]
      refine repairRotate_spec h hstray hbal hp hw ?_ holeg ?_
      · have huc := rootColor_eq_red_iff hu
        simp only [hcol, reduceCtorEq, false_iff, Bool.not_eq_true] at huc
        exact huc ▸ hu
      · simpa [bendsLeftRight, hp, hcol] using hbend

/-! ## One insertion -/

/-- The path to the new node's place divides the in-order sequence: in an ordered tree into
the keys up to `k` and those above. -/
theorem idents_descend (k : Int) (t : Shape) (c : Path) (x : Shape) :
    ∃ A B, idents t = A ++ B ∧
      idents (plug (descend k t c) x) =
        (before c).map ident ++ (A ++ (idents x ++ B)) ++ (after c).map ident ∧
      (Ordered t → (∀ i ∈ A, i.2 ≤ k) ∧ ∀ i ∈ B, k < i.2) := by
  induction t generalizing c with
  | nil => exact ⟨[], [], rfl, by simp [descend, idents_plug], by simp⟩
  | node v l r ihl ihr =>
    by_cases hlt : k < v.2.key
    · obtain ⟨A, B, hl, hplug, hord⟩ := ihl (⟨.left, v, r⟩ :: c)
      refine ⟨A, B ++ ident v :: idents r, by simp [hl], ?_, fun h ↦ ?_⟩
      · rw [descend, if_pos hlt, hplug]
        simp [before, after, idents]
      · rw [Ordered, idents_node, List.pairwise_append, List.pairwise_cons] at h
        obtain ⟨hA, hB⟩ := hord h.1
        refine ⟨hA, fun i hi ↦ ?_⟩
        rcases List.mem_append.mp hi with hi | hi
        · exact hB i hi
        · rcases List.mem_cons.mp hi with rfl | hi
          · exact hlt
          · exact Int.lt_of_lt_of_le hlt (h.2.1.1 i hi)
    · obtain ⟨A, B, hr, hplug, hord⟩ := ihr (⟨.right, v, l⟩ :: c)
      refine ⟨idents l ++ ident v :: A, B, by simp [hr], ?_, fun h ↦ ?_⟩
      · rw [descend, if_neg hlt, hplug]
        simp [before, after, idents]
      · rw [Ordered, idents_node, List.pairwise_append, List.pairwise_cons] at h
        obtain ⟨hA, hB⟩ := hord h.2.1.2
        refine ⟨fun i hi ↦ ?_, hB⟩
        rcases List.mem_append.mp hi with hi | hi
        · exact Int.le_trans (h.2.2 i hi (ident v) (by simp)) (Int.not_lt.mp hlt)
        · rcases List.mem_cons.mp hi with rfl | hi
          · exact Int.not_lt.mp hlt
          · exact hA i hi

theorem plug_descend (k : Int) (t : Shape) (c : Path) : plug (descend k t c) .nil = plug c t := by
  induction t generalizing c with
  | nil => rfl
  | node v l r ihl ihr =>
    rw [descend]
    split_ifs
    · rw [ihl]; rfl
    · rw [ihr]; rfl

theorem length_descend (k : Int) (t : Shape) (c : Path) :
    (descend k t c).length ≤ t.height + c.length := by
  induction t generalizing c with
  | nil => simp [descend]
  | node v l r ihl ihr =>
    have hl := Nat.le_max_left l.height r.height
    have hr := Nat.le_max_right l.height r.height
    rw [descend, BinaryTree.height]
    split_ifs
    · have := ihl (⟨.left, v, r⟩ :: c)
      simp only [List.length_cons] at this
      omega
    · have := ihr (⟨.right, v, l⟩ :: c)
      simp only [List.length_cons] at this
      omega

theorem steady_insertValue (cells : Cells) (temp node sentinel : Ptr) :
    Steady fun fuel ↦ insertValue fuel cells temp node sentinel := by
  intro fuel
  induction fuel generalizing cells temp with
  | zero => exact .timeout _
  | succ fuel ih =>
    refine .bind_right _ fun n ↦ .bind_right _ fun t ↦ .ite (.refl _) (ih _ _)

theorem steady_repair (s : State) (node sentinel : Ptr) :
    Steady fun fuel ↦ repair fuel s node sentinel := by
  intro fuel
  induction fuel generalizing s node with
  | zero => exact .timeout _
  | succ fuel ih =>
    refine .bind_right _ fun p ↦ .ite (.refl _) (.bind_right _ fun pc ↦ .ite (.refl _) ?_)
    refine .bind_right _ fun u ↦ .bind_right _ fun uc ↦ .ite ?_ (.refl _)
    refine .bind_right _ fun s ↦ .bind_right _ fun v ↦ .bind_right _ fun s ↦ ?_
    exact .bind_right _ fun g ↦ .bind_right _ fun s ↦ ih s g

theorem steady_insert (s : State) (node : Ptr) (hins : s.insert = insertValue) :
    Steady fun fuel ↦ insert fuel s node := by
  intro fuel
  simp only [insert, hins]
  refine .ite (.refl _) (.bind (steady_insertValue _ _ _ _ fuel) fun cells ↦ ?_)
  exact steady_repair _ _ _ fuel

theorem insert_empty (fuel : Nat) {x : Addr} {k : Int} (h : Holds s .nil)
    (hk : (s.cells x).data.key = k) (hxs : some x ≠ s.sentinel) :
    ∃ s', insert fuel s (some x) = .ok s' ∧ Holds s' (.node (x, ⟨k, .black⟩) .nil .nil) ∧
      Keeps (.node (x, ⟨k, .black⟩) .nil .nil) s s' := by
  have hroot : s.root = s.sentinel := by simpa using h.rep
  obtain ⟨z, hz, hblack⟩ := h.sentinel
  have hzx : z ≠ x := fun e ↦ hxs (e ▸ hz.symm)
  let s' := ((((s.upd x (·.setParent none)).upd x (·.setChild .left s.sentinel)).upd x
    (·.setChild .right s.sentinel)).paint x .black).setRoot (some x)
  have hrun : insert fuel s (some x) = .ok s' := by simp [insert, hroot, s']
  refine ⟨s', hrun, ⟨?_, ?_, z, hz, ?_⟩, rfl, rfl, fun b hb ↦ ?_⟩
  · simp [s', rep_node, State.setRoot, State.paint, hxs, hk, Cell.setChild, Cell.setParent, Cell.mapData]
  · simp [addrs]
  · simpa [s', State.setRoot, State.paint, hzx] using hblack
  · have hbx : b ≠ x := by simpa using hb
    simp [s', State.setRoot, State.paint, hbx]


/-- The colour discipline leaves room for a red leaf at the end of every search path. -/
theorem hole_descend {n : Nat} (h : Balanced IsRed T false n) (k : Int) :
    ∃ b, Hole IsRed (descend k T []) b 0 := by
  rw [← plug_nil T, ← plug_descend k T [], ] at h
  obtain ⟨c, b, m, hnil, hole, -⟩ := hole_of_plug h
  obtain ⟨-, rfl⟩ := balanced_nil_iff.mp hnil
  exact ⟨b, hole⟩

/-- `dl_rbtree_insert` links the node in and keeps the tree a red-black tree, unless the conflict
it causes ends in a right child under a left child. -/
theorem insert_spec (fuel : Nat) {L : List (Addr × Int)} {x : Addr} {k : Int}
    (h : IsRbtree s L T) (hins : s.insert = insertValue) (hk : (s.cells x).data.key = k)
    (hx : x ∉ addrs T) (hxs : some x ≠ s.sentinel) (hfuel : T.height < fuel)
    (hbend : bendsLeftRight (descend k T []) = false) (hstray : NoStray s T)
    (hstrayx : ∀ z d, s.sentinel = some z → (s.cells z).child d ≠ some x) :
    ∃ s' T', insert fuel s (some x) = .ok s' ∧ IsRbtree s' ((x, k) :: L) T' ∧
      s'.sentinel = s.sentinel ∧ s'.insert = s.insert ∧
      ∀ b ∉ addrs T, b ≠ x → s'.cells b = s.cells b := by
  obtain ⟨n, hbal⟩ := redBlack_iff.mp h.redBlack
  by_cases hT : T = .nil
  · subst hT
    obtain ⟨s', hrun, h', hkeep⟩ := insert_empty fuel h.holds hk hxs
    refine ⟨s', _, hrun, ⟨h', ?_, by simp [Ordered], redBlack_iff.mpr ⟨1, ?_⟩⟩, hkeep.sentinel,
      hkeep.insert, fun b _ hb ↦ hkeep.cells b (by simpa using hb)⟩
    · have hL : L = [] := by simpa using h.nodes.symm
      simp [hL]
    · exact .black nofun .nil .nil
  have hroot : s.root = ptr s.sentinel T := h.holds.rep.eq_ptr
  have hne : s.root ≠ s.sentinel := fun e ↦ hT (h.holds.rep.eq_nil_iff.mpr e)
  obtain ⟨cells, hrun₁, h₁, hcells⟩ := insertValue_spec (c := []) hk hxs hT h.holds hx
    (Nat.le_of_lt hfuel)
  obtain ⟨b, hole⟩ := hole_descend hbal k
  have hmem : ∀ a ∈ addrs (plug (descend k T []) (.node (x, ⟨k, .red⟩) .nil .nil)),
      a ∈ addrs T ∨ a = x := by
    intro a ha
    rw [mem_addrs_plug] at ha
    rcases ha with ha | ha
    · left
      rw [← plug_nil T, ← plug_descend k T [], mem_addrs_plug]
      exact .inl ha
    · exact .inr (by simpa using ha)
  have hstray₁ : NoStray { s with cells } (plug (descend k T [])
      (.node (x, ⟨k, .red⟩) .nil .nil)) := by
    intro z d a hz hza ha
    have hzT : z ∉ addrs T := fun hzT ↦ h.holds.rep.ne_nil z hzT hz.symm
    have hzx : z ≠ x := fun e ↦ hxs (e ▸ hz.symm)
    change (cells z).child d = some a at hza
    rw [hcells z hzT hzx] at hza
    rcases hmem a ha with ha | rfl
    · exact hstray z d a hz hza ha
    · exact hstrayx z d hz hza
  have hlen := length_descend k T []
  simp only [List.length_nil] at hlen
  obtain ⟨s', T', hrun₂, hkeep, h', hid, m, hbal'⟩ := repair_spec fuel h₁ (.red rfl .nil .nil) hole
    (by omega) hbend hstray₁
  obtain ⟨A, B, hAB, hplug, hord⟩ := idents_descend k T [] (.node (x, ⟨k, .red⟩) .nil .nil)
  have hid' : idents T' = A ++ (x, k) :: B := by
    rw [hid, hplug]
    simp [before, after]
  have hsorted := h.ordered
  rw [Ordered, hAB, List.pairwise_append] at hsorted
  obtain ⟨hA, hB⟩ := hord h.ordered
  refine ⟨s', T', ?_, ⟨h', ?_, ?_, redBlack_iff.mpr ⟨m, hbal'⟩⟩, hkeep.sentinel, hkeep.insert, ?_⟩
  · simp only [insert, if_neg hne, hins]
    rw [hroot, hrun₁]
    exact hrun₂
  · rw [hid']
    exact List.perm_middle.trans (.cons _ (hAB ▸ h.nodes))
  · rw [Ordered, hid', List.pairwise_append, List.pairwise_cons]
    refine ⟨hsorted.1, ⟨fun i hi ↦ Int.le_of_lt (hB i hi), hsorted.2.1⟩, fun i hi j hj ↦ ?_⟩
    rcases List.mem_cons.mp hj with rfl | hj
    · exact hA i hi
    · exact hsorted.2.2 i hi j hj
  · intro b hbT hbx
    rw [hkeep.cells b fun hb ↦ (hmem b hb).elim hbT hbx]
    exact hcells b hbT hbx

end Dlbase.Rbtree
