import Dlbase.Rbtree.Shape

/-!
# What the link operations of the red-black tree do to the tree held in memory

`Holds s T` says that the state `s` holds the tree `T`, with exact parent links.
Each primitive of the model (reading a link or a colour, painting a node,
rotating) is read here as an operation on `T`, written as a focus in a context;
the later modules reason about trees only.
-/

namespace Dlbase.Rbtree

open Cmem BinaryTree

/-- The state holds the tree `T`: child links, keys and colours are those of `T`, every
parent link is the inverse of a child link, the root's is null, and the sentinel is black. -/
structure Holds (s : State) (T : Shape) : Prop where
  /-- The links and data in memory are those of `T`. -/
  rep : Rep s.sentinel (· = ·) s.cells none s.root T
  /-- No node occurs twice. -/
  nodup : (addrs T).Nodup
  /-- The sentinel is a black node. -/
  sentinel : ∃ z, s.sentinel = some z ∧ (s.cells z).data.color = .black

/-- The step from `s` to `s'` leaves the tree's constants and every cell outside `T` alone. -/
structure Keeps (T : Shape) (s s' : State) : Prop where
  /-- The sentinel is the same. -/
  sentinel : s'.sentinel = s.sentinel
  /-- The insertion function is the same. -/
  insert : s'.insert = s.insert
  /-- Cells outside the tree are unchanged. -/
  cells : ∀ b ∉ addrs T, s'.cells b = s.cells b

theorem Keeps.refl (T : Shape) (s : State) : Keeps T s s := ⟨rfl, rfl, fun _ _ ↦ rfl⟩

theorem Keeps.trans {T T' : Shape} {s s' s'' : State} (h : Keeps T s s')
    (h' : Keeps T' s' s'') (hT : ∀ b, b ∈ addrs T' → b ∈ addrs T) : Keeps T s s'' where
  sentinel := h'.sentinel.trans h.sentinel
  insert := h'.insert.trans h.insert
  cells b hb := (h'.cells b fun hb' ↦ hb (hT b hb')).trans (h.cells b hb)

/-- The sentinel lies outside the tree and so stays black. -/
theorem Keeps.sentinel_black {T : Shape} {s s' : State} (h : Keeps T s s') (hT : Holds s T) :
    ∃ z, s'.sentinel = some z ∧ (s'.cells z).data.color = .black := by
  obtain ⟨z, hz, hblack⟩ := hT.sentinel
  refine ⟨z, h.sentinel.trans hz, ?_⟩
  rw [h.cells z fun hzT ↦ hT.rep.ne_nil z hzT hz.symm]
  exact hblack

/-! ## Reading -/

section Read

variable {s : State} {c : Path} {d : Side} {a : Addr} {v : Data} {t x y : Shape}

theorem Holds.focus (h : Holds s (plug c t)) :
    CtxRep s.sentinel (· = ·) s.cells s.root c (ptr s.sentinel t) ∧
      Rep s.sentinel (· = ·) s.cells (ctxParent c) (ptr s.sentinel t) t :=
  rep_plug_iff.mp h.rep

theorem Holds.node (h : Holds s (plug c (sideNode d (a, v) x y))) :
    some a ≠ s.sentinel ∧ (s.cells a).data = v ∧ (s.cells a).parent = ctxParent c ∧
      (s.cells a).child d = ptr s.sentinel x ∧
      (s.cells a).child d.other = ptr s.sentinel y := by
  obtain ⟨-, hn, hd, hp, hx, hy⟩ := rep_sideNode.mp (ptr_sideNode (v := (a, v)) ▸ h.focus.2)
  exact ⟨hn, hd, hp, hx.eq_ptr, hy.eq_ptr⟩

/-- The node in focus and its two subtrees are apart from one another. -/
theorem Holds.disjoint (h : Holds s (plug c (sideNode d (a, v) x y))) :
    a ∉ addrs x ∧ a ∉ addrs y ∧ ∀ b ∈ addrs x, b ∉ addrs y := by
  obtain ⟨hx, hy, -, -, hxy⟩ := nodup_addrs_sideNode.mp (nodup_addrs_plug.mp h.nodup).2.1
  exact ⟨hx, hy, hxy⟩

theorem Holds.parent (h : Holds s (plug c (sideNode d (a, v) x y))) :
    s.parent (some a) = .ok (ctxParent c) := by
  simp [State.parent, h.node.2.2.1]

theorem Holds.child (h : Holds s (plug c (sideNode d (a, v) x y))) :
    s.child d (some a) = .ok (ptr s.sentinel x) := by
  simp [State.child, h.node.2.2.2.1]

theorem Holds.child_other (h : Holds s (plug c (sideNode d (a, v) x y))) :
    s.child d.other (some a) = .ok (ptr s.sentinel y) := by
  simp [State.child, h.node.2.2.2.2]

theorem Holds.color (h : Holds s (plug c t)) :
    s.color (ptr s.sentinel t) = .ok (rootColor t) := by
  cases t with
  | nil =>
    obtain ⟨z, hz, hblack⟩ := h.sentinel
    simp [State.color, hz, hblack]
  | node v l r =>
    obtain ⟨a, v⟩ := v
    have hd := (Holds.node (d := .left) h).2.1
    simp [State.color, hd]

end Read

/-! ## Writing one node -/

namespace State

/-- The state after the node at `a` has been changed by `f`. -/
def upd (s : State) (a : Addr) (f : Cell Addr Data → Cell Addr Data) : State :=
  { s with cells := s.cells.upd a f }

/-- The state after the node at `a` has been given a colour. -/
def paint (s : State) (a : Addr) (col : Color) : State :=
  s.upd a (·.mapData ({ · with color := col }))

variable (s : State) (a : Addr) (f : Cell Addr Data → Cell Addr Data)

@[simp] theorem sentinel_upd : (s.upd a f).sentinel = s.sentinel := rfl

@[simp] theorem root_upd : (s.upd a f).root = s.root := rfl

@[simp] theorem insert_upd : (s.upd a f).insert = s.insert := rfl

@[simp] theorem cells_upd_same : (s.upd a f).cells a = f (s.cells a) := s.cells.upd_same a f

@[simp] theorem cells_upd_of_ne {b : Addr} (hb : b ≠ a) : (s.upd a f).cells b = s.cells b :=
  s.cells.upd_of_ne f hb

theorem cells_upd_eq_on {a : Addr} {L : List Addr} (ha : a ∉ L) :
    ∀ b ∈ L, (s.upd a f).cells b = s.cells b := s.cells.upd_eq_on f ha

@[simp] theorem setChild_some (d : Side) (q : Ptr) :
    s.setChild d (some a) q = .ok (s.upd a (·.setChild d q)) := rfl

@[simp] theorem setParent_some (q : Ptr) :
    s.setParent (some a) q = .ok (s.upd a (·.setParent q)) := rfl

@[simp] theorem setColor_some (col : Color) : s.setColor (some a) col = .ok (s.paint a col) := rfl

@[simp] theorem child_some (d : Side) : s.child d (some a) = .ok ((s.cells a).child d) := rfl

@[simp] theorem parent_some : s.parent (some a) = .ok (s.cells a).parent := rfl

@[simp] theorem color_some : s.color (some a) = .ok (s.cells a).data.color := rfl

@[simp] theorem sentinel_paint (col : Color) : (s.paint a col).sentinel = s.sentinel := rfl

@[simp] theorem child_paint (col : Color) (d : Side) (q : Ptr) :
    (s.paint a col).child d q = s.child d q := by
  cases q with
  | none => rfl
  | some b => by_cases hb : b = a <;> simp [paint, hb]

@[simp] theorem parent_paint (col : Color) (q : Ptr) : (s.paint a col).parent q = s.parent q := by
  cases q with
  | none => rfl
  | some b => by_cases hb : b = a <;> simp [paint, hb]

end State

theorem keeps_upd {s : State} {T : Shape} {a : Addr} (ha : a ∈ addrs T)
    (f : Cell Addr Data → Cell Addr Data) : Keeps T s (s.upd a f) where
  sentinel := rfl
  insert := rfl
  cells _ hb := s.cells_upd_of_ne a f fun hba ↦ hb (hba ▸ ha)

theorem Keeps.paint {s s' : State} {T : Shape} {a : Addr} (h : Keeps T s s') (ha : a ∈ addrs T)
    (col : Color) : Keeps T s (s'.paint a col) :=
  h.trans (keeps_upd ha _) fun _ hb ↦ hb

/-- Painting the node in focus paints it in the tree. -/
theorem rep_paint {P : Ptr → Ptr → Prop} {s : State} {c : Path} {d : Side} {a : Addr} {v : Data}
    {x y : Shape} (h : Rep s.sentinel P s.cells none s.root (plug c (sideNode d (a, v) x y)))
    (hnd : (addrs (plug c (sideNode d (a, v) x y))).Nodup) (col : Color) :
    Rep s.sentinel P (s.paint a col).cells none s.root
      (plug c (sideNode d (a, { v with color := col }) x y)) := by
  obtain ⟨hc, hr⟩ := rep_plug_iff.mp h
  rw [ptr_sideNode] at hc hr
  obtain ⟨-, hn, hd, hp, hx, hy⟩ := rep_sideNode.mp hr
  obtain ⟨hnc, hnt, hdisj⟩ := nodup_addrs_plug.mp hnd
  obtain ⟨hax, hay, -⟩ := nodup_addrs_sideNode.mp hnt
  have hac : a ∉ ctxAddrs c := fun hac ↦ hdisj a hac (by simp)
  refine rep_plug_iff.mpr ⟨?_, ?_⟩
  · rw [ptr_sideNode]
    exact hc.congr (s.cells_upd_eq_on _ hac)
  · rw [ptr_sideNode, rep_sideNode]
    refine ⟨rfl, hn, by simp [State.paint, hd], by simpa [State.paint] using hp, ?_, ?_⟩
    · simp only [State.paint, State.cells_upd_same, Cell.child_mapData]
      exact hx.congr (s.cells_upd_eq_on _ hax)
    · simp only [State.paint, State.cells_upd_same, Cell.child_mapData]
      exact hy.congr (s.cells_upd_eq_on _ hay)

theorem Holds.paint {s : State} {c : Path} {d : Side} {a : Addr} {v : Data} {x y : Shape}
    (h : Holds s (plug c (sideNode d (a, v) x y))) (col : Color) :
    Holds (s.paint a col) (plug c (sideNode d (a, { v with color := col }) x y)) := by
  refine ⟨rep_paint h.rep h.nodup col, ?_, (keeps_upd (by simp [mem_addrs_plug]) _).sentinel_black h⟩
  simpa [nodup_addrs_plug, nodup_addrs_sideNode] using h.nodup

/-! ## Rotating -/

/-- Both rotations at once: `node` goes down on the side `d`. -/
def rotate (d : Side) (s : State) (node sentinel : Ptr) : Exec State := do
  let rn ← s.child d.other node
  let p ← s.parent node
  let s ← s.setChild d.other node (← s.child d rn)
  let s ← s.setChild d rn node
  let s ← s.setParent node rn
  let r ← s.child d.other node
  let s ← hang s r node sentinel
  let s ← relink s p node rn
  s.setParent rn p

theorem leftRotate_eq : leftRotate = rotate .left := rfl

theorem rightRotate_eq : rightRotate = rotate .right := rfl

/-- Hanging `q` where `g` hung fills the hole of the context with `q`. -/
theorem relink_spec {P : Ptr → Ptr → Prop} {s : State} {c : Path} {g : Addr} (q : Ptr)
    (hc : CtxRep s.sentinel P s.cells s.root c (some g)) (hnd : (ctxAddrs c).Nodup)
    (hg : g ∉ ctxAddrs c) (hgs : some g ≠ s.sentinel) :
    ∃ s', relink s (ctxParent c) (some g) q = .ok s' ∧
      CtxRep s.sentinel P s'.cells s'.root c q ∧ s'.sentinel = s.sentinel ∧
      s'.insert = s.insert ∧ ∀ b ∉ ctxAddrs c, s'.cells b = s.cells b := by
  cases c with
  | nil => exact ⟨s.setRoot q, by simp [relink], by simp [State.setRoot], rfl, rfl, fun _ _ ↦ rfl⟩
  | cons f c =>
    obtain ⟨d, ⟨a, v⟩, sib⟩ := f
    have hc' := hc
    obtain ⟨-, hchild, -, -, hsib, -⟩ := ctxRep_cons.mp hc
    simp only [mem_ctxAddrs_cons, not_or] at hg
    have hside : some g = (s.cells a).left ↔ d = .left := by
      rw [eq_comm]
      have hother : (s.cells a).child d.other ≠ some g := by
        rw [hsib.eq_ptr]
        exact ptr_ne hg.2.1 hgs
      cases d
      · simpa using hchild
      · simpa using hother
    refine ⟨s.upd a (·.setChild d q), ?_, ?_, rfl, rfl, ?_⟩
    · cases d <;> simp [relink, hside]
    · exact hc'.refill q hnd
    · intro b hb
      refine s.cells_upd_of_ne _ _ ?_
      rintro rfl
      simp at hb

/-- The guarded store of a parent link hangs a subtree, empty or not, under `par'`. -/
theorem hang_spec {P : Ptr → Ptr → Prop} {s : State} {par p : Ptr} {t : Shape} {q : Ptr}
    (hP : P q q) (hr : Rep s.sentinel P s.cells par p t) (hnd : (addrs t).Nodup) :
    ∃ s', hang s p q s.sentinel = .ok s' ∧
      Rep s.sentinel P s'.cells q p t ∧ s'.toTree = s.toTree ∧
      ∀ b ∉ addrs t, s'.cells b = s.cells b := by
  by_cases hp : p = s.sentinel
  · refine ⟨s, by simp [hang, hp], ?_, rfl, fun _ _ ↦ rfl⟩
    rw [hr.eq_nil_iff.mpr hp]
    simpa using hp
  · obtain ⟨a, v, l, r, rfl, rfl⟩ := hr.exists_node hp
    refine ⟨s.upd a (·.setParent q), by simp [hang, hp], hr.hang hnd hp hP, rfl, ?_⟩
    intro b hb
    refine s.cells_upd_of_ne _ _ ?_
    rintro rfl
    simp at hb

/-- Rotating the subtree at `g` towards `d` brings up its child on the other side. -/
theorem rotate_spec {s : State} {c : Path} {d : Side} {g x : Addr} {vg vx : Data}
    {A B C : Shape}
    (h : Holds s (plug c (sideNode d (g, vg) A (sideNode d (x, vx) B C)))) :
    ∃ s', rotate d s (some g) s.sentinel = .ok s' ∧
      Holds s' (plug c (sideNode d (x, vx) (sideNode d (g, vg) A B) C)) ∧
      Keeps (plug c (sideNode d (g, vg) A (sideNode d (x, vx) B C))) s s' := by
  obtain ⟨hc, hr⟩ := h.focus
  rw [ptr_sideNode] at hc hr
  obtain ⟨-, hgn, hgd, hgp, hA, hX⟩ := rep_sideNode.mp hr
  obtain ⟨hgx, hxn, hxd, hxp, hB, hC⟩ := rep_sideNode.mp hX
  rw [hgx] at hxn
  obtain ⟨hndc, hndt, hdisj⟩ := nodup_addrs_plug.mp h.nodup
  obtain ⟨hgA, hgX, hndA, hndX, hAX⟩ := nodup_addrs_sideNode.mp hndt
  obtain ⟨hxB, hxC, hndB, hndC, hBC⟩ := nodup_addrs_sideNode.mp hndX
  simp only [mem_addrs_sideNode, not_or] at hgX hAX hdisj
  have hBx : Rep s.sentinel (· = ·) s.cells (some x) (ptr s.sentinel B) B := hB.eq_ptr ▸ hB
  -- the links between `g`, `x` and `B` are turned round
  let s₁ := ((s.upd g (·.setChild d.other (ptr s.sentinel B))).upd x
    (·.setChild d (some g))).upd g (·.setParent (some x))
  have hs₁ : ∀ b, b ≠ g → b ≠ x → s₁.cells b = s.cells b := fun b hbg hbx ↦ by
    simp [s₁, hbg, hbx]
  have hagree : ∀ t : Shape, g ∉ addrs t → x ∉ addrs t → ∀ b ∈ addrs t, s₁.cells b = s.cells b :=
    fun t hg hx b hb ↦ hs₁ b (fun hbg ↦ hg (hbg ▸ hb)) (fun hbx ↦ hx (hbx ▸ hb))
  obtain ⟨s₂, hrun₂, hB₂, htree₂, hs₂⟩ := hang_spec (s := s₁) (q := some g) rfl
    (hBx.congr (hagree B hgX.2.1 hxB)) hndB
  -- the pair is hung where `g` was
  have hcells₂ : ∀ b ∈ ctxAddrs c, s₂.cells b = s.cells b := fun b hb ↦ by
    have hbt := hdisj b hb
    rw [hs₂ b (by grind), hs₁ b (by grind) (by grind)]
  obtain ⟨s₃, hrun₃, hc₃, hsent₃, hins₃, hs₃⟩ := relink_spec (s := s₂) (some x)
    (by rw [htree₂]; exact hc.congr hcells₂) hndc (fun hg ↦ (hdisj g hg).1 rfl)
    (by rw [htree₂]; exact hgn)
  have hsent₂ : s₂.sentinel = s.sentinel := congrArg Tree.sentinel htree₂
  have hxc : x ∉ ctxAddrs c := fun hx ↦ (hdisj x hx).2.2.1 rfl
  have hcells₃ : ∀ b, b ∉ ctxAddrs c → b ∉ addrs B → s₃.cells b = s₁.cells b :=
    fun b hbc hbB ↦ (hs₃ b hbc).trans (hs₂ b hbB)
  let s₄ := s₃.upd x (·.setParent (ctxParent c))
  have hsent₄ : s₄.sentinel = s.sentinel := hsent₃.trans hsent₂
  have hg₄ : s₄.cells g = s₁.cells g := by
    rw [State.cells_upd_of_ne _ _ _ hgX.1, hcells₃ g (fun hg ↦ (hdisj g hg).1 rfl) hgX.2.1]
  have hx₄ : s₄.cells x = (s₁.cells x).setParent (ctxParent c) := by
    rw [State.cells_upd_same, hcells₃ x hxc hxB]
  have hold₄ : ∀ b, b ≠ g → b ≠ x → b ∉ ctxAddrs c → b ∉ addrs B → s₄.cells b = s.cells b :=
    fun b hbg hbx hbc hbB ↦ by
      rw [State.cells_upd_of_ne _ _ _ hbx, hcells₃ b hbc hbB, hs₁ b hbg hbx]
  have hsub₄ : ∀ t : Shape, g ∉ addrs t → x ∉ addrs t → (∀ b ∈ addrs t, b ∉ ctxAddrs c) →
      (∀ b ∈ addrs t, b ∉ addrs B) → ∀ b ∈ addrs t, s₄.cells b = s.cells b :=
    fun t hg hx hc hB b hb ↦ hold₄ b (fun h ↦ hg (h ▸ hb)) (fun h ↦ hx (h ▸ hb)) (hc b hb) (hB b hb)
  have hkeeps : Keeps (plug c (sideNode d (g, vg) A (sideNode d (x, vx) B C))) s s₄ :=
    ⟨hsent₄, hins₃.trans (congrArg Tree.insert htree₂), fun b hb ↦ by
      simp only [mem_addrs_plug, mem_addrs_sideNode] at hb
      exact hold₄ b (by grind) (by grind) (by grind) (by grind)⟩
  refine ⟨s₄, ?_, ⟨?_, ?_, ?_⟩, ?_⟩
  · have hr₂ : (s₁.cells g).child d.other = ptr s.sentinel B := by simp [s₁, hgX.1]
    rw [show s₁.sentinel = s.sentinel from rfl] at hrun₂
    simp only [rotate, State.child_some, hgx, State.parent_some, Exec.ok_bind, hgp, hB.eq_ptr,
      State.setChild_some, State.setParent_some]
    change hang s₁ ((s₁.cells g).child d.other) _ _ >>= _ = _
    rw [hr₂, hrun₂, Exec.ok_bind, hrun₃]
    rfl
  · rw [hsent₄]
    refine rep_plug_iff.mpr ⟨?_, ?_⟩
    · rw [ptr_sideNode]
      rw [hsent₂] at hc₃
      exact hc₃.congr (s₃.cells_upd_eq_on _ hxc)
    · rw [ptr_sideNode, rep_sideNode, hx₄]
      refine ⟨rfl, hxn, by simp [s₁, Ne.symm hgX.1, hxd], by simp, ?_, ?_⟩
      · rw [rep_sideNode, hg₄]
        refine ⟨by simp [s₁, Ne.symm hgX.1], by simpa [s₁, Ne.symm hgX.1] using hgn,
          by simp [s₁, hgX.1, hgd], by simp [s₁], ?_, ?_⟩
        · simpa [s₁, hgX.1] using hA.congr (hsub₄ A hgA (by grind) (by grind) (by grind))
        · simpa [s₁, hgX.1] using hB₂.congr fun b hb ↦ (s₃.cells_upd_of_ne x _ (by grind)).trans
            (hs₃ b (by grind))
      · simpa [s₁, Ne.symm hgX.1] using hC.congr (hsub₄ C hgX.2.2 hxC (by grind) (by grind))
  · simp only [nodup_addrs_plug, nodup_addrs_sideNode, mem_addrs_sideNode]
    grind
  · exact hkeeps.sentinel_black h
  · exact hkeeps

/-! ## Relations -/

theorem Holds.sibling {s : State} {c : Path} {d e : Side} {p x : Addr} {vp vx : Data} {w l r : Shape}
    (h : Holds s (plug (⟨d, (p, vp), w⟩ :: c) (sideNode e (x, vx) l r))) :
    sibling s (some x) = .ok (ptr s.sentinel w) := by
  have hP : Holds s (plug c (sideNode d (p, vp) (sideNode e (x, vx) l r) w)) := h
  have hpx := h.parent
  have hchild := hP.child
  have hother := hP.child_other
  have hne : some x ≠ ptr s.sentinel w :=
    (ptr_ne (fun hx ↦ hP.disjoint.2.2 x (by simp) hx) h.node.1).symm
  rw [ctxParent_cons] at hpx
  rw [ptr_sideNode] at hchild
  cases d <;> simp only [Side.other_left, Side.other_right] at hother <;>
    simp [Rbtree.sibling, hpx, hchild, hother, hne, -State.child_some, -State.parent_some]

/-- The state holds a valid red-black tree made up of the nodes `L`, given by address and key. -/
structure IsRbtree (s : State) (L : List (Addr × Int)) (T : Shape) : Prop where
  /-- The links are those of `T`, the parent links included. -/
  holds : Holds s T
  /-- The tree contains exactly these nodes. -/
  nodes : (idents T).Perm L
  /-- The keys do not decrease. -/
  ordered : Ordered T
  /-- The colours are balanced. -/
  redBlack : RedBlack IsRed T


end Dlbase.Rbtree
