import Dlbase.Lib.Exec
import Dlbase.Lib.Zipper

/-!
# Linked binary trees in memory

A memory of cells with two child links, a parent link and some data, and the
relation between such a memory and the binary tree it holds.  Pointers are
`Option A`, with `none` for the null pointer; reading or writing through it is
undefined.

The empty tree is represented by the pointer `nil`, which is the null pointer in
some structures and the address of a sentinel cell in others.  What a cell's
parent link has to be is a parameter too: `Rep` asks for `P actual expected`,
which is equality in a structure that keeps its parent links exact.
-/

namespace Cmem

open BinaryTree

variable {A : Type _} {δ : Type _}

/-- A cell of a linked binary tree. -/
structure Cell (A : Type _) (δ : Type _) where
  /-- The left child link. -/
  left : Option A
  /-- The right child link. -/
  right : Option A
  /-- The parent link. -/
  parent : Option A
  /-- What the cell stores. -/
  data : δ
deriving DecidableEq, Repr

/-- A memory of cells. -/
abbrev Heap (A : Type _) (δ : Type _) := A → Cell A δ

namespace Cell

/-- The child link on the side `s`. -/
def child (c : Cell A δ) : Side → Option A
  | .left => c.left
  | .right => c.right

/-- Replaces the child link on the side `s`. -/
def setChild (c : Cell A δ) (s : Side) (q : Option A) : Cell A δ :=
  match s with
  | .left => { c with left := q }
  | .right => { c with right := q }

/-- Replaces the parent link. -/
def setParent (c : Cell A δ) (q : Option A) : Cell A δ := { c with parent := q }

/-- Changes the data. -/
def mapData (c : Cell A δ) (f : δ → δ) : Cell A δ := { c with data := f c.data }

@[simp] theorem child_left (c : Cell A δ) : c.child .left = c.left := rfl

@[simp] theorem child_right (c : Cell A δ) : c.child .right = c.right := rfl

@[simp] theorem child_setChild_self (c : Cell A δ) (s : Side) (q : Option A) :
    (c.setChild s q).child s = q := by cases s <;> rfl

@[simp] theorem child_setChild_other (c : Cell A δ) (s : Side) (q : Option A) :
    (c.setChild s q).child s.other = c.child s.other := by cases s <;> rfl

@[simp] theorem child_other_setChild (c : Cell A δ) (s : Side) (q : Option A) :
    (c.setChild s.other q).child s = c.child s := by cases s <;> rfl

@[simp] theorem setChild_setChild (c : Cell A δ) (s : Side) (q q' : Option A) :
    (c.setChild s q).setChild s q' = c.setChild s q' := by cases s <;> rfl

@[simp] theorem parent_setChild (c : Cell A δ) (s : Side) (q : Option A) :
    (c.setChild s q).parent = c.parent := by cases s <;> rfl

@[simp] theorem data_setChild (c : Cell A δ) (s : Side) (q : Option A) :
    (c.setChild s q).data = c.data := by cases s <;> rfl

@[simp] theorem child_setParent (c : Cell A δ) (s : Side) (q : Option A) :
    (c.setParent q).child s = c.child s := by cases s <;> rfl

@[simp] theorem parent_setParent (c : Cell A δ) (q : Option A) :
    (c.setParent q).parent = q := rfl

@[simp] theorem data_setParent (c : Cell A δ) (q : Option A) :
    (c.setParent q).data = c.data := rfl

@[simp] theorem child_mapData (c : Cell A δ) (s : Side) (f : δ → δ) :
    (c.mapData f).child s = c.child s := by cases s <;> rfl

@[simp] theorem parent_mapData (c : Cell A δ) (f : δ → δ) :
    (c.mapData f).parent = c.parent := rfl

@[simp] theorem data_mapData (c : Cell A δ) (f : δ → δ) :
    (c.mapData f).data = f c.data := rfl

end Cell

namespace Heap

variable [DecidableEq A]

/-- The memory with the cell at `a` changed by `f`. -/
def upd (h : Heap A δ) (a : A) (f : Cell A δ → Cell A δ) : Heap A δ :=
  fun b ↦ if b = a then f (h b) else h b

@[simp] theorem upd_same (h : Heap A δ) (a : A) (f : Cell A δ → Cell A δ) :
    h.upd a f a = f (h a) := by simp [upd]

@[simp] theorem upd_of_ne (h : Heap A δ) {a b : A} (f : Cell A δ → Cell A δ) (hb : b ≠ a) :
    h.upd a f b = h b := by simp [upd, hb]

/-- Changing a cell leaves every set of other cells as it was. -/
theorem upd_eq_on (h : Heap A δ) (f : Cell A δ → Cell A δ) {a : A} {L : List A} (ha : a ∉ L) :
    ∀ b ∈ L, h.upd a f b = h b := by
  intro b hb
  refine upd_of_ne h f ?_
  rintro rfl
  exact ha hb

/-- Reads the cell a pointer refers to. -/
def load (h : Heap A δ) : Option A → Exec (Cell A δ)
  | none => Exec.undef
  | some a => .ok (h a)

/-- Changes the cell a pointer refers to. -/
def store (h : Heap A δ) (p : Option A) (f : Cell A δ → Cell A δ) : Exec (Heap A δ) :=
  match p with
  | none => Exec.undef
  | some a => .ok (h.upd a f)

omit [DecidableEq A] in
@[simp] theorem load_some (h : Heap A δ) (a : A) : h.load (some a) = .ok (h a) := rfl

omit [DecidableEq A] in
@[simp] theorem load_none (h : Heap A δ) : h.load none = Exec.undef := rfl

@[simp] theorem store_some (h : Heap A δ) (a : A) (f : Cell A δ → Cell A δ) :
    h.store (some a) f = .ok (h.upd a f) := rfl

@[simp] theorem store_none (h : Heap A δ) (f : Cell A δ → Cell A δ) :
    h.store none f = Exec.undef := rfl

end Heap

/-! ## The tree a memory holds -/

/-- The addresses of the cells of a tree. -/
def addrs (t : BinaryTree (A × δ)) : List A := (inorder t).map Prod.fst

@[simp] theorem addrs_nil : addrs (.nil : BinaryTree (A × δ)) = [] := rfl

@[simp] theorem mem_addrs_node {a b : A} {d : δ} {l r : BinaryTree (A × δ)} :
    b ∈ addrs (.node (a, d) l r) ↔ b ∈ addrs l ∨ b = a ∨ b ∈ addrs r := by
  simp [addrs]

@[simp] theorem mem_addrs_sideNode {s : Side} {a b : A} {d : δ} {x y : BinaryTree (A × δ)} :
    b ∈ addrs (sideNode s (a, d) x y) ↔ b = a ∨ b ∈ addrs x ∨ b ∈ addrs y := by
  cases s <;> simp only [sideNode, mem_addrs_node] <;> tauto

@[simp] theorem mem_addrs_fill {f : Frame (A × δ)} {b : A} {t : BinaryTree (A × δ)} :
    b ∈ addrs (f.fill t) ↔ b = f.val.1 ∨ b ∈ addrs t ∨ b ∈ addrs f.sib := mem_addrs_sideNode

theorem nodup_addrs_sideNode {s : Side} {a : A} {d : δ} {x y : BinaryTree (A × δ)} :
    (addrs (sideNode s (a, d) x y)).Nodup ↔
      a ∉ addrs x ∧ a ∉ addrs y ∧ (addrs x).Nodup ∧ (addrs y).Nodup ∧
        ∀ b ∈ addrs x, b ∉ addrs y := by
  have hnode : ∀ l r : BinaryTree (A × δ), (addrs (.node (a, d) l r)).Nodup ↔
      a ∉ addrs l ∧ a ∉ addrs r ∧ (addrs l).Nodup ∧ (addrs r).Nodup ∧
        ∀ b ∈ addrs l, b ∉ addrs r := by
    intro l r
    rw [addrs, inorder_node, List.map_append, List.map_cons, List.perm_middle.nodup_iff,
      List.nodup_cons, List.nodup_append, List.mem_append]
    simp only [addrs]
    grind
  cases s with
  | left => exact hnode x y
  | right =>
    rw [sideNode_right, hnode]
    grind

/-- The addresses of the cells of a context. -/
def ctxAddrs (c : Ctx (A × δ)) : List A := (ctxVals c).map Prod.fst

@[simp] theorem ctxAddrs_nil : ctxAddrs ([] : Ctx (A × δ)) = [] := rfl

@[simp] theorem mem_ctxAddrs_cons {f : Frame (A × δ)} {c : Ctx (A × δ)} {b : A} :
    b ∈ ctxAddrs (f :: c) ↔ b = f.val.1 ∨ b ∈ addrs f.sib ∨ b ∈ ctxAddrs c := by
  simp [ctxAddrs, ctxVals, addrs]

theorem nodup_ctxAddrs_cons {f : Frame (A × δ)} {c : Ctx (A × δ)} :
    (ctxAddrs (f :: c)).Nodup ↔
      f.val.1 ∉ addrs f.sib ∧ f.val.1 ∉ ctxAddrs c ∧ (addrs f.sib).Nodup ∧
        (ctxAddrs c).Nodup ∧ ∀ b ∈ addrs f.sib, b ∉ ctxAddrs c := by
  simp only [ctxAddrs, ctxVals, List.map_append, List.map_cons, List.cons_append,
    List.nodup_cons, List.mem_append, List.nodup_append, addrs]
  grind

/-- The cell the focus hangs under, as a pointer. -/
def ctxParent : Ctx (A × δ) → Option A
  | [] => none
  | f :: _ => some f.val.1

@[simp] theorem ctxParent_nil : ctxParent ([] : Ctx (A × δ)) = none := rfl

@[simp] theorem ctxParent_cons (f : Frame (A × δ)) (c : Ctx (A × δ)) :
    ctxParent (f :: c) = some f.val.1 := rfl

section Rep

variable (nil : Option A) (P : Option A → Option A → Prop)

/-- `Rep nil P h par p t`: the pointer `p`, hanging under `par`, is the root of
the tree `t` in the memory `h`. -/
def Rep (h : Heap A δ) : Option A → Option A → BinaryTree (A × δ) → Prop
  | _, p, .nil => p = nil
  | par, p, .node (a, d) l r =>
    p = some a ∧ p ≠ nil ∧ (h a).data = d ∧ P (h a).parent par ∧
      Rep h (some a) (h a).left l ∧ Rep h (some a) (h a).right r

/-- `CtxRep nil P h root c p`: hanging `p` into the hole of the context `c` gives
a tree whose root pointer is `root`. -/
def CtxRep (h : Heap A δ) (root : Option A) : Ctx (A × δ) → Option A → Prop
  | [], p => root = p
  | f :: c, p =>
    some f.val.1 ≠ nil ∧ (h f.val.1).child f.side = p ∧ (h f.val.1).data = f.val.2 ∧
      P (h f.val.1).parent (ctxParent c) ∧
      Rep nil P h (some f.val.1) ((h f.val.1).child f.side.other) f.sib ∧
      CtxRep h root c (some f.val.1)

variable {nil P} {h h' : Heap A δ} {root p par : Option A}

@[simp] theorem rep_nil : Rep nil P h par p .nil ↔ p = nil := by rw [Rep]

theorem rep_node {a : A} {d : δ} {l r : BinaryTree (A × δ)} :
    Rep nil P h par p (.node (a, d) l r) ↔
      p = some a ∧ p ≠ nil ∧ (h a).data = d ∧ P (h a).parent par ∧
        Rep nil P h (some a) (h a).left l ∧ Rep nil P h (some a) (h a).right r := by
  rw [Rep]

/-- The representation of a node read from either side. -/
theorem rep_sideNode {s : Side} {a : A} {d : δ} {x y : BinaryTree (A × δ)} :
    Rep nil P h par p (sideNode s (a, d) x y) ↔
      p = some a ∧ p ≠ nil ∧ (h a).data = d ∧ P (h a).parent par ∧
        Rep nil P h (some a) ((h a).child s) x ∧
        Rep nil P h (some a) ((h a).child s.other) y := by
  cases s
  · exact rep_node
  · rw [sideNode_right, rep_node]
    simp only [Cell.child_right, Side.other_right, Cell.child_left]
    tauto

@[simp] theorem ctxRep_nil : CtxRep nil P h root [] p ↔ root = p := by rw [CtxRep]

theorem ctxRep_cons {f : Frame (A × δ)} {c : Ctx (A × δ)} :
    CtxRep nil P h root (f :: c) p ↔
      some f.val.1 ≠ nil ∧ (h f.val.1).child f.side = p ∧ (h f.val.1).data = f.val.2 ∧
        P (h f.val.1).parent (ctxParent c) ∧
        Rep nil P h (some f.val.1) ((h f.val.1).child f.side.other) f.sib ∧
        CtxRep nil P h root c (some f.val.1) := by
  rw [CtxRep]

/-- A representation only depends on the cells of its tree. -/
theorem Rep.congr {t : BinaryTree (A × δ)} (hr : Rep nil P h par p t)
    (heq : ∀ a ∈ addrs t, h' a = h a) : Rep nil P h' par p t := by
  induction t generalizing par p with
  | nil => exact hr
  | node v l r ihl ihr =>
    obtain ⟨a, d⟩ := v
    obtain ⟨hp, hn, hd, hpar, hl, hr⟩ := hr
    have ha : h' a = h a := heq a (by simp)
    refine ⟨hp, hn, by rw [ha]; exact hd, by rw [ha]; exact hpar, ?_, ?_⟩
    · rw [ha]; exact ihl hl fun b hb ↦ heq b (by simp [hb])
    · rw [ha]; exact ihr hr fun b hb ↦ heq b (by simp [hb])

/-- The representation of a context only depends on the cells of the context. -/
theorem CtxRep.congr {c : Ctx (A × δ)} (hc : CtxRep nil P h root c p)
    (heq : ∀ a ∈ ctxAddrs c, h' a = h a) : CtxRep nil P h' root c p := by
  induction c generalizing p with
  | nil => exact hc
  | cons f c ih =>
    obtain ⟨hn, hchild, hd, hpar, hsib, hc⟩ := hc
    have ha : h' f.val.1 = h f.val.1 := heq _ (by simp)
    refine ⟨hn, by rw [ha]; exact hchild, by rw [ha]; exact hd, by rw [ha]; exact hpar, ?_, ?_⟩
    · rw [ha]; exact hsib.congr fun b hb ↦ heq b (by simp [hb])
    · exact ih hc fun b hb ↦ heq b (by simp [hb])

/-- The policy for parent links may be changed where it matters: for the children of the cells
of the tree, and for its root. -/
theorem Rep.imp {Q : Option A → Option A → Prop} {t : BinaryTree (A × δ)}
    (hr : Rep nil P h par p t)
    (hPQ : ∀ act exp, (exp = par ∨ ∃ a ∈ addrs t, exp = some a) → P act exp → Q act exp) :
    Rep nil Q h par p t := by
  induction t generalizing par p with
  | nil => exact hr
  | node v l r ihl ihr =>
    obtain ⟨a, d⟩ := v
    obtain ⟨hp, hn, hd, hpar, hl, hr⟩ := hr
    refine ⟨hp, hn, hd, hPQ _ _ (.inl rfl) hpar, ihl hl fun act exp hexp ↦ hPQ act exp (.inr ?_),
      ihr hr fun act exp hexp ↦ hPQ act exp (.inr ?_)⟩
    · rcases hexp with rfl | ⟨b, hb, rfl⟩
      · exact ⟨a, by simp, rfl⟩
      · exact ⟨b, by simp [hb], rfl⟩
    · rcases hexp with rfl | ⟨b, hb, rfl⟩
      · exact ⟨a, by simp, rfl⟩
      · exact ⟨b, by simp [hb], rfl⟩

theorem CtxRep.imp {Q : Option A → Option A → Prop} {c : Ctx (A × δ)}
    (hc : CtxRep nil P h root c p)
    (hPQ : ∀ act exp, (exp = none ∨ ∃ a ∈ ctxAddrs c, exp = some a) → P act exp → Q act exp) :
    CtxRep nil Q h root c p := by
  induction c generalizing p with
  | nil => exact hc
  | cons f c ih =>
    obtain ⟨hn, hchild, hd, hpar, hsib, hc⟩ := hc
    have hup : ∀ act exp, (exp = none ∨ ∃ a ∈ ctxAddrs c, exp = some a) → P act exp → Q act exp :=
      fun act exp hexp ↦ hPQ act exp (hexp.imp_right fun ⟨a, ha, he⟩ ↦ ⟨a, by simp [ha], he⟩)
    refine ⟨hn, hchild, hd, hup _ _ ?_ hpar, hsib.imp fun act exp hexp ↦ hPQ act exp (.inr ?_),
      ih hc hup⟩
    · cases c with
      | nil => exact .inl rfl
      | cons g c => exact .inr ⟨g.val.1, by simp, rfl⟩
    · rcases hexp with rfl | ⟨b, hb, rfl⟩
      · exact ⟨_, by simp, rfl⟩
      · exact ⟨b, by simp [hb], rfl⟩

/-- The root of a tree around a proper context is a cell of the context. -/
theorem CtxRep.root_mem {f : Frame (A × δ)} {c : Ctx (A × δ)}
    (hc : CtxRep nil P h root (f :: c) p) : ∃ a ∈ ctxAddrs (f :: c), root = some a := by
  induction c generalizing f p with
  | nil =>
    obtain ⟨-, -, -, -, -, hc⟩ := hc
    exact ⟨_, by simp, ctxRep_nil.mp hc⟩
  | cons g c ih =>
    obtain ⟨-, -, -, -, -, hc⟩ := hc
    obtain ⟨a, ha, hroot⟩ := ih hc
    exact ⟨a, mem_ctxAddrs_cons.mpr (.inr (.inr ha)), hroot⟩

/-- The child links of a represented tree lead to its cells or are empty. -/
theorem Rep.child_mem {t : BinaryTree (A × δ)} (hr : Rep nil P h par p t) :
    ∀ a ∈ addrs t, ∀ s, (h a).child s = nil ∨ ∃ b ∈ addrs t, (h a).child s = some b := by
  induction t generalizing par p with
  | nil => simp
  | node v l r ihl ihr =>
    obtain ⟨c, d⟩ := v
    obtain ⟨-, -, -, -, hl, hr⟩ := hr
    intro a ha s
    rcases mem_addrs_node.mp ha with ha | rfl | ha
    · exact (ihl hl a ha s).imp_right fun ⟨b, hb, he⟩ ↦ ⟨b, by simp [hb], he⟩
    · cases s with
      | left =>
        cases l with
        | nil => exact .inl hl
        | node w u u' => exact .inr ⟨w.1, by simp [addrs], hl.1⟩
      | right =>
        cases r with
        | nil => exact .inl hr
        | node w u u' => exact .inr ⟨w.1, by simp [addrs], hr.1⟩
    · exact (ihr hr a ha s).imp_right fun ⟨b, hb, he⟩ ↦ ⟨b, by simp [hb], he⟩

/-- Where parent links are exact, each is the inverse of a child link. -/
theorem Rep.parent_child {t : BinaryTree (A × δ)} (hr : Rep nil (· = ·) h par p t) :
    ∀ a ∈ addrs t, ∀ s b, (h a).child s = some b → some b ≠ nil → (h b).parent = some a := by
  induction t generalizing par p with
  | nil => simp
  | node v l r ihl ihr =>
    obtain ⟨c, d⟩ := v
    obtain ⟨-, -, -, -, hl, hr⟩ := hr
    have hroot : ∀ {q : Option A} {u : BinaryTree (A × δ)} {b : A},
        Rep nil (· = ·) h (some c) q u → q = some b → some b ≠ nil → (h b).parent = some c := by
      intro q u b hu hq hb
      cases u with
      | nil => exact absurd (hq.symm.trans hu) hb
      | node w x y =>
        obtain ⟨rfl, -, -, hpar, -⟩ := hu
        rwa [Option.some.inj hq] at hpar
    intro a ha s b hab hb
    rcases mem_addrs_node.mp ha with ha | rfl | ha
    · exact ihl hl a ha s b hab hb
    · cases s with
      | left => exact hroot hl hab hb
      | right => exact hroot hr hab hb
    · exact ihr hr a ha s b hab hb

/-- Where parent links are exact, they lead to `par` or to cells of the tree. -/
theorem Rep.parent_mem {t : BinaryTree (A × δ)} (hr : Rep nil (· = ·) h par p t) :
    ∀ a ∈ addrs t, (h a).parent = par ∨ ∃ b ∈ addrs t, (h a).parent = some b := by
  induction t generalizing par p with
  | nil => simp
  | node v l r ihl ihr =>
    obtain ⟨c, d⟩ := v
    obtain ⟨-, -, -, hpar, hl, hr⟩ := hr
    intro a ha
    rcases mem_addrs_node.mp ha with ha | rfl | ha
    · right
      rcases ihl hl a ha with he | ⟨b, hb, he⟩
      · exact ⟨c, by simp, he⟩
      · exact ⟨b, by simp [hb], he⟩
    · exact .inl hpar
    · right
      rcases ihr hr a ha with he | ⟨b, hb, he⟩
      · exact ⟨c, by simp, he⟩
      · exact ⟨b, by simp [hb], he⟩

/-- Storing `q` in the link the hole stands for fills the hole with `q`. -/
theorem CtxRep.refill [DecidableEq A] {f : Frame (A × δ)} {c : Ctx (A × δ)} (q : Option A)
    (hc : CtxRep nil P h root (f :: c) p) (hnd : (ctxAddrs (f :: c)).Nodup) :
    CtxRep nil P (h.upd f.val.1 (·.setChild f.side q)) root (f :: c) q := by
  obtain ⟨hn, hchild, hd, hpar, hsib, hc⟩ := ctxRep_cons.mp hc
  obtain ⟨hasib, hac, -⟩ := nodup_ctxAddrs_cons.mp hnd
  refine ctxRep_cons.mpr ⟨hn, by simp, by simpa using hd, by simpa using hpar, ?_, ?_⟩
  · simpa using hsib.congr (h.upd_eq_on _ hasib)
  · exact hc.congr (h.upd_eq_on _ hac)

/-- The parent link of the root of a tree around a proper context can be set to whatever the
policy allows for a root. -/
theorem CtxRep.upd_root [DecidableEq A] {f : Frame (A × δ)} {c : Ctx (A × δ)} {b : A}
    {q : Option A} (hc : CtxRep nil P h (some b) (f :: c) p) (hnd : (ctxAddrs (f :: c)).Nodup)
    (hP : P q none) : CtxRep nil P (h.upd b (·.setParent q)) (some b) (f :: c) p := by
  induction c generalizing f p with
  | nil =>
    obtain ⟨hn, hchild, hd, -, hsib, hc⟩ := ctxRep_cons.mp hc
    obtain rfl : b = f.val.1 := Option.some.inj (ctxRep_nil.mp hc)
    obtain ⟨hfsib, -⟩ := nodup_ctxAddrs_cons.mp hnd
    refine ctxRep_cons.mpr ⟨hn, by simpa using hchild, by simpa using hd, by simpa using hP, ?_,
      ctxRep_nil.mpr rfl⟩
    simpa using hsib.congr (h.upd_eq_on (·.setParent q) hfsib)
  | cons g c ih =>
    obtain ⟨hn, hchild, hd, hpar, hsib, hc⟩ := ctxRep_cons.mp hc
    obtain ⟨-, hfc, -, hndc, hdisj⟩ := nodup_ctxAddrs_cons.mp hnd
    obtain ⟨b', hb, he⟩ := hc.root_mem
    obtain rfl : b = b' := Option.some.inj he
    have hfb : f.val.1 ≠ b := fun e ↦ hfc (e ▸ hb)
    rw [ctxRep_cons, Heap.upd_of_ne _ _ hfb]
    refine ⟨hn, hchild, hd, hpar, ?_, ih hc hndc⟩
    exact hsib.congr (h.upd_eq_on _ fun hbs ↦ hdisj b hbs hb)

/-- The root pointer of a represented tree determines whether it is empty. -/
theorem Rep.eq_nil_iff {t : BinaryTree (A × δ)} (hr : Rep nil P h par p t) :
    t = .nil ↔ p = nil := by
  cases t with
  | nil => simpa using hr
  | node v l r => simpa using hr.2.1

/-- A represented tree with a proper root is a node. -/
theorem Rep.exists_node {t : BinaryTree (A × δ)} (hr : Rep nil P h par p t) (hp : p ≠ nil) :
    ∃ a d l r, t = .node (a, d) l r ∧ p = some a := by
  cases t with
  | nil => exact absurd hr hp
  | node v l r => exact ⟨v.1, v.2, l, r, rfl, hr.1⟩

/-- The cells of a represented tree are not the empty tree's. -/
theorem Rep.ne_nil {t : BinaryTree (A × δ)} (hr : Rep nil P h par p t) :
    ∀ a ∈ addrs t, some a ≠ nil := by
  induction t generalizing par p with
  | nil => simp
  | node v l r ihl ihr =>
    obtain ⟨b, d⟩ := v
    obtain ⟨hp, hn, -, -, hl, hr⟩ := hr
    intro a ha
    rcases mem_addrs_node.mp ha with ha | rfl | ha
    · exact ihl hl a ha
    · rwa [hp] at hn
    · exact ihr hr a ha

/-- A memory and a root pointer determine the tree. -/
theorem Rep.unique {Q : Option A → Option A → Prop} {t t' : BinaryTree (A × δ)} {par' : Option A}
    (hr : Rep nil P h par p t) (hr' : Rep nil Q h par' p t') : t = t' := by
  induction t generalizing par par' p t' with
  | nil => exact (hr'.eq_nil_iff.mpr hr).symm
  | node v l r ihl ihr =>
    obtain ⟨a, d⟩ := v
    obtain ⟨rfl, hn, hd, -, hl, hr⟩ := hr
    obtain ⟨a', d', l', r', rfl, ha⟩ := hr'.exists_node hn
    obtain rfl := Option.some.inj ha
    obtain ⟨-, -, hd', -, hl', hr'⟩ := hr'
    rw [ihl hl hl', ihr hr hr', hd.symm.trans hd']

/-- The parent link of the root is the only thing a representation says about its `par`. -/
theorem Rep.reparent {t : BinaryTree (A × δ)} (hr : Rep nil P h par p t) {q : Option A}
    (hP : ∀ a, p = some a → p ≠ nil → P (h a).parent q) : Rep nil P h q p t := by
  cases t with
  | nil => exact hr
  | node v l r => exact ⟨hr.1, hr.2.1, hr.2.2.1, hP _ hr.1 hr.2.1, hr.2.2.2.2⟩

/-- Storing a new parent in the root cell of a tree hangs the tree elsewhere. -/
theorem Rep.hang [DecidableEq A] {t : BinaryTree (A × δ)} {a : A} {par' : Option A}
    (hr : Rep nil P h par (some a) t) (hnd : (addrs t).Nodup) (hn : some a ≠ nil)
    (hP : P par' par') :
    Rep nil P (h.upd a (·.setParent par')) par' (some a) t := by
  cases t with
  | nil => exact absurd hr hn
  | node v l r =>
    obtain ⟨b, d⟩ := v
    obtain ⟨hb, -, hd, -, hl, hr⟩ := hr
    obtain rfl : a = b := by simpa using hb
    obtain ⟨hal, har, -⟩ := (nodup_addrs_sideNode (s := .left)).mp hnd
    refine ⟨rfl, hn, by simpa using hd, by simpa using hP, ?_, ?_⟩
    · rw [Heap.upd_same]
      exact hl.congr (h.upd_eq_on (·.setParent par') hal)
    · rw [Heap.upd_same]
      exact hr.congr (h.upd_eq_on (·.setParent par') har)

/-- The root pointer of a tree. -/
def ptr (nil : Option A) : BinaryTree (A × δ) → Option A
  | .nil => nil
  | .node v _ _ => some v.1

@[simp] theorem ptr_nil : ptr nil (.nil : BinaryTree (A × δ)) = nil := rfl

@[simp] theorem ptr_node {v : A × δ} {l r : BinaryTree (A × δ)} :
    ptr nil (.node v l r) = some v.1 := rfl

@[simp] theorem ptr_sideNode {s : Side} {v : A × δ} {x y : BinaryTree (A × δ)} :
    ptr nil (sideNode s v x y) = some v.1 := by cases s <;> rfl

theorem ptr_ne {t : BinaryTree (A × δ)} {a : A} (ha : a ∉ addrs t) (hn : some a ≠ nil) :
    ptr nil t ≠ some a := by
  cases t with
  | nil => exact hn.symm
  | node v l r =>
    obtain ⟨b, d⟩ := v
    rintro ⟨⟩
    simp at ha

theorem Rep.eq_ptr {t : BinaryTree (A × δ)} (hr : Rep nil P h par p t) : p = ptr nil t := by
  cases t with
  | nil => exact hr
  | node v l r => exact hr.1

/-- A representation of a whole tree is one of any of its parts in its context. -/
theorem rep_plug_iff {c : Ctx (A × δ)} {t : BinaryTree (A × δ)} :
    Rep nil P h none root (plug c t) ↔
      CtxRep nil P h root c (ptr nil t) ∧ Rep nil P h (ctxParent c) (ptr nil t) t := by
  induction c generalizing t with
  | nil =>
    simp only [plug_nil, ctxRep_nil, ctxParent_nil]
    exact ⟨fun hr ↦ ⟨hr.eq_ptr, hr.eq_ptr ▸ hr⟩, fun ⟨hp, hr⟩ ↦ hp ▸ hr⟩
  | cons f c ih =>
    obtain ⟨s, ⟨a, d⟩, sib⟩ := f
    rw [plug_cons, ih, Frame.fill, ctxRep_cons, rep_sideNode, ptr_sideNode]
    constructor
    · rintro ⟨hc, -, hn, hd, hpar, ht, hsib⟩
      have hq := ht.eq_ptr
      exact ⟨⟨hn, hq, hd, hpar, hsib, hc⟩, hq ▸ ht⟩
    · rintro ⟨⟨hn, hq, hd, hpar, hsib, hc⟩, ht⟩
      exact ⟨hc, rfl, hn, hd, hpar, hq.symm ▸ ht, hsib⟩

/-- The addresses of a plugged tree are those of its context and of its focus. -/
theorem addrs_plug_perm (c : Ctx (A × δ)) (t : BinaryTree (A × δ)) :
    (addrs (plug c t)).Perm (ctxAddrs c ++ addrs t) := by
  simpa [addrs, ctxAddrs] using (inorder_plug_perm c t).map Prod.fst

theorem mem_addrs_plug {c : Ctx (A × δ)} {t : BinaryTree (A × δ)} {b : A} :
    b ∈ addrs (plug c t) ↔ b ∈ ctxAddrs c ∨ b ∈ addrs t := by
  rw [(addrs_plug_perm c t).mem_iff, List.mem_append]

theorem nodup_addrs_plug {c : Ctx (A × δ)} {t : BinaryTree (A × δ)} :
    (addrs (plug c t)).Nodup ↔
      (ctxAddrs c).Nodup ∧ (addrs t).Nodup ∧ ∀ b ∈ ctxAddrs c, b ∉ addrs t := by
  rw [(addrs_plug_perm c t).nodup_iff, List.nodup_append]
  grind

end Rep

end Cmem
