import Dlbase.Bstree.DeleteShape
import Dlbase.Bstree.Links

/-!
# AVL deletion in memory

`dl_bstree_delete` makes the memory hold the tree that `deleted` computes, or dereferences a null
pointer if that is `none`.  The parent links of the trees are `Loose`: the rotations of a
deletion clear links that nothing sets again.
-/

namespace Dlbase.Bstree

open Cmem BinaryTree

variable {h h' : Cells} {par p : Ptr} {d e : Side} {a g m x : Addr} {v vg vm : Data}
  {t t' l r A X X' Y M : Shape} {L : List Addr} {run : Exec (Cells × Ptr)} {o : Option Shape} {k : Int}
  {c : Ctx (Addr × Data)}

/-- A parent link is right or null. -/
def Loose (act exp : Ptr) : Prop := act = none ∨ act = exp

theorem loose_self (q : Ptr) : Loose q q := .inr rfl

/-- The memories agree outside `L`, but for the link on the side `d` of the cell `par`. -/
def Apart (par : Ptr) (d : Side) (L : List Addr) (h h' : Cells) : Prop :=
  ∀ b ∉ L, h' b = h b ∨ (par = some b ∧ ∃ q, h' b = (h b).setChild d q)

/-- The run makes the memory hold the given tree below `par`, or it is undefined if there is no
such tree.  It writes to the cells in `L` and the link of `par` on the side `d` only. -/
def Yields (par : Ptr) (d : Side) (h : Cells) (L : List Addr) (run : Exec (Cells × Ptr)) :
    Option Shape → Prop
  | none => run = Exec.undef
  | some t' => ∃ h', run = .ok (h', ptr none t') ∧ Rep none Loose h' par (ptr none t') t' ∧
      Apart par d L h h'

theorem Apart.of_eq (hh : ∀ b ∉ L, h' b = h b) : Apart par d L h h' := fun b hb ↦ .inl (hh b hb)

theorem Apart.trans {h'' : Cells} (h₁ : Apart par d L h h') (h₂ : Apart par d L h' h'') :
    Apart par d L h h'' := by
  intro b hb
  rcases h₁ b hb with h₁ | ⟨hp, q, h₁⟩
  · rw [← h₁]
    exact h₂ b hb
  · refine .inr ⟨hp, ?_⟩
    rcases h₂ b hb with h₂ | ⟨-, q', h₂⟩
    · exact ⟨q, h₂.trans h₁⟩
    · refine ⟨q', ?_⟩
      rw [h₂, h₁, Cell.setChild_setChild]

theorem Yields.after (hh : Apart par d L h h') (hy : Yields par d h' L run o) :
    Yields par d h L run o := by
  cases o with
  | none => exact hy
  | some t' =>
    obtain ⟨h₂, hrun, hr, hh₂⟩ := hy
    exact ⟨h₂, hrun, hr, hh.trans hh₂⟩

theorem Yields.mono {M : List Addr} (hM : ∀ b ∈ M, b ∈ L) (hy : Yields par d h M run o) :
    Yields par d h L run o := by
  cases o with
  | none => exact hy
  | some t' =>
    obtain ⟨h', hrun, hr, hh⟩ := hy
    exact ⟨h', hrun, hr, fun b hb ↦ hh b fun hbM ↦ hb (hM b hbM)⟩

theorem Makes.yields (hm : Makes Loose (fun q ↦ q = par ∨ q = none) h L run t') :
    Yields par d h L run (some t') := by
  obtain ⟨h', q, hrun, hq, hr, hh⟩ := hm
  refine ⟨h', hrun, hr.reparent fun a ha _ ↦ ?_, .of_eq hh⟩
  cases t' with
  | nil => cases ha
  | node w b c =>
    obtain ⟨y, w⟩ := w
    obtain rfl : y = a := Option.some.inj ha
    rcases hq with rfl | rfl
    · exact hr.2.2.2.1
    · exact .inl (hr.2.2.2.1.elim id id)

/-! ## Rebalancing -/

theorem rot_eq_none (ht : rot d t = none) (hne : t ≠ .nil) : ∃ g A, t = sideNode d g A .nil := by
  rcases t with _ | ⟨g, l, r⟩
  · exact absurd rfl hne
  · cases d with
    | left =>
      cases r with
      | nil => exact ⟨g, l, rfl⟩
      | node x b c => cases ht
    | right =>
      cases l with
      | nil => exact ⟨g, r, rfl⟩
      | node x b c => cases ht

theorem rotate_undef (hnil : (h g).child d.other = none) :
    rotate d h (some g) = Exec.undef := by simp [rotate, child, hnil]

theorem rotate_yields (hr : Rep none Loose h par p t) (hne : t ≠ .nil) (hnd : (addrs t).Nodup) :
    Yields par e h (addrs t) (rotate d h p) (rot d t) := by
  cases ht : rot d t with
  | some t' => exact ((rotate_makes loose_self ht hr hnd).imp fun q hq ↦ .inr hq).yields
  | none =>
    obtain ⟨⟨g, v⟩, A, rfl⟩ := rot_eq_none ht hne
    obtain ⟨rfl, -, -, -, -, hnil⟩ := rep_sideNode.mp hr
    exact rotate_undef (rep_nil.mp hnil)

theorem rotateTwice_yields (hr : Rep none Loose h par p (sideNode d (g, vg) A X)) (hne : X ≠ .nil)
    (hnd : (addrs (sideNode d (g, vg) A X)).Nodup) :
    Yields par e h (addrs (sideNode d (g, vg) A X)) (rotateTwice d h p)
      ((rot d.other X).bind fun X' ↦ rot d (sideNode d (g, vg) A X')) := by
  obtain ⟨rfl, -⟩ := rep_sideNode.mp hr
  obtain ⟨-, hchild⟩ := child_eq hr
  cases hX' : rot d.other X with
  | none =>
    obtain ⟨⟨y, w⟩, B, rfl⟩ := rot_eq_none hX' hne
    obtain ⟨-, -, -, -, -, hX⟩ := rep_sideNode.mp hr
    obtain ⟨-, -, -, -, -, hnil⟩ := rep_sideNode.mp hX
    have hundef : rotate d.other h (some y) = Exec.undef := rotate_undef (rep_nil.mp hnil)
    simp [Yields, rotateTwice_eq hchild, hundef]
  | some X' =>
    rw [Option.bind_some]
    cases ht : rot d (sideNode d (g, vg) A X') with
    | some t' => exact ((rotateTwice_makes loose_self hX' ht hr hnd).imp fun q hq ↦ .inr hq).yields
    | none =>
      obtain ⟨y, z, B, C, D, -, rfl⟩ := rot_eq_some.mp hX'
      cases d <;> cases ht

/-- Which rotation the end of `dl_bstree_delete` makes. -/
theorem rebalance_eq {P : Ptr → Ptr → Prop} {h₁ : Cells} (hr : Rep none P h par p (.node (a, v) l r))
    (hnd : (addrs (.node (a, v) l r)).Nodup) (hrun₁ : updateHeight h (some a) = .ok h₁) :
    rebalance h (some a) =
      if 1 < toInt (subWord (storedHeight l) (storedHeight r)) then rotate .right h₁ (some a)
      else if toInt (subWord (storedHeight l) (storedHeight r)) < -1 then
        if storedBalance r = 0 then rotate .left h₁ (some a) else rotateTwice .left h₁ (some a)
      else .ok (h₁, some a) := by
  obtain rfl : p = some a := hr.1
  obtain ⟨h₁', hrun₁', hr₁, -⟩ := updateHeight_spec (d := .left) hr hnd
  obtain rfl := Except.ok.inj (hrun₁'.symm.trans hrun₁)
  rw [sideNode_left] at hr₁
  have hbal : getBalance h₁' (some a) = .ok (subWord (storedHeight l) (storedHeight r)) :=
    getBalance_eq hr₁
  have hl₁ : left h₁' (some a) = .ok (ptr none l) := left_eq hr₁
  have hrt₁ : right h₁' (some a) = .ok (ptr none r) := right_eq hr₁
  have hbl : getBalance h₁' (ptr none l) = .ok (storedBalance l) := getBalance_eq (rep_left hr₁)
  have hbr : getBalance h₁' (ptr none r) = .ok (storedBalance r) := getBalance_eq (rep_right hr₁)
  simp only [rebalance, hrun₁, Exec.ok_bind, hbal, hl₁, hrt₁, hbl, hbr]
  generalize toInt (subWord (storedHeight l) (storedHeight r)) = balance
  simp only [Exec.pure_eq_ok, Exec.ok_and, Nat.zero_le, decide_true,
    Nat.not_lt_zero, decide_false, Nat.le_zero, Nat.pos_iff_ne_zero]
  by_cases h1 : 1 < balance
  · simp only [h1, if_true, Exec.ok_bind]
    rfl
  · by_cases h2 : balance < -1
    · by_cases h3 : storedBalance r = 0
      · simp only [h1, h2, h3, if_true, if_false, Exec.ok_bind, decide_true, Bool.false_eq_true]
        rfl
      · simp only [h1, h2, h3, if_true, if_false, Exec.ok_bind, decide_false, decide_true, ne_eq,
          not_false_eq_true, Bool.false_eq_true, rotateTwice_eq (d := .left) hrt₁]
        rfl
    · simp only [h1, h2, if_false, Exec.ok_bind, Bool.false_eq_true]

/-- The end of `dl_bstree_delete` makes the memory hold what `rebalanced` computes. -/
theorem rebalance_yields (hr : Rep none Loose h par p (.node (a, v) l r))
    (hnd : (addrs (.node (a, v) l r)).Nodup) :
    Yields par e h (addrs (.node (a, v) l r)) (rebalance h p) (rebalanced (.node (a, v) l r)) := by
  obtain rfl : p = some a := hr.1
  obtain ⟨h₁, hrun₁, hr₁, hh₁⟩ := updateHeight_spec (d := .left) hr hnd
  rw [sideNode_left] at hr₁
  have hnd₁ : (addrs (raise (.node (a, v) l r))).Nodup := by rwa [addrs_raise]
  rw [rebalance_eq hr hnd hrun₁, ← addrs_raise]
  refine Yields.after (.of_eq fun b hb ↦ hh₁ b fun e ↦ hb (by simp [e])) ?_
  have hR : rotR (.node (a, v) l r) = rot .right (raise (.node (a, v) l r)) :=
    rotR_height v.height _
  have hL : ∀ r', rotL (.node (a, v) l r') = rot .left (.node (a, ⟨v.key, _⟩) l r') := fun r' ↦
    rotL_height v.height (word (1 + max (storedHeight l) (storedHeight r)))
  simp only [rebalanced]
  generalize toInt (subWord (storedHeight l) (storedHeight r)) = balance
  by_cases h1 : 1 < balance
  · simp only [h1, if_true, hR]
    exact rotate_yields (d := .right) hr₁ (by simp [raise]) hnd₁
  · by_cases h2 : balance < -1
    · by_cases h3 : storedBalance r = 0
      · simp only [h1, h2, h3, if_true, if_false, hL]
        exact rotate_yields (d := .left) hr₁ (by simp [raise]) hnd₁
      · have hne : r ≠ .nil := fun e ↦ h3 (by simp [e, storedBalance])
        simp only [h1, h2, h3, if_true, if_false, hL]
        exact rotateTwice_yields (d := .left) (e := e) hr₁ hne hnd₁
    · simp only [h1, h2, if_false]
      exact ⟨h₁, rfl, hr₁, .of_eq fun _ _ ↦ rfl⟩

/-- A subtree has been dealt with, and its new root is linked. -/
theorem relink_rep {h₁ : Cells} (hr : Rep none Loose h par p (sideNode d (a, v) X Y))
    (hnd : (addrs (sideNode d (a, v) X Y)).Nodup)
    (hX₁ : Rep none Loose h₁ (some a) (ptr none X') X') (hh₁ : Apart (some a) d (addrs X) h h₁)
    (hsub : (addrs X').Sublist (addrs X)) :
    Rep none Loose (h₁.upd a (·.setChild d (ptr none X'))) par (some a) (sideNode d (a, v) X' Y) ∧
      (addrs (sideNode d (a, v) X' Y)).Nodup ∧
      ∀ b ∉ addrs X, b ≠ a → h₁.upd a (·.setChild d (ptr none X')) b = h b := by
  obtain ⟨haX, haY, hndX, hndY, hXY⟩ := nodup_addrs_sideNode.mp hnd
  obtain ⟨-, -, hd, hpar, -, hY⟩ := rep_sideNode.mp hr
  have haX' : a ∉ addrs X' := fun ha ↦ haX (hsub.subset ha)
  have hold : ∀ b ∉ addrs X, b ≠ a → h₁.upd a (·.setChild d (ptr none X')) b = h b := by
    intro b hb hba
    rw [Heap.upd_of_ne _ _ hba]
    exact (hh₁ b hb).resolve_right fun ⟨he, _⟩ ↦ hba (Option.some.inj he).symm
  have ha : h₁.upd a (·.setChild d (ptr none X')) a = (h a).setChild d (ptr none X') := by
    rcases hh₁ a haX with he | ⟨-, q, he⟩
    · simp [he]
    · simp [he]
  refine ⟨?_, nodup_addrs_sideNode.mpr
    ⟨haX', haY, hsub.nodup hndX, hndY, fun b hb ↦ hXY b (hsub.subset hb)⟩, hold⟩
  refine rep_sideNode.mpr ⟨rfl, by simp, by rw [ha]; simpa using hd, by rw [ha]; simpa using hpar,
    ?_, ?_⟩
  · rw [ha, Cell.child_setChild_self]
    exact hX₁.congr (h₁.upd_eq_on _ haX')
  · rw [ha, Cell.child_setChild_other]
    refine hY.congr fun b hb ↦ hold b (fun hbX ↦ hXY b hbX hb) fun e ↦ haY (e ▸ hb)

/-- The way up: a subtree has been dealt with, its new root is linked and the node is rebalanced. -/
theorem climb_yields (hr : Rep none Loose h par p (sideNode d (a, v) X Y))
    (hnd : (addrs (sideNode d (a, v) X Y)).Nodup) (hrun : Yields (some a) d h (addrs X) run o)
    (hsub : ∀ X', o = some X' → (addrs X').Sublist (addrs X)) :
    Yields par e h (addrs (sideNode d (a, v) X Y))
      (run >>= fun x ↦ setChild x.1 d (some a) x.2 >>= fun h ↦ rebalance h (some a))
      (o.bind fun X' ↦ rebalanced (sideNode d (a, v) X' Y)) := by
  cases o with
  | none =>
    obtain rfl : run = Exec.undef := hrun
    rfl
  | some X' =>
    obtain ⟨h₁, rfl, hX₁, hh₁⟩ := hrun
    have hsub := hsub X' rfl
    obtain ⟨hr₂, hnd', hold⟩ := relink_rep hr hnd hX₁ hh₁ hsub
    have hrun₂ : Yields par e (h₁.upd a (·.setChild d (ptr none X')))
        (addrs (sideNode d (a, v) X' Y))
        (rebalance (h₁.upd a (·.setChild d (ptr none X'))) (some a))
        (rebalanced (sideNode d (a, v) X' Y)) := by
      cases d with
      | left => exact rebalance_yields hr₂ hnd'
      | right => exact rebalance_yields hr₂ hnd'
    rw [Exec.ok_bind, Option.bind_some]
    refine (hrun₂.mono fun b hb ↦ ?_).after (.of_eq fun b hb ↦ ?_)
    · rw [mem_addrs_sideNode] at hb ⊢
      exact hb.imp_right (.imp_left fun hb ↦ hsub.subset hb)
    · simp only [mem_addrs_sideNode, not_or] at hb
      exact hold b hb.2.1 hb.1

/-! ## Nodes with one child at most -/

/-- If there is a cell `par`, its child on the side `d`, and only that one, is the node at `p`. -/
def Below (h : Cells) (par : Ptr) (d : Side) (p : Ptr) : Prop :=
  ∀ a, par = some a → (h a).child d = p ∧ (p ≠ none → (h a).child d.other ≠ p)

theorem unlink_eq (hpar : (h g).parent = some a) (hb : Below h (some a) d (some g)) :
    unlink h (some g) = .ok (h.upd a (·.setChild d none)) := by
  obtain ⟨hd, ho⟩ := hb a rfl
  cases d with
  | left =>
    rw [Cell.child_left] at hd
    simp [unlink, parent, hpar, child, hd, setChild]
  | right =>
    have hne : some g ≠ (h a).left := Ne.symm (ho (by rintro ⟨⟩))
    simp [unlink, parent, hpar, child, hne, setChild]

theorem replace_eq (hpar : (h g).parent = some a) (hb : Below h (some a) d (some g)) (hxa : a ≠ x) :
    replace h (some g) (some x) =
      .ok ((h.upd x (·.setParent (some a))).upd a (·.setChild d (some x))) := by
  obtain ⟨hd, ho⟩ := hb a rfl
  have ha : (h.upd x (·.setParent (some a))) a = h a := h.upd_of_ne _ hxa
  cases d with
  | left =>
    have hne : some g ≠ (h a).right := Ne.symm (ho nofun)
    simp [replace, parent, hpar, child, hne, setChild, setParent, ha]
  | right =>
    rw [Cell.child_right] at hd
    simp [replace, parent, hpar, child, hd, setChild, setParent, ha]

/-- The parent link of `x` is taken from `g`, and the parent's child link leads to `x` instead. -/
theorem replace_spec (hpar : Loose (h g).parent par) (hb : Below h par d (some g))
    (hxp : par ≠ some x) : ∃ h', replace h (some g) (some x) = .ok h' ∧
      h' x = (h x).setParent (h g).parent ∧ Apart par d [x] h h' := by
  rcases hact : (h g).parent with _ | a
  · refine ⟨h.upd x (·.setParent none), by simp [replace, parent, hact, setParent], by simp,
      .of_eq fun b hb ↦ h.upd_of_ne _ (by simpa using hb)⟩
  · obtain rfl : some a = par := by
      rcases hpar with hpar | hpar
      · cases hact.symm.trans hpar
      · exact hact.symm.trans hpar
    have hxa : a ≠ x := fun e ↦ hxp (congrArg some e)
    refine ⟨_, replace_eq hact hb hxa, by simp [hxa.symm], fun b hbx ↦ ?_⟩
    have hbx : b ≠ x := by simpa using hbx
    by_cases hba : b = a
    · subst hba
      exact .inr ⟨rfl, some x, by simp [hbx]⟩
    · exact .inl (by simp [hba, hbx])

theorem onlyChild_eq (hr : Rep none Loose h par p (sideNode e (g, vg) X .nil)) :
    onlyChild h (some g) = .ok (ptr none X) := by
  obtain ⟨hX, hnil⟩ := child_eq hr
  cases e with
  | left =>
    simp only [onlyChild, hX, Exec.ok_bind, Exec.pure_eq_ok]
    by_cases he : ptr none X = none
    · rw [if_neg (not_not.mpr he), he]
      exact hnil
    · rw [if_pos he]
  | right =>
    have hl : left h (some g) = .ok none := hnil
    simp only [onlyChild, hl, Exec.ok_bind]
    exact hX

theorem splice_yields (hr : Rep none Loose h par p (sideNode e (g, vg) X .nil))
    (hnd : (addrs (sideNode e (g, vg) X .nil)).Nodup) (hb : Below h par d p)
    (hpt : ∀ a, par = some a → a ∉ addrs (sideNode e (g, vg) X .nil)) :
    Yields par d h (addrs (sideNode e (g, vg) X .nil)) (splice h p) (some X) := by
  have honly := onlyChild_eq hr
  obtain ⟨hgX, -, hndX, -⟩ := nodup_addrs_sideNode.mp hnd
  obtain ⟨rfl, -, -, hpar, hX, -⟩ := rep_sideNode.mp hr
  cases X with
  | nil =>
    rcases hact : (h g).parent with _ | a
    · have hunlink : unlink h (some g) = .ok h := by simp [unlink, parent, hact]
      exact ⟨h, by simp [splice, honly, hunlink], rfl, .of_eq fun _ _ ↦ rfl⟩
    · obtain rfl : some a = par := by
        rcases hpar with hpar | hpar
        · cases hact.symm.trans hpar
        · exact hact.symm.trans hpar
      refine ⟨h.upd a (·.setChild d none), by simp [splice, honly, unlink_eq hact hb], rfl,
        fun b _ ↦ ?_⟩
      by_cases hba : b = a
      · subst hba
        exact .inr ⟨rfl, none, by simp⟩
      · exact .inl (by simp [hba])
  | node w b c =>
    obtain ⟨x, w⟩ := w
    have hx : (h g).child e = some x := hX.1
    rw [hx] at hX
    have hxp : par ≠ some x := fun e ↦ hpt x e (by simp)
    obtain ⟨h', hrun, hx', hh⟩ := replace_spec hpar hb hxp
    refine ⟨h', by simp [splice, honly, hrun], ?_, fun y hy ↦ hh y fun e ↦ hy ?_⟩
    · obtain ⟨-, -, hd, -, hbr, hcr⟩ := hX
      obtain ⟨hxb, hxc, -⟩ := (nodup_addrs_sideNode (s := .left)).mp hndX
      have hold : ∀ y ∈ addrs (.node (x, w) b c), y ≠ x → h' y = h y := fun y hy hyx ↦
        (hh y (by simpa using hyx)).resolve_right fun ⟨hp, _⟩ ↦ hpt y hp (by simp at hy ⊢; tauto)
      refine ⟨rfl, by simp, by simpa [hx'] using hd, by simpa [hx'] using hpar, ?_, ?_⟩
      · rw [hx']
        exact hbr.congr fun y hy ↦ hold y (by simp [hy]) fun e ↦ hxb (e ▸ hy)
      · rw [hx']
        exact hcr.congr fun y hy ↦ hold y (by simp [hy]) fun e ↦ hxc (e ▸ hy)
    · have : y = x := by simpa using e
      simp [this]

/-! ## Changing places with the successor -/

/-- The first half of `swap`: the successor `m` takes over the parent and the left child. -/
theorem swap_eq {h₁ : Cells} {y z : Addr} (hrun : replace h (some g) (some m) = .ok h₁)
    (hg : h₁ g = h g) (hl : (h g).left = some y) (hr : (h g).right = some z) (hgm : g ≠ m)
    (hgy : g ≠ y) :
    swap h (some g) (some m) =
      (let h₃ := (h₁.upd m (·.setChild .left (some y))).upd y (·.setParent (some m))
      if z = m then
        hang (((((h₃.upd m (·.setChild .right (some g))).upd g (·.setParent (some m))).upd g
          (·.setChild .left none)).upd g (·.setChild .right (h m).right))) (h m).right (some g)
      else
        (((((h₃.upd m (·.setChild .right (some z))).upd z (·.setParent (some m))).upd g
          (·.setChild .left none)).upd g (·.setParent (h m).parent)).store (h m).parent
            (·.setChild .left (some g))) >>= fun h₈ ↦
          hang (h₈.upd g (·.setChild .right (h m).right)) (h m).right (some g)) := by
  have hl₁ : (h₁ g).left = some y := by rw [hg, hl]
  have hr₁ : (h₁ g).right = some z := by rw [hg, hr]
  simp [swap, hrun, child, setChild, setParent, hgm, hgy, hl₁, hr₁]

theorem exists_ptr_eq (hl : l ≠ .nil) : ∃ y, ptr none l = some y := by
  cases l with
  | nil => exact absurd rfl hl
  | node w b c => exact ⟨w.1, rfl⟩

theorem mem_addrs_of_ptr {y : Addr} (hy : ptr none l = some y) : y ∈ addrs l := by
  cases l with
  | nil => cases hy
  | node w b c =>
    obtain rfl : w.1 = y := Option.some.inj hy
    simp [addrs]

/-- The memory after the first half of `swap`. -/
structure TakenOver (par : Ptr) (d : Side) (h : Cells) (g m : Addr) (l : Shape) (h₃ : Cells) :
    Prop where
  /-- The successor has the parent of the node and its left child. -/
  succ : h₃ m = ((h m).setParent (h g).parent).setChild .left (ptr none l)
  /-- The left child has got the successor as its parent. -/
  rep : Rep none Loose h₃ (some m) (ptr none l) l
  /-- Nothing else has changed. -/
  apart : Apart par d (m :: addrs l) h h₃

theorem takenOver {h₁ : Cells} {y : Addr} (hr : Rep none Loose h par p (.node (g, vg) l r))
    (hnd : (addrs (.node (g, vg) l r)).Nodup) (hm : m ∈ addrs r) (hy : ptr none l = some y)
    (hpt : ∀ a, par = some a → a ∉ addrs (.node (g, vg) l r))
    (hm₁ : h₁ m = (h m).setParent (h g).parent) (hh₁ : Apart par d [m] h h₁) :
    TakenOver par d h g m l
      ((h₁.upd m (·.setChild .left (some y))).upd y (·.setParent (some m))) := by
  obtain ⟨hgl, hgr, hndl, hndr, hlr⟩ := (nodup_addrs_sideNode (s := .left)).mp hnd
  have hml : m ∉ addrs l := fun hml ↦ hlr m hml hm
  have hyl : y ∈ addrs l := mem_addrs_of_ptr hy
  have hmy : m ≠ y := fun e ↦ hml (e ▸ hyl)
  have hl := rep_left hr
  have hl₂ : Rep none Loose (h₁.upd m (·.setChild .left (some y))) (some g) (some y) l := by
    rw [hy] at hl
    refine hl.congr fun b hb ↦ ?_
    have hbm : b ≠ m := fun e ↦ hml (e ▸ hb)
    rw [Heap.upd_of_ne _ _ hbm]
    exact (hh₁ b (by simpa using hbm)).resolve_right fun ⟨hp, _⟩ ↦ hpt b hp (by simp [hb])
  refine ⟨by simp [hmy, hm₁, hy], ?_, ?_⟩
  · rw [hy]
    exact hl₂.hang hndl (by simp) (loose_self _)
  · intro b hb
    simp only [List.mem_cons, not_or] at hb
    have hby : b ≠ y := fun e ↦ hb.2 (e ▸ hyl)
    rw [Heap.upd_of_ne _ _ hby, Heap.upd_of_ne _ _ hb.1]
    exact hh₁ b (by simpa using hb.1)

/-- The memory after `swap`: the node has changed places with its successor. -/
structure Swapped (par : Ptr) (d : Side) (h : Cells) (vm : Data) (m : Addr) (l r' : Shape) (L : List Addr)
    (h' : Cells) : Prop where
  /-- The successor stands under the parent of the node. -/
  rep : Rep none Loose h' par (some m) (.node (m, vm) l r')
  /-- Only the tree and the link of the parent have been written. -/
  apart : Apart par d L h h'

/-- The successor is the right child. -/
theorem swap_adjacent (hr : Rep none Loose h par p (.node (g, vg) l (.node (m, vm) .nil M)))
    (hnd : (addrs (.node (g, vg) l (.node (m, vm) .nil M))).Nodup) (hl : l ≠ .nil)
    (hb : Below h par d p) (hpt : ∀ a, par = some a → a ∉ addrs (.node (g, vg) l (.node (m, vm) .nil M))) :
    ∃ h', swap h p (some m) = .ok h' ∧
      Swapped par d h vm m l (.node (g, vg) .nil M) (addrs (.node (g, vg) l (.node (m, vm) .nil M))) h' := by
  obtain ⟨hgl, hgr, hndl, hndr, hlr⟩ := (nodup_addrs_sideNode (s := .left)).mp hnd
  obtain ⟨-, hmM, -, hndM, -⟩ := (nodup_addrs_sideNode (s := .left)).mp hndr
  have hr' := hr
  obtain ⟨rfl, -, hgd, hpar, hL, hR⟩ := hr'
  obtain ⟨hgm', -, hmd, -, hmleft, hM⟩ := hR
  simp only [mem_addrs_node, addrs_nil, List.not_mem_nil, false_or, not_or] at hgr hlr
  obtain ⟨hgm, hgM⟩ := hgr
  have hml : m ∉ addrs l := fun hm ↦ (hlr m hm).1 rfl
  obtain ⟨y, hy⟩ := exists_ptr_eq hl
  have hgy : g ≠ y := fun e ↦ hgl (e ▸ mem_addrs_of_ptr hy)
  obtain ⟨h₁, hrun, hm₁, hh₁⟩ := replace_spec hpar hb (x := m) fun e ↦ hpt m e (by simp)
  have hg₁ : h₁ g = h g := (hh₁ g (by simpa using hgm)).resolve_right fun hp ↦
    hpt g hp.1 (by simp)
  have hT := takenOver hr hnd (m := m) (by simp) hy hpt hm₁ hh₁
  have hrunS := swap_eq hrun hg₁ (hL.eq_ptr.trans hy) hgm' hgm hgy
  simp only [if_true] at hrunS
  generalize (h₁.upd m (·.setChild .left (some y))).upd y (·.setParent (some m)) = h₃ at hT hrunS
  obtain ⟨hm₃, hl₃, hh₃⟩ := hT
  have hold₃ : ∀ b, b ≠ m → b ∉ addrs l → some b ≠ par → h₃ b = h b := fun b hbm hbl hbp ↦
    (hh₃ b (by simp [hbm, hbl])).resolve_right fun hp ↦ hbp hp.1.symm
  have hg₃ : h₃ g = h g := hold₃ g hgm hgl fun e ↦ hpt g e.symm (by simp)
  let h₇ := (((h₃.upd m (·.setChild .right (some g))).upd g (·.setParent (some m))).upd g
    (·.setChild .left none)).upd g (·.setChild .right (h m).right)
  have hold₇ : ∀ b, b ≠ m → b ≠ g → h₇ b = h₃ b := fun b hbm hbg ↦ by simp [h₇, hbm, hbg]
  have hM₇ : Rep none Loose h₇ (some m) (h m).right M := hM.congr fun b hb ↦ by
    have hbm : b ≠ m := fun e ↦ hmM (e ▸ hb)
    have hbg : b ≠ g := fun e ↦ hgM (e ▸ hb)
    rw [hold₇ b hbm hbg, hold₃ b hbm (fun hbl ↦ (hlr b hbl).2 hb) fun e ↦ hpt b e.symm (by simp [hb])]
  obtain ⟨h₈, hrun₈, hM₈, hh₈⟩ := hang_spec (loose_self (some g)) hM₇ hndM
  have hm₈ : h₈ m = (h₃ m).setChild .right (some g) := by simp [hh₈ m hmM, h₇, Ne.symm hgm]
  have hg₈ : h₈ g = ⟨none, (h m).right, some m, vg⟩ := by
    rw [hh₈ g hgM]
    simp [h₇, hgm, hg₃, Cell.setChild, Cell.setParent, hgd]
  refine ⟨h₈, hrunS.trans hrun₈, ⟨?_, ?_⟩⟩
  · refine ⟨rfl, by simp, by simpa [hm₈, hm₃] using hmd, by simpa [hm₈, hm₃] using hpar, ?_, ?_⟩
    · have hleft : (h₈ m).left = ptr none l := by rw [hm₈, hm₃]; rfl
      rw [hleft]
      refine hl₃.congr fun b hb ↦ ?_
      rw [hh₈ b (hlr b hb).2, hold₇ b (hlr b hb).1 fun e ↦ hgl (e ▸ hb)]
    · have hright : (h₈ m).right = some g := by rw [hm₈]; rfl
      rw [hright]
      refine ⟨rfl, by simp, by rw [hg₈], by rw [hg₈]; exact loose_self _, by rw [hg₈]; rfl, ?_⟩
      rw [hg₈]
      exact hM₈
  · intro b hbt
    simp only [mem_addrs_node, addrs_nil, List.not_mem_nil, false_or, not_or] at hbt
    obtain ⟨hbl, hbg, hbm, hbM⟩ := hbt
    rw [hh₈ b hbM, hold₇ b hbm hbg]
    exact hh₃ b (by simp [hbm, hbl])

/-- What `swap` writes in its second half before it hangs the right child of the successor below the
node, if the successor is further down: `z` is the right child of the node, `x` the parent of the
successor and `q` the right child of the successor. -/
def putDown (h : Cells) (g m z x : Addr) (q : Ptr) : Cells :=
  (((((h.upd m (·.setChild .right (some z))).upd z (·.setParent (some m))).upd g
    (·.setChild .left none)).upd g (·.setParent (some x))).upd x (·.setChild .left (some g))).upd g
      (·.setChild .right q)

theorem putDown_of_ne {b z x : Addr} {q : Ptr} (hm : b ≠ m) (hz : b ≠ z) (hg : b ≠ g) (hx : b ≠ x) :
    putDown h g m z x q b = h b := by
  simp [putDown, hm, hz, hg, hx]

theorem putDown_succ {z x : Addr} {q : Ptr} (hz : m ≠ z) (hg : m ≠ g) (hx : m ≠ x) :
    putDown h g m z x q m = (h m).setChild .right (some z) := by
  simp [putDown, hz, hg, hx]

theorem putDown_node {z x : Addr} {q : Ptr} (hm : g ≠ m) (hz : g ≠ z) (hx : g ≠ x) :
    putDown h g m z x q g = ⟨none, q, some x, (h g).data⟩ := by
  simp [putDown, hm, hz, hx, Cell.setChild, Cell.setParent]

theorem parent_putDown_top {z x : Addr} {q : Ptr} (hg : z ≠ g) :
    (putDown h g m z x q z).parent = some m := by
  by_cases hx : z = x
  · simp [putDown, hg, ← hx]
  · simp [putDown, hg, hx]

/-- The context of the successor becomes the one of the node, hung below the successor. -/
theorem ctxRep_putDown {f : Frame (Addr × Data)} {z : Addr} {q : Ptr} (hf : f.side = .left)
    (hC : CtxRep none (fun act exp ↦ exp = none ∨ Loose act exp) h (some z) (f :: c) (some m))
    (hnd : (ctxAddrs (f :: c)).Nodup) (hm : m ∉ ctxAddrs (f :: c)) (hg : g ∉ ctxAddrs (f :: c)) :
    CtxRep none (fun act exp ↦ exp = none ∨ Loose act exp) (putDown h g m z f.val.1 q) (some z)
      (f :: c) (some g) := by
  have htop := (hC.congr (h.upd_eq_on (·.setChild .right (some z)) hm)).upd_root hnd
    (q := some m) (.inl rfl)
  have hnode := (htop.congr (Heap.upd_eq_on _ (·.setChild .left none) hg)).congr
    (Heap.upd_eq_on _ (·.setParent (some f.val.1)) hg)
  have hhole := (hnode.refill (some g) hnd).congr (Heap.upd_eq_on _ (·.setChild .right q) hg)
  rwa [hf] at hhole

/-- The memory after `swap`, as far as the second half changes it, if the successor is further
down. -/
structure PutDown (h₃ : Cells) (g m z : Addr) (vg : Data) (c : Ctx (Addr × Data)) (M : Shape)
    (h' : Cells) : Prop where
  /-- The successor has the right child of the node. -/
  succ : h' m = (h₃ m).setChild .right (some z)
  /-- The node is where its successor has been. -/
  rep : Rep none Loose h' (some m) (some z) (plug c (.node (g, vg) .nil M))
  /-- Nothing else has changed. -/
  apart : ∀ b ∉ m :: addrs (plug c (.node (g, vg) .nil M)), h' b = h₃ b

/-- The second half of `swap`, if the successor is further down. -/
theorem hang_putDown {h₃ : Cells} {f : Frame (Addr × Data)} {z : Addr} {q : Ptr}
    (hf : f.side = .left)
    (hC : CtxRep none (fun act exp ↦ exp = none ∨ Loose act exp) h₃ (some z) (f :: c) (some m))
    (hM : Rep none (fun act exp ↦ exp = none ∨ Loose act exp) h₃ (some m) q M)
    (hnd : (m :: addrs (plug (f :: c) (.node (g, vg) .nil M))).Nodup) (hg : (h₃ g).data = vg) :
    ∃ h', hang (putDown h₃ g m z f.val.1 q) q (some g) = .ok h' ∧
      PutDown h₃ g m z vg (f :: c) M h' := by
  obtain ⟨hm, hnd⟩ := List.nodup_cons.mp hnd
  obtain ⟨hndc, hndM, hcM⟩ := nodup_addrs_plug.mp hnd
  obtain ⟨-, hgM, -, hndM, -⟩ := (nodup_addrs_sideNode (s := .left)).mp hndM
  simp only [mem_addrs_plug, mem_addrs_node, addrs_nil, List.not_mem_nil, false_or, not_or] at hm hcM
  obtain ⟨hmc, hmg, hmM⟩ := hm
  have hgc : g ∉ ctxAddrs (f :: c) := fun hgc ↦ (hcM g hgc).1 rfl
  obtain ⟨z', hz, hz'⟩ := hC.root_mem
  obtain rfl := Option.some.inj hz'
  have hx : f.val.1 ∈ ctxAddrs (f :: c) := by simp
  have hne : ∀ a b, a ∉ ctxAddrs (f :: c) → b ∈ ctxAddrs (f :: c) → a ≠ b := fun a b ha hb e ↦
    ha (e ▸ hb)
  have hold : ∀ b, b ≠ m → b ≠ g → b ∉ ctxAddrs (f :: c) →
      putDown h₃ g m z f.val.1 q b = h₃ b := fun b hbm hbg hbc ↦
    putDown_of_ne hbm (hne b z hbc hz) hbg (hne b _ hbc hx)
  have hM₁ := hM.congr fun b hb ↦ hold b (fun e ↦ hmM (e ▸ hb)) (fun e ↦ hgM (e ▸ hb)) fun hbc ↦
    (hcM b hbc).2 hb
  obtain ⟨h', hrun, hM', hh'⟩ := hang_spec (q := some g) (.inr (loose_self _)) hM₁ hndM
  have hg' : h' g = ⟨none, q, some f.val.1, vg⟩ := by
    rw [hh' g hgM, putDown_node (Ne.symm hmg) (hne g z hgc hz) (hne g _ hgc hx), hg]
  have hz' : (h' z).parent = some m := by
    rw [hh' z (hcM z hz).2, parent_putDown_top (hne g z hgc hz).symm]
  have hC' := (ctxRep_putDown (q := q) hf hC hndc hmc hgc).congr fun b hb ↦ hh' b (hcM b hb).2
  have hG' : Rep none (fun act exp ↦ exp = none ∨ Loose act exp) h' (ctxParent (f :: c)) (some g)
      (.node (g, vg) .nil M) := by
    refine ⟨rfl, by simp, by rw [hg'], by rw [hg']; exact .inr (loose_self _), by rw [hg']; rfl, ?_⟩
    rw [hg']
    exact hM'
  refine ⟨h', hrun, ?_, ?_, fun b hb ↦ ?_⟩
  · rw [hh' m hmM, putDown_succ (hne m z hmc hz) hmg (hne m _ hmc hx)]
  · have hwhole := rep_plug_iff (t := .node (g, vg) .nil M).mpr ⟨hC', hG'⟩
    have hhung := hwhole.reparent (q := some m) fun b hb _ ↦ by
      obtain rfl := Option.some.inj hb
      exact Or.inr (Or.inr hz')
    refine hhung.imp fun act exp hexp hP ↦ hP.resolve_left ?_
    rcases hexp with rfl | ⟨b, -, rfl⟩ <;> rintro ⟨⟩
  · simp only [List.mem_cons, mem_addrs_plug, mem_addrs_node, addrs_nil, List.not_mem_nil, false_or,
      not_or] at hb
    obtain ⟨hbm, hbc, hbg, hbM⟩ := hb
    rw [hh' b hbM, hold b hbm hbg hbc]

/-- The successor is further down. -/
theorem swap_apart {f : Frame (Addr × Data)} (hf : f.side = .left)
    (hr : Rep none Loose h par p (.node (g, vg) l (plug (f :: c) (.node (m, vm) .nil M))))
    (hnd : (addrs (.node (g, vg) l (plug (f :: c) (.node (m, vm) .nil M)))).Nodup) (hl : l ≠ .nil)
    (hb : Below h par d p)
    (hpt : ∀ a, par = some a → a ∉ addrs (.node (g, vg) l (plug (f :: c) (.node (m, vm) .nil M)))) :
    ((h m).parent = none → swap h p (some m) = Exec.undef) ∧
    ((h m).parent ≠ none → ∃ h', swap h p (some m) = .ok h' ∧
      Swapped par d h vm m l (plug (f :: c) (.node (g, vg) .nil M))
        (addrs (.node (g, vg) l (plug (f :: c) (.node (m, vm) .nil M)))) h') := by
  obtain ⟨hgl, hgr, hndl, hndr, hlr⟩ := (nodup_addrs_sideNode (s := .left)).mp hnd
  obtain ⟨hndc, hndM, hcM⟩ := nodup_addrs_plug.mp hndr
  obtain ⟨-, hmM, -, hndM, -⟩ := (nodup_addrs_sideNode (s := .left)).mp hndM
  have hr' := hr
  obtain ⟨rfl, -, hgd, hpar, hL, hR⟩ := hr'
  simp only [mem_addrs_plug, mem_addrs_node, addrs_nil, List.not_mem_nil, false_or, not_or] at hgr hlr hcM
  obtain ⟨hgc, hgm, hgM⟩ := hgr
  have hml : m ∉ addrs l := fun hm ↦ (hlr m hm).2.1 rfl
  have hmc : m ∉ ctxAddrs (f :: c) := fun hm ↦ (hcM m hm).1 rfl
  have hmr : m ∈ addrs (plug (f :: c) (.node (m, vm) .nil M)) := by simp [mem_addrs_plug]
  -- the right subtree as a context around the successor; the parent link of its root is free
  have hRQ : Rep none (fun act exp ↦ exp = none ∨ Loose act exp) h none (h g).right
      (plug (f :: c) (.node (m, vm) .nil M)) :=
    (hR.imp fun _ _ _ hP ↦ .inr hP).reparent fun _ _ _ ↦ .inl rfl
  obtain ⟨hC, hMm⟩ := rep_plug_iff.mp hRQ
  obtain ⟨z, hz, hgz⟩ := hC.root_mem
  have hgm' : z ≠ m := fun e ↦ hmc (e ▸ hz)
  obtain ⟨y, hy⟩ := exists_ptr_eq hl
  have hgy : g ≠ y := fun e ↦ hgl (e ▸ mem_addrs_of_ptr hy)
  obtain ⟨h₁, hrun, hm₁, hh₁⟩ := replace_spec hpar hb (x := m) fun e ↦ hpt m e (by simp [mem_addrs_plug])
  have hg₁ : h₁ g = h g := (hh₁ g (by simpa using hgm)).resolve_right fun hp ↦
    hpt g hp.1 (by simp)
  have hT := takenOver hr hnd hmr hy hpt hm₁ hh₁
  have hrunS := swap_eq hrun hg₁ (hL.eq_ptr.trans hy) hgz hgm hgy
  simp only [hgm', if_false] at hrunS
  generalize (h₁.upd m (·.setChild .left (some y))).upd y (·.setParent (some m)) = h₃ at hT hrunS
  obtain ⟨hm₃, hl₃, hh₃⟩ := hT
  obtain ⟨-, -, hmd, hmpar, -, hM⟩ := hMm
  have hact : (h m).parent ≠ none → (h m).parent = some f.val.1 := fun hne ↦ by
    rcases hmpar with he | he | he
    · cases he
    · exact absurd he hne
    · exact he
  refine ⟨fun hnull ↦ by rw [hrunS, hnull]; rfl, fun hne ↦ ?_⟩
  rw [hact hne, Heap.store_some, Exec.ok_bind] at hrunS
  -- the first half has left the right subtree alone
  have hold₃ : ∀ b, b ≠ m → b ∉ addrs l →
      b ∈ addrs (.node (g, vg) l (plug (f :: c) (.node (m, vm) .nil M))) → h₃ b = h b :=
    fun b hbm hbl hbt ↦ (hh₃ b (by simp [hbm, hbl])).resolve_right fun hp ↦ hpt b hp.1 hbt
  have hC₃ := hC.congr fun b hb ↦ hold₃ b (fun e ↦ hmc (e ▸ hb)) (fun hbl ↦ (hlr b hbl).1 hb)
    (mem_addrs_node.mpr (.inr (.inr (mem_addrs_plug.mpr (.inl hb)))))
  have hM₃ := hM.congr fun b hb ↦ hold₃ b (fun e ↦ hmM (e ▸ hb)) (fun hbl ↦ (hlr b hbl).2.2 hb)
    (mem_addrs_node.mpr (.inr (.inr (mem_addrs_plug.mpr (.inr (by simp [hb]))))))
  rw [hgz] at hC₃
  have hndT : (m :: addrs (plug (f :: c) (.node (g, vg) .nil M))).Nodup := by
    refine List.nodup_cons.mpr ⟨?_, nodup_addrs_plug.mpr ⟨hndc, ?_, fun b hbc ↦ ?_⟩⟩
    · simp only [mem_addrs_plug, mem_addrs_node, addrs_nil, List.not_mem_nil, false_or, not_or]
      exact ⟨hmc, Ne.symm hgm, hmM⟩
    · exact (nodup_addrs_sideNode (s := .left)).mpr ⟨by simp, hgM, by simp, hndM, by simp⟩
    · have hbg : b ≠ g := fun e ↦ hgc (e ▸ hbc)
      simp [hbg, (hcM b hbc).2]
  obtain ⟨h', hrun', hm', hR', hh'⟩ := hang_putDown hf hC₃ hM₃ hndT
    (by rw [hold₃ g hgm hgl (by simp), hgd])
  simp only [List.mem_cons, mem_addrs_plug, mem_addrs_node, addrs_nil, List.not_mem_nil, false_or,
    not_or] at hh'
  refine ⟨h', hrunS.trans hrun', ⟨?_, ?_⟩⟩
  · refine ⟨rfl, by simp, by simpa [hm', hm₃] using hmd, by simpa [hm', hm₃] using hpar, ?_, ?_⟩
    · have hleft : (h' m).left = ptr none l := by rw [hm', hm₃]; rfl
      rw [hleft]
      exact hl₃.congr fun b hb ↦ hh' b ⟨fun e ↦ hml (e ▸ hb), (hlr b hb).1, fun e ↦ hgl (e ▸ hb),
        (hlr b hb).2.2⟩
    · have hright : (h' m).right = some z := by rw [hm']; rfl
      rw [hright]
      exact hR'
  · intro b hbt
    rw [mem_addrs_node, mem_addrs_plug, mem_addrs_node] at hbt
    simp only [addrs_nil, List.not_mem_nil, false_or, not_or] at hbt
    obtain ⟨hbl, hbg, hbc, hbm, hbM⟩ := hbt
    rw [hh' b ⟨hbm, hbc, hbg, hbM⟩]
    exact hh₃ b (by simp [hbm, hbl])

/-! ## The whole deletion -/

/-- Whether the parent link of a cell is set. -/
def linked (h : Cells) (a : Addr) : Bool := (h a).parent.isSome

/-- `dl_bstree_min` yields the leftmost node. -/
theorem min_eq {P : Ptr → Ptr → Prop} {fuel : Nat} {w : Addr × Data} (hr : Rep none P h par p t)
    (hm : minNode t = some w) (hfuel : t.height ≤ fuel) : min fuel h p = .ok (some w.1) := by
  induction t generalizing par p fuel with
  | nil => cases hm
  | node v l r ihl _ =>
    obtain ⟨a, v⟩ := v
    rw [height_node] at hfuel
    obtain ⟨fuel, rfl⟩ : ∃ n, fuel = n + 1 := ⟨fuel - 1, by omega⟩
    obtain rfl : p = some a := hr.1
    simp only [min, reduceCtorEq, if_false, left_eq hr, Exec.ok_bind]
    cases l with
    | nil =>
      obtain rfl := Option.some.inj hm
      rfl
    | node x b c =>
      rw [ptr_node, if_pos nofun]
      exact ihl (rep_left hr) hm (by omega)

theorem addrs_deleted_sublist {linked : Addr → Bool} (ho : Ordered t)
    (h : deleted linked k t = some t') : (addrs t').Sublist (addrs t) := by
  rw [addrs_eq_idents, addrs_eq_idents, idents_deleted ho h]
  exact List.filter_sublist.map _

theorem Ordered.left {v : Addr × Data} (ho : Ordered (.node v l r)) : Ordered l := by
  rw [Ordered, idents_node, List.pairwise_append] at ho
  exact ho.1

theorem Ordered.right {v : Addr × Data} (ho : Ordered (.node v l r)) : Ordered r := by
  rw [Ordered, idents_node, List.pairwise_append, List.pairwise_cons] at ho
  exact ho.2.1.2

/-- The children of a node are below it. -/
theorem below_child (hr : Rep none Loose h par p (sideNode d (a, v) X Y))
    (hXY : ∀ b ∈ addrs X, b ∉ addrs Y) : Below h (some a) d (ptr none X) := by
  intro b hb
  obtain rfl := Option.some.inj hb
  obtain ⟨-, -, -, -, hX, hY⟩ := rep_sideNode.mp hr
  refine ⟨hX.eq_ptr, fun hne he ↦ ?_⟩
  rw [hY.eq_ptr] at he
  cases X with
  | nil => exact hne rfl
  | node w b c => exact hXY w.1 (by simp [addrs]) (mem_addrs_of_ptr he)

/-- The node with two children: its successor has taken its place, and it is deleted from the
right subtree. -/
theorem delete_succ_yields {fuel : Nat} {R T' : Shape} (hs : Swapped par d h vm m l T' L h')
    (hmem : ∀ b ∈ addrs (.node (m, vm) l T'), b ∈ L) (hnd : (addrs (.node (m, vm) l T')).Nodup)
    (hrec : Yields (some m) .right h' (addrs T') (delete fuel h' (ptr none T') k) (minDeleted R))
    (hsub : ∀ X, minDeleted R = some X → (addrs X).Sublist (addrs T')) :
    Yields par d h L (right h' (some m) >>= fun q ↦ delete fuel h' q k >>= fun x ↦
        setRight x.1 (some m) x.2 >>= fun h ↦ rebalance h (some m))
      ((minDeleted R).bind fun r' ↦ rebalanced (.node (m, vm) l r')) := by
  rw [right_eq hs.rep, Exec.ok_bind]
  exact ((climb_yields (d := .right) hs.rep hnd hrec hsub).mono hmem).after hs.apart

/-- The tree after the node has changed places with its successor: but for these two its order is
the same, and the node is now the least of the right subtree. -/
theorem swapped_shape (hc : LeftSpine c)
    (ho : Ordered (.node (g, vg) l (plug c (.node (m, vm) .nil M)))) :
    Ordered (plug c (.node (g, vg) .nil M)) ∧ (∀ i ∈ (after c).map ident, vg.key < i.2) ∧
      (idents (.node (m, vm) l (plug c (.node (g, vg) .nil M)))).Perm
        (idents (.node (g, vg) l (plug c (.node (m, vm) .nil M)))) := by
  have hid : ∀ w, idents (plug c (.node w .nil M)) =
      ident w :: (idents M ++ (after c).map ident) := fun w ↦ by simp [idents_leftSpine hc]
  rw [Ordered, idents_node, List.pairwise_append, List.pairwise_cons, hid, List.pairwise_cons] at ho
  obtain ⟨-, ⟨hg, -, hrest⟩, -⟩ := ho
  have hlt : ∀ i ∈ idents M ++ (after c).map ident, vg.key < i.2 := fun i hi ↦
    hg i (List.mem_cons_of_mem _ hi)
  refine ⟨?_, fun i hi ↦ hlt i (List.mem_append_right _ hi), ?_⟩
  · rw [Ordered, hid, List.pairwise_cons]
    exact ⟨hlt, hrest⟩
  · rw [idents_node, idents_node, hid, hid]
    exact (List.Perm.swap ..).append_left _

/-- The node that has changed places is deleted as the leftmost one would be. -/
theorem deleted_swapped {linked : Addr → Bool} (hc : LeftSpine c)
    (hlt : ∀ i ∈ (after c).map ident, vg.key < i.2) :
    deleted linked vg.key (plug c (.node (g, vg) .nil M)) =
      minDeleted (plug c (.node (m, vm) .nil M)) :=
  deleted_leftSpine hc hlt nofun (by simp [deleted, minDeleted])

/-- `dl_bstree_delete` makes the memory hold what `deleted` computes. -/
theorem delete_yields {fuel : Nat} (hr : Rep none Loose h par p t) (hnd : (addrs t).Nodup)
    (ho : Ordered t) (hb : Below h par d p) (hpt : ∀ a, par = some a → a ∉ addrs t)
    (hfuel : t.height < fuel) :
    Yields par d h (addrs t) (delete fuel h p k) (deleted (linked h) k t) := by
  induction fuel generalizing h par p d k t with
  | zero => omega
  | succ fuel ih =>
  cases t with
  | nil =>
    obtain rfl : p = none := hr
    exact ⟨h, rfl, rfl, .of_eq fun _ _ ↦ rfl⟩
  | node v l r =>
    obtain ⟨g, vg⟩ := v
    rw [height_node] at hfuel
    obtain rfl : p = some g := hr.1
    obtain ⟨hgl, hgr, hndl, hndr, hlr⟩ := (nodup_addrs_sideNode (s := .left)).mp hnd
    by_cases hlt : k < vg.key
    · simp only [delete, reduceCtorEq, if_false, key_eq hr, left_eq hr, Exec.ok_bind, deleted, hlt,
        if_true]
      exact climb_yields (d := .left) hr hnd (ih (rep_left hr) hndl ho.left (below_child (d := .left) hr hlr)
        (fun a ha ↦ Option.some.inj ha ▸ hgl) (by omega)) fun X' ↦ addrs_deleted_sublist ho.left
    by_cases hgt : vg.key < k
    · simp only [delete, reduceCtorEq, if_false, key_eq hr, right_eq hr, Exec.ok_bind, deleted, hlt,
        hgt, if_true]
      exact climb_yields (d := .right) hr hnd (ih (rep_right hr) hndr ho.right
        (below_child (d := .right) hr fun b hb hb' ↦ hlr b hb' hb)
        (fun a ha ↦ Option.some.inj ha ▸ hgr) (by omega)) fun X' ↦ addrs_deleted_sublist ho.right
    obtain rfl : k = vg.key := by omega
    simp only [delete, reduceCtorEq, if_false, key_eq hr, left_eq hr, right_eq hr, Exec.ok_bind,
      deleted, Int.lt_irrefl]
    by_cases hl : l = .nil
    · subst hl
      exact splice_yields (e := .right) hr hnd hb hpt
    by_cases hrn : r = .nil
    · subst hrn
      simp only [ptr_nil, or_true, if_true, hl, if_false]
      exact splice_yields (e := .left) hr hnd hb hpt
    -- two children
    obtain ⟨⟨m, vm⟩, hm⟩ := exists_minNode hrn
    have hpl : ptr none l ≠ none := fun e ↦ hl ((rep_left hr).eq_nil_iff.mpr e)
    have hpr : ptr none r ≠ none := fun e ↦ hrn ((rep_right hr).eq_nil_iff.mpr e)
    simp only [hl, hrn, hpl, hpr, or_self, if_false, min_eq (rep_right hr) hm (show _ ≤ fuel by omega),
      hm, Option.bind_some, Exec.ok_bind]
    obtain ⟨c, M, rfl, hc⟩ := exists_leftSpine hm
    have hsucc : ∀ {h' : Cells}, Swapped par d h vm m l (plug c (.node (g, vg) .nil M))
          (addrs (.node (g, vg) l (plug c (.node (m, vm) .nil M)))) h' →
        Yields par d h (addrs (.node (g, vg) l (plug c (.node (m, vm) .nil M))))
          (right h' (some m) >>= fun q ↦ delete fuel h' q vg.key >>= fun x ↦
            setRight x.1 (some m) x.2 >>= fun h ↦ rebalance h (some m))
          ((minDeleted (plug c (.node (m, vm) .nil M))).bind fun r' ↦
            rebalanced (.node (m, vm) l r')) := by
      intro h' hs
      obtain ⟨hordT, hlt, hperm⟩ := swapped_shape hc ho
      have hndT : (addrs (.node (m, vm) l (plug c (.node (g, vg) .nil M)))).Nodup := by
        rwa [addrs_eq_idents, (hperm.map _).nodup_iff, ← addrs_eq_idents]
      have hmem : ∀ b ∈ addrs (.node (m, vm) l (plug c (.node (g, vg) .nil M))),
          b ∈ addrs (.node (g, vg) l (plug c (.node (m, vm) .nil M))) := fun b hb ↦ by
        rwa [addrs_eq_idents, ← (hperm.map _).mem_iff, ← addrs_eq_idents]
      obtain ⟨-, hmT, -, hndT', hlT⟩ := (nodup_addrs_sideNode (s := .left)).mp hndT
      have hmin : deleted (linked h') vg.key (plug c (.node (g, vg) .nil M)) =
          minDeleted (plug c (.node (m, vm) .nil M)) := deleted_swapped hc hlt
      refine delete_succ_yields hs hmem hndT ?_ fun X hX ↦ addrs_deleted_sublist hordT (hmin.trans hX)
      rw [← hmin]
      refine ih (rep_right hs.rep) hndT' hordT
        (below_child (d := .right) hs.rep fun b hb hb' ↦ hlT b hb' hb)
        (fun a ha ↦ Option.some.inj ha ▸ hmT) ?_
      have hheight : (plug c (.node (g, vg) .nil M)).height = (plug c (.node (m, vm) .nil M)).height :=
        height_plug_congr rfl
      omega
    cases c with
    | nil =>
      obtain ⟨h', hrun, hs⟩ := swap_adjacent hr hnd hl hb hpt
      rw [hrun]
      exact hsucc hs
    | cons f c =>
      obtain ⟨hnull, hset⟩ := swap_apart (hc f (List.mem_cons_self ..)) hr hnd hl hb hpt
      rw [succLinked_leftSpine hc]
      by_cases hlink : (h m).parent = none
      · rw [hnull hlink]
        simp [linked, hlink, Yields]
      · obtain ⟨h', hrun, hs⟩ := hset hlink
        rw [hrun, if_pos (by simpa [linked, Option.isSome_iff_ne_none] using hlink)]
        exact hsucc hs

end Dlbase.Bstree
