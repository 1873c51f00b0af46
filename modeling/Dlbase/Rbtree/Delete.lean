import Dlbase.Rbtree.DeleteRepair

/-!
# Red-black deletion

What `dl_rbtree_delete` does to the tree held in memory.  The node to be taken out of its
place (the deleted node, or its successor, which then takes the place of the deleted one)
is copied to `bak`, and the copy stays linked in until it is spliced out at the end.  While it
stands in, its children may still have the original as their parent: `Parks`.
-/

namespace Dlbase.Rbtree

open Cmem BinaryTree

variable {s : State} {c : Path} {d e : Side} {a bak x : Addr} {v va vx : Data}
  {t l r T : Shape} {n : Nat}

/-- Parent links while `bak` stands in for a node: exact but for the children of `bak`. -/
def ParkedLink (bak : Addr) (actual expected : Ptr) : Prop := actual = expected ∨ expected = some bak

/-- The state holds the tree `T`, in which `bak` stands in for a node. -/
structure Parks (s : State) (bak : Addr) (T : Shape) : Prop where
  /-- The links and data in memory are those of `T`. -/
  rep : Rep s.sentinel (ParkedLink bak) s.cells none s.root T
  /-- No node occurs twice. -/
  nodup : (addrs T).Nodup
  /-- The sentinel is a black node. -/
  sentinel : ∃ z, s.sentinel = some z ∧ (s.cells z).data.color = .black

theorem Holds.parks (h : Holds s T) : Parks s bak T :=
  ⟨h.rep.imp fun _ _ _ ↦ .inl, h.nodup, h.sentinel⟩

/-- Once `bak` has no children, all parent links are exact. -/
theorem Parks.holds (h : Parks s bak (plug c (.node (bak, v) .nil .nil))) :
    Holds s (plug c (.node (bak, v) .nil .nil)) := by
  obtain ⟨hc, hr⟩ := rep_plug_iff.mp h.rep
  obtain ⟨-, -, hdisj⟩ := nodup_addrs_plug.mp h.nodup
  have hbak : bak ∉ ctxAddrs c := fun hb ↦ hdisj bak hb (by simp)
  have hexact : ∀ act exp, (exp = none ∨ ∃ a ∈ ctxAddrs c, exp = some a) →
      ParkedLink bak act exp → act = exp := by
    rintro act exp hexp (rfl | rfl)
    · rfl
    · simp [hbak] at hexp
  refine ⟨rep_plug_iff.mpr ⟨hc.imp hexact, ?_⟩, h.nodup, h.sentinel⟩
  obtain ⟨hp, hn, hd, hpar, hl, hr⟩ := hr
  refine ⟨hp, hn, hd, hexact _ _ ?_ hpar, hl, hr⟩
  cases c with
  | nil => exact .inl rfl
  | cons f c => exact .inr ⟨_, by simp, rfl⟩

/-! ## Choosing the node to take out -/

/-- `dl_rbtree_min` finds the leftmost node of a subtree. -/
theorem min_spec {fuel : Nat} (h : Holds s (plug c t)) (ht : t ≠ .nil) (hfuel : t.height ≤ fuel) :
    ∃ k a va w, t = plug k (.node (a, va) .nil w) ∧ before k = [] ∧
      min fuel s (ptr s.sentinel t) s.sentinel = .ok (some a) := by
  induction t generalizing c fuel with
  | nil => exact absurd rfl ht
  | node v l r ihl _ =>
    obtain ⟨b, v⟩ := v
    obtain ⟨fuel, rfl⟩ : ∃ m, fuel = m + 1 := ⟨fuel - 1, by simp at hfuel; omega⟩
    have hl := Holds.child (d := .left) h
    by_cases hnil : l = .nil
    · subst hnil
      refine ⟨[], b, v, r, rfl, rfl, ?_⟩
      simp [min, hl, -State.child_some]
    · rw [BinaryTree.height, Nat.succ_le_succ_iff] at hfuel
      obtain ⟨k, a, va, w, rfl, hk, hrun⟩ := ihl (c := ⟨.left, (b, v), r⟩ :: c) h hnil
        (Nat.max_le.mp hfuel).1
      have hne : ptr s.sentinel (plug k (.node (a, va) .nil w)) ≠ s.sentinel :=
        mt (Rep.eq_nil_iff (Holds.focus (c := ⟨.left, (b, v), r⟩ :: c) h).2).mpr hnil
      refine ⟨k ++ [⟨.left, (b, v), r⟩], a, va, w, by simp [plug_append, Frame.fill], ?_, ?_⟩
      · simp [before_append, before, hk]
      · simp [min, hl, hne, hrun, -State.child_some]

/-! ## Standing in -/

/-- A cell outside the tree and other than the sentinel does not matter for its colour. -/
theorem sentinel_black {s s' : State} {L : List Addr} (h : ∃ z, s.sentinel = some z ∧ (s.cells z).data.color = .black)
    (hsent : s'.sentinel = s.sentinel) (hL : ∀ b ∈ L, some b ≠ s.sentinel)
    (hcells : ∀ b ∉ L, s'.cells b = s.cells b) :
    ∃ z, s'.sentinel = some z ∧ (s'.cells z).data.color = .black := by
  obtain ⟨z, hz, hblack⟩ := h
  exact ⟨z, hsent.trans hz, by rwa [hcells z fun hzL ↦ hL z hzL hz.symm]⟩

/-- `bak` takes the place of a node with at most one child. -/
theorem backup_spec {f : Frame (Addr × Data)}
    (h : Holds s (plug (f :: c) (sideNode e (a, va) .nil t)))
    (hbak : bak ∉ addrs (plug (f :: c) (sideNode e (a, va) .nil t)))
    (hbs : some bak ≠ s.sentinel) :
    ∃ s', backup s (some a) bak = .ok s' ∧
      Parks s' bak (plug (f :: c) (sideNode e (bak, va) .nil t)) ∧
      s'.sentinel = s.sentinel ∧ s'.insert = s.insert ∧ (s'.cells a).data = va := by
  obtain ⟨han, had, hap, -, -⟩ := h.node
  obtain ⟨hc, hr⟩ := h.focus
  rw [ptr_sideNode] at hc hr
  obtain ⟨-, -, -, -, hnil, ht⟩ := rep_sideNode.mp hr
  obtain ⟨hndc, hndt, hdisj⟩ := nodup_addrs_plug.mp h.nodup
  obtain ⟨-, hat, -, hndt', -⟩ := nodup_addrs_sideNode.mp hndt
  simp only [mem_addrs_plug, mem_addrs_sideNode, addrs_nil, List.not_mem_nil, false_or, not_or]
    at hbak hdisj
  obtain ⟨hbc, hba, hbt⟩ := hbak
  have hac : a ∉ ctxAddrs (f :: c) := fun ha ↦ (hdisj a ha).1 rfl
  -- the copy is made, and the parent's link is turned to it
  let s₁ : State := s.upd bak fun _ ↦ s.cells a
  have hc₁ : CtxRep s.sentinel (· = ·) s₁.cells s.root (f :: c) (some a) :=
    hc.congr (s.cells_upd_eq_on _ hbc)
  obtain ⟨s', hrun, hc', hsent, hins, hcells⟩ := relink_spec (s := s₁) (some bak) hc₁ hndc hac han
  have hbak' : s'.cells bak = s.cells a := by
    rw [hcells bak hbc, s.cells_upd_same]
  have hsub : ∀ b ∈ addrs t, s'.cells b = s.cells b := fun b hb ↦ by
    rw [hcells b fun hbc ↦ (hdisj b hbc).2 hb, s.cells_upd_eq_on _ hbt b hb]
  have hsent' : s'.sentinel = s.sentinel := hsent
  refine ⟨s', ?_, ⟨rep_plug_iff.mpr ⟨?_, ?_⟩, ?_, ?_⟩, hsent, hins, ?_⟩
  · rw [← hrun]
    simp only [backup, Heap.load_some, Exec.ok_bind, hap, relink, ctxParent_cons, reduceCtorEq,
      if_false]
    rfl
  · rw [ptr_sideNode, hsent']
    exact hc'.imp fun _ _ _ ↦ .inl
  · rw [ptr_sideNode, rep_sideNode, hbak', hsent']
    refine ⟨rfl, hbs, had, .inl hap, hnil, ?_⟩
    have ht' := (ht.congr hsub).imp (Q := ParkedLink bak) fun _ _ _ ↦ .inl
    exact ht'.reparent fun _ _ _ ↦ .inr rfl
  · rw [nodup_addrs_plug, nodup_addrs_sideNode]
    simp only [mem_addrs_sideNode, addrs_nil, List.not_mem_nil, false_or, not_false_iff, true_and]
    grind
  · refine sentinel_black (L := bak :: ctxAddrs (f :: c)) h.sentinel hsent ?_ fun b hb ↦ ?_
    · intro b hb
      rcases List.mem_cons.mp hb with rfl | hb
      · exact hbs
      · exact h.rep.ne_nil b (mem_addrs_plug.mpr (.inl hb))
    · rw [List.mem_cons, not_or] at hb
      rw [hcells b hb.2, s.cells_upd_of_ne _ _ hb.1]
  · rw [hcells a hac, s.cells_upd_of_ne _ _ (Ne.symm hba), had]

/-- While `bak` stands in below it, a node's own parent link is exact. -/
theorem ParkedLink.exact {act : Ptr} (h : ParkedLink bak act (ctxParent c)) (hb : bak ∉ ctxAddrs c) :
    act = ctxParent c := by
  rcases h with h | h
  · exact h
  · cases c with
    | nil => cases h
    | cons f c =>
      obtain rfl : f.val.1 = bak := Option.some.inj h
      exact absurd (by simp) hb

/-- Relinking below the root told by `*root` is relinking below the root told by its parent. -/
theorem relinkRoot_eq {P : Ptr → Ptr → Prop} {q : Ptr}
    (hc : CtxRep s.sentinel P s.cells s.root c (some x)) (hx : x ∉ ctxAddrs c) :
    relinkRoot s (ctxParent c) (some x) q = relink s (ctxParent c) (some x) q := by
  cases c with
  | nil =>
    rw [ctxRep_nil] at hc
    simp [relinkRoot, relink, hc]
  | cons f c =>
    obtain ⟨b, hb, hroot⟩ := hc.root_mem
    have hne : some x ≠ s.root := by
      rw [hroot]
      rintro ⟨⟩
      exact hx hb
    simp [relinkRoot, relink, hne]

/-- The copy learns its parent when it hangs directly below the node replaced. -/
theorem adopt_spec {par p : Ptr} {t : Shape} (hr : Rep s.sentinel (ParkedLink bak) s.cells par p t)
    (hnd : (addrs t).Nodup) :
    ∃ s', adopt s p bak (some a) = .ok s' ∧ s'.toTree = s.toTree ∧
      (∃ par', Rep s.sentinel (ParkedLink bak) s'.cells par' p t) ∧
      ∀ b, b ≠ bak → s'.cells b = s.cells b := by
  by_cases hp : p = some bak
  · subst hp
    refine ⟨s.upd bak (·.setParent (some a)), by simp [adopt], rfl, ?_, fun b hb ↦
      s.cells_upd_of_ne _ _ hb⟩
    by_cases hnil : some bak = s.sentinel
    · exact ⟨par, by rw [hr.eq_nil_iff.mpr hnil]; exact hnil⟩
    · exact ⟨some a, hr.hang hnd hnil (.inl rfl)⟩
  · exact ⟨s, by simp [adopt, hp], rfl, ⟨par, hr⟩, fun _ _ ↦ rfl⟩

/-- The successor `a` takes the place of `x`, below which `bak` stands in for it. -/
theorem replace_spec (h : Parks s bak (plug c (.node (x, v) l r))) (hbak : bak ∈ addrs r)
    (ha : a ∉ addrs (plug c (.node (x, v) l r))) (has : some a ≠ s.sentinel) :
    ∃ s', replace s (some x) (some a) bak = .ok s' ∧
      Parks s' bak (plug c (.node (a, ⟨(s.cells a).data.key, v.color⟩) l r)) ∧
      s'.sentinel = s.sentinel ∧ s'.insert = s.insert := by
  obtain ⟨hc, hr⟩ := rep_plug_iff.mp h.rep
  rw [ptr_node] at hc hr
  obtain ⟨-, hxn, hxd, hxp, hl, hr⟩ := rep_node.mp hr
  obtain ⟨hndc, hndt, hdisj⟩ := nodup_addrs_plug.mp h.nodup
  obtain ⟨hxl, hxr, hndl, hndr, hlr⟩ := (nodup_addrs_sideNode (s := .left)).mp hndt
  simp only [mem_addrs_plug, mem_addrs_node, not_or] at ha hdisj
  obtain ⟨hac, hal, hax, har⟩ := ha
  have hbc : bak ∉ ctxAddrs c := fun hb ↦ (hdisj bak hb).2.2 hbak
  have hxp' : (s.cells x).parent = ctxParent c := hxp.exact hbc
  have hxc : x ∉ ctxAddrs c := fun hx ↦ (hdisj x hx).2.1 rfl
  have hba : bak ≠ a := fun e ↦ har (e ▸ hbak)
  have hbl : bak ∉ addrs l := fun hb ↦ hlr bak hb hbak
  -- the successor takes over links and colour
  let s₁ : State := (((s.upd a (·.setChild .left (s.cells x).left)).upd a
    (·.setChild .right (s.cells x).right)).upd a (·.setParent (s.cells x).parent)).paint a v.color
  have hs₁ : ∀ b, b ≠ a → s₁.cells b = s.cells b := fun b hb ↦ by simp [s₁, State.paint, hb]
  have hne : ∀ {L : List Addr}, a ∉ L → ∀ b ∈ L, b ≠ a := fun ha b hb e ↦ ha (e ▸ hb)
  obtain ⟨s₂, hrun₂, htree₂, ⟨par, hr₂⟩, hs₂⟩ := adopt_spec (s := s₁) (a := a)
    (hr.congr fun b hb ↦ hs₁ b (hne har b hb)) hndr
  have hsent₂ : s₂.sentinel = s.sentinel := congrArg Tree.sentinel htree₂
  have hroot₂ : s₂.root = s.root := congrArg Tree.root htree₂
  have hins₂ : s₂.insert = s.insert := congrArg Tree.insert htree₂
  have hold₂ : ∀ L : List Addr, a ∉ L → bak ∉ L → ∀ b ∈ L, s₂.cells b = s.cells b :=
    fun L ha hbak b hb ↦ (hs₂ b fun e ↦ hbak (e ▸ hb)).trans (hs₁ b (hne ha b hb))
  -- it is hung where `x` was
  have hc₂ : CtxRep s₂.sentinel (ParkedLink bak) s₂.cells s₂.root c (some x) := by
    rw [hsent₂, hroot₂]
    exact hc.congr (hold₂ _ hac hbc)
  obtain ⟨s₃, hrun₃, hc₃, hsent₃, hins₃, hs₃⟩ := relink_spec (some a) hc₂ hndc hxc
    (by rwa [hsent₂])
  rw [← relinkRoot_eq hc₂ hxc] at hrun₃
  rw [hsent₂] at hc₃ hsent₃
  have hdl : ∀ b ∈ addrs l, b ∉ ctxAddrs c := fun b hb hbc ↦ (hdisj b hbc).1 hb
  have hdr : ∀ b ∈ addrs r, b ∉ ctxAddrs c := fun b hb hbc ↦ (hdisj b hbc).2.2 hb
  -- the children are hung below it
  obtain ⟨s₄, hrun₄, hl₄, htree₄, hs₄⟩ := hang_spec (s := s₃) (P := ParkedLink bak) (q := some a)
    (.inl rfl) (by
      rw [hsent₃]
      exact hl.congr fun b hb ↦ (hs₃ b (hdl b hb)).trans (hold₂ _ hal hbl b hb)) hndl
  have hsent₄ : s₄.sentinel = s.sentinel := (congrArg Tree.sentinel htree₄).trans hsent₃
  obtain ⟨s₅, hrun₅, hr₅, htree₅, hs₅⟩ := hang_spec (s := s₄) (P := ParkedLink bak) (q := some a)
    (.inl rfl) (by
      rw [hsent₄]
      exact hr₂.congr fun b hb ↦ (hs₄ b fun hbl ↦ hlr b hbl hb).trans (hs₃ b (hdr b hb))) hndr
  have hsent₅ : s₅.sentinel = s.sentinel := (congrArg Tree.sentinel htree₅).trans hsent₄
  have ha₅ : s₅.cells a = s₁.cells a := by
    rw [hs₅ a har, hs₄ a hal, hs₃ a hac, hs₂ a hba.symm]
  have ha₁ : s₁.cells a = ⟨(s.cells x).left, (s.cells x).right, ctxParent c,
      ⟨(s.cells a).data.key, v.color⟩⟩ := by
    simp [s₁, State.paint, Cell.setChild, Cell.setParent, Cell.mapData, hxp']
  have ha₄ : s₄.cells a = s₁.cells a := by
    rw [hs₄ a hal, hs₃ a hac, hs₂ a hba.symm]
  have ha₃ : s₃.cells a = s₁.cells a := by
    rw [hs₃ a hac, hs₂ a hba.symm]
  have hr₁ : s₁.child .right (some a) = .ok (s.cells x).right := by simp [ha₁]
  have hl₃ : s₃.child .left (some a) = .ok (s.cells x).left := by simp [ha₃, ha₁]
  have hr₄ : s₄.child .right (some a) = .ok (s.cells x).right := by simp [ha₄, ha₁]
  have hrootn : s₅.root = s₃.root :=
    (congrArg Tree.root htree₅).trans (congrArg Tree.root htree₄)
  refine ⟨s₅, ?_, ⟨rep_plug_iff.mpr ⟨?_, ?_⟩, ?_, ?_⟩, hsent₅, ?_⟩
  · simp only [replace, Heap.load_some, Exec.ok_bind, State.setChild_some, State.setParent_some,
      hxd, State.setColor_some]
    change (do
      let p ← s₁.child .right (some a)
      let s' ← adopt s₁ p bak (some a)
      let s' ← relinkRoot s' (s.cells x).parent (some x) (some a)
      let s' ← hang s' (← s'.child .left (some a)) (some a) s'.sentinel
      hang s' (← s'.child .right (some a)) (some a) s'.sentinel) = .ok s₅
    rw [hr₁, Exec.ok_bind, hrun₂, Exec.ok_bind, hxp', hrun₃, Exec.ok_bind, hl₃, Exec.ok_bind,
      hrun₄, Exec.ok_bind, hr₄, Exec.ok_bind, hrun₅]
  · rw [hsent₅, ptr_node, hrootn]
    exact hc₃.congr fun b hb ↦ (hs₅ b (hdisj b hb).2.2).trans (hs₄ b (hdisj b hb).1)
  · rw [hsent₅, ptr_node, rep_node, ha₅, ha₁]
    refine ⟨rfl, has, rfl, .inl rfl, ?_, ?_⟩
    · rw [← hsent₃]
      exact hl₄.congr fun b hb ↦ hs₅ b fun hbr ↦ hlr b hb hbr
    · rw [← hsent₄]
      exact hr₅
  · rw [nodup_addrs_plug]
    refine ⟨hndc, (nodup_addrs_sideNode (s := .left)).mpr ⟨hal, har, hndl, hndr, hlr⟩, ?_⟩
    intro b hb
    simp only [mem_addrs_node, not_or]
    exact ⟨(hdisj b hb).1, fun e ↦ hac (e ▸ hb), (hdisj b hb).2.2⟩
  · refine sentinel_black (L := a :: addrs (plug c (.node (x, v) l r))) h.sentinel hsent₅ ?_ ?_
    · intro b hb
      rcases List.mem_cons.mp hb with rfl | hb
      · exact has
      · exact h.rep.ne_nil b hb
    · intro b hb
      simp only [List.mem_cons, mem_addrs_plug, mem_addrs_node, not_or] at hb
      obtain ⟨hba', hbc', hbl', -, hbr'⟩ := hb
      rw [hs₅ b hbr', hs₄ b hbl', hs₃ b hbc', hs₂ b fun e ↦ hbr' (e ▸ hbak), hs₁ b hba']
  · rw [htree₅, htree₄, hins₃, hins₂]

/-- The child of a node with one empty side. -/
theorem onlyChild_spec {q : Ptr} (hnil : s.child e (some a) = .ok s.sentinel)
    (hchild : s.child e.other (some a) = .ok q) : onlyChild s (some a) s.sentinel = .ok q := by
  cases e with
  | left =>
    rw [Side.other_left] at hchild
    simp [onlyChild, hnil, hchild, -State.child_some]
  | right =>
    rw [Side.other_right] at hchild
    by_cases hq : q = s.sentinel
    · simp [onlyChild, hnil, hchild, hq, -State.child_some]
    · simp [onlyChild, hchild, hq, -State.child_some]

/-- `dl_rbtree_del_repair_done` puts the only child of `bak` in its place. -/
theorem delRepairDone_spec {f : Frame (Addr × Data)}
    (h : Parks s bak (plug (f :: c) (sideNode e (bak, v) .nil t))) :
    ∃ s', delRepairDone s (some bak) s.sentinel = .ok s' ∧ Holds s' (plug (f :: c) t) ∧
      s'.sentinel = s.sentinel ∧ s'.insert = s.insert := by
  obtain ⟨hc, hr⟩ := rep_plug_iff.mp h.rep
  rw [ptr_sideNode] at hc hr
  obtain ⟨-, hbn, -, hbp, hnil, ht⟩ := rep_sideNode.mp hr
  obtain ⟨hndc, hndt, hdisj⟩ := nodup_addrs_plug.mp h.nodup
  obtain ⟨-, hbt, -, hndt', -⟩ := nodup_addrs_sideNode.mp hndt
  simp only [mem_addrs_sideNode, addrs_nil, List.not_mem_nil, false_or, not_or] at hdisj
  have hbc : bak ∉ ctxAddrs (f :: c) := fun hb ↦ (hdisj bak hb).1 rfl
  have hbp' : (s.cells bak).parent = some f.val.1 := hbp.exact hbc
  have hexact : ∀ act exp, (exp = none ∨ ∃ a ∈ ctxAddrs (f :: c), exp = some a) →
      ParkedLink bak act exp → act = exp := by
    rintro act exp hexp (rfl | rfl)
    · rfl
    · simp only [reduceCtorEq, Option.some.injEq, exists_eq_right', false_or] at hexp
      exact absurd hexp hbc
  obtain ⟨s₁, hrun₁, ht₁, htree₁, hs₁⟩ := hang_spec (P := ParkedLink bak) (q := some f.val.1)
    (.inl rfl) ht hndt'
  have hsent₁ : s₁.sentinel = s.sentinel := congrArg Tree.sentinel htree₁
  have hroot₁ : s₁.root = s.root := congrArg Tree.root htree₁
  have hc₁ : CtxRep s₁.sentinel (ParkedLink bak) s₁.cells s₁.root (f :: c) (some bak) := by
    rw [hsent₁, hroot₁]
    exact hc.congr fun b hb ↦ hs₁ b (hdisj b hb).2
  obtain ⟨s₂, hrun₂, hc₂, hsent₂, hins₂, hs₂⟩ := relink_spec (ptr s.sentinel t) hc₁ hndc hbc
    (by rwa [hsent₁])
  have hsent : s₂.sentinel = s.sentinel := hsent₂.trans hsent₁
  refine ⟨s₂, ?_, ⟨rep_plug_iff.mpr ⟨?_, ?_⟩, ?_, ?_⟩, hsent, ?_⟩
  · have hchild := onlyChild_spec (s := s) (a := bak) (e := e) (q := ptr s.sentinel t)
      (by simpa using hnil) (by simpa using ht.eq_ptr)
    have hq : (s.cells bak).child e.other = ptr s.sentinel t := ht.eq_ptr
    rw [hq] at hrun₁
    simp only [ctxParent_cons, relink, reduceCtorEq, if_false] at hrun₂
    simp only [delRepairDone, hchild, Exec.ok_bind, State.parent_some, hbp', hrun₁]
    rw [← hrun₂]
    simp only [eq_comm]
  · rw [hsent]
    rw [hsent₁] at hc₂
    exact hc₂.imp hexact
  · rw [hsent]
    have ht₂ := ht₁.congr fun b hb ↦ hs₂ b fun hbc ↦ (hdisj b hbc).2 hb
    rw [ht.eq_ptr] at ht₂
    refine ht₂.imp ?_
    rintro act exp hexp (rfl | rfl)
    · rfl
    · rcases hexp with hexp | ⟨b, hb, hexp⟩
      · obtain rfl : bak = f.val.1 := Option.some.inj hexp
        exact absurd (by simp) hbc
      · obtain rfl : bak = b := Option.some.inj hexp
        exact absurd hb hbt
  · exact nodup_addrs_plug.mpr ⟨hndc, hndt', fun b hb ↦ (hdisj b hb).2⟩
  · refine sentinel_black (L := addrs (plug (f :: c) (sideNode e (bak, v) .nil t))) h.sentinel
      hsent (h.rep.ne_nil) fun b hb ↦ ?_
    simp only [mem_addrs_plug, mem_addrs_sideNode, not_or] at hb
    rw [hs₂ b hb.1, hs₁ b hb.2.2.2]
  · rw [hins₂, htree₁]

/-! ## Taking out -/

/-- A node with an empty side is red and a leaf, or black with at most one red leaf below. -/
theorem balanced_one_child {w : Addr × Data} {b : Bool} (h : Balanced IsRed (sideNode e w .nil t) b n) :
    (w.2.color = .red ∧ t = .nil ∧ n = 0) ∨
      (w.2.color = .black ∧ n = 1 ∧ (t = .nil ∨ ∃ u, u.2.color = .red ∧ t = .node u .nil .nil)) := by
  have hleaf : Balanced IsRed t false 0 → t = .nil := fun ht ↦ by
    cases ht
    rfl
  rcases balanced_sideNode_iff.mp h with ⟨hw, rfl, hnil, ht⟩ | ⟨hw, rfl, m, cx, cy, rfl, hnil, ht⟩
  · obtain ⟨-, rfl⟩ := balanced_nil_iff.mp hnil
    exact .inl ⟨hw, hleaf ht, rfl⟩
  · obtain ⟨-, rfl⟩ := balanced_nil_iff.mp hnil
    have hblack : w.2.color = .black := by
      cases hcol : w.2.color with
      | black => rfl
      | red => exact absurd hcol hw
    refine .inr ⟨hblack, rfl, ?_⟩
    cases ht with
    | nil => exact .inl rfl
    | @red u l r _ hu hl hr =>
      refine .inr ⟨u, hu, ?_⟩
      cases hl
      cases hr
      rfl

theorem Parks.paint (h : Parks s bak (plug c (sideNode e (a, va) l r))) (col : Color) :
    Parks (s.paint a col) bak (plug c (sideNode e (a, { va with color := col }) l r)) := by
  refine ⟨rep_paint h.rep h.nodup col, ?_, ?_⟩
  · simpa [nodup_addrs_plug, nodup_addrs_sideNode] using h.nodup
  · refine sentinel_black (L := [a]) h.sentinel rfl (fun b hb ↦ ?_) fun b hb ↦
      s.cells_upd_of_ne _ _ (by simpa using hb)
    obtain rfl : b = a := by simpa using hb
    exact h.rep.ne_nil b (by simp [mem_addrs_plug])

theorem SameAround.ne_nil {f : Frame (Addr × Data)} {c' : Path} (h : SameAround c' (f :: c)) :
    c' ≠ [] := by
  rintro rfl
  obtain ⟨d, v, w⟩ := f
  cases d with
  | left => simpa [Cmem.after] using h.after
  | right => simpa [Cmem.before] using h.before

/-- The outermost call splices the node out after the repair. -/
theorem deleteRepair_outer {fuel : Nat} {p sentinel : Ptr} {q : Addr} {s' : State}
    (hp : s.parent p = .ok (some q)) (h : deleteRepair (fuel + 1) s p sentinel 1 = .ok s') :
    deleteRepair (fuel + 1) s p sentinel 0 = delRepairDone s' p sentinel := by
  simp only [deleteRepair, hp, Exec.ok_bind, reduceCtorEq, if_false, if_true, Exec.bind_eq_ok,
    Nat.one_ne_zero] at h ⊢
  obtain ⟨s₁, hs₁, b, hb, q', hq', k, hk, h⟩ := h
  rw [hs₁, Exec.ok_bind, hb, Exec.ok_bind, hq', Exec.ok_bind, hk, Exec.ok_bind]
  cases k with
  | true =>
    simp only [if_true, Exec.bind_eq_ok, Exec.pure_eq_ok, Except.ok.injEq] at h ⊢
    obtain ⟨s₂, hs₂, s₃, hs₃, rfl⟩ := h
    rw [hs₂, Exec.ok_bind, hs₃, Exec.ok_bind]
  | false =>
    simp only [Bool.false_eq_true, if_false, Exec.bind_eq_ok, Exec.pure_eq_ok,
      Except.ok.injEq] at h ⊢
    obtain ⟨s₂, hs₂, rfl⟩ := h
    rw [hs₂, Exec.ok_bind]

/-- Taking the copy out leaves a balanced tree without it. -/
theorem takeOut_spec (fuel : Nat) {f : Frame (Addr × Data)} {b b' : Bool}
    (h : Parks s bak (plug (f :: c) (sideNode e (bak, v) .nil t)))
    (hbal : Balanced IsRed (sideNode e (bak, v) .nil t) b n) (hole : Hole IsRed (f :: c) b' n)
    (hfuel : (f :: c).length < fuel) :
    ∃ s' T', takeOut fuel s v.color (ptr s.sentinel t) bak s.sentinel = .ok s' ∧ Holds s' T' ∧
      idents T' = idents (plug (f :: c) t) ∧ (∃ m, Balanced IsRed T' false m) ∧
      s'.sentinel = s.sentinel ∧ s'.insert = s.insert := by
  rcases balanced_one_child hbal with ⟨hv, rfl, rfl⟩ | ⟨hv, rfl, rfl | ⟨⟨w, vw⟩, hw, rfl⟩⟩
  · -- a red leaf
    obtain ⟨s', hrun, h', hsent, hins⟩ := delRepairDone_spec h
    refine ⟨s', _, ?_, h', rfl, hole.plug .nil nofun, hsent, hins⟩
    simp only at hv
    simp [takeOut, hv, hrun]
  · -- a black leaf
    have hleaf : sideNode e (bak, v) .nil .nil = (.node (bak, v) .nil .nil : Shape) := by
      cases e <;> rfl
    rw [hleaf] at h
    obtain ⟨fuel, rfl⟩ : ∃ m, fuel = m + 1 := ⟨fuel - 1, by omega⟩
    have hbp := Holds.parent (d := .left) h.holds
    obtain ⟨s₁, c₁, hrun₁, hturn⟩ := deleteRepair_spec h.holds hole hfuel
    obtain ⟨f₁, c₁, rfl⟩ := List.exists_cons_of_ne_nil hturn.same.ne_nil
    obtain ⟨s', hrun, h', hsent, hins⟩ := delRepairDone_spec (e := .left) hturn.holds.parks
    obtain ⟨b₁, hole₁⟩ := hturn.hole
    refine ⟨s', _, ?_, h', hturn.same.idents_eq _, hole₁.plug .nil nofun,
      hsent.trans hturn.keeps.sentinel, hins.trans hturn.keeps.insert⟩
    rw [hturn.keeps.sentinel] at hrun
    simp only at hv
    rw [ctxParent_cons] at hbp
    simp [takeOut, hv, deleteRepair_outer hbp hrun₁, hrun]
  · -- a black node with a red leaf below
    have hP : Parks s bak (plug (⟨e.other, (bak, v), .nil⟩ :: f :: c)
        (sideNode .left (w, vw) .nil .nil)) := by
      rwa [plug_cons_other]
    have hws : some w ≠ s.sentinel := h.rep.ne_nil w (by simp [mem_addrs_plug])
    have h₁ := hP.paint .black
    rw [plug_cons_other] at h₁
    obtain ⟨s', hrun, h', hsent, hins⟩ := delRepairDone_spec h₁
    refine ⟨s', _, ?_, h', ?_, hole.plug (.black nofun .nil .nil) nofun, hsent, hins⟩
    · simp only at hv
      simpa [takeOut, hv, hws] using hrun
    · rw [idents_plug, idents_plug]
      simp [idents]

/-! ## Deleting -/

theorem clear_spec (s : State) (x : Addr) :
    ∃ s', clear s (some x) = .ok s' ∧ s'.toTree = s.toTree ∧ ∀ b, b ≠ x → s'.cells b = s.cells b :=
  ⟨_, rfl, rfl, fun b hb ↦ by simp [hb]⟩

theorem selectNode_one (fuel : Nat) (h : Holds s (plug c (sideNode e (x, v) .nil t))) :
    selectNode fuel s (some x) = .ok (some x, ptr s.sentinel t) := by
  have hnil := h.child
  have hchild := h.child_other
  cases e with
  | left =>
    rw [Side.other_left] at hchild
    simp only [selectNode, State.left, hnil, State.right, hchild, ptr_nil, Exec.ok_bind, if_true]
    rfl
  | right =>
    rw [Side.other_right] at hchild
    simp only [selectNode, State.left, hnil, State.right, hchild, ptr_nil, Exec.ok_bind, if_true]
    split_ifs with ht
    · rw [ht]
      rfl
    · rfl

theorem selectNode_two {fuel : Nat}
    (h : Holds s (plug c (.node (x, v) l r))) (hl : l ≠ .nil) (hr : r ≠ .nil)
    (hfuel : r.height ≤ fuel) :
    ∃ k a va w, r = plug k (.node (a, va) .nil w) ∧ before k = [] ∧
      selectNode fuel s (some x) = .ok (some a, ptr s.sentinel w) := by
  have hL : Holds s (plug (⟨.left, (x, v), r⟩ :: c) l) := h
  have hR : Holds s (plug (⟨.right, (x, v), l⟩ :: c) r) := h
  have hl' := Holds.child (d := .left) h
  have hr' := Holds.child_other (d := .left) h
  rw [Side.other_left] at hr'
  obtain ⟨k, a, va, w, rfl, hk, hrun⟩ := min_spec hR hr hfuel
  have hA : Holds s (plug (k ++ ⟨.right, (x, v), l⟩ :: c) (sideNode .left (a, va) .nil w)) := by
    rw [plug_append]
    exact hR
  refine ⟨k, a, va, w, rfl, hk, ?_⟩
  have hlne := mt hL.focus.2.eq_nil_iff.mpr hl
  have hrne := mt hR.focus.2.eq_nil_iff.mpr hr
  simp only [selectNode, State.left, State.right, hl', hr', Exec.ok_bind, if_neg hlne, if_neg hrne,
    hrun, onlyChild_spec hA.child hA.child_other]
  rfl

/-- The links of the state are those of the tree `T`, the root's parent link apart. -/
structure Linked (s : State) (T : Shape) : Prop where
  /-- The links and data in memory are those of `T`. -/
  rep : ∃ par, Rep s.sentinel (· = ·) s.cells par s.root T
  /-- No node occurs twice. -/
  nodup : (addrs T).Nodup
  /-- The sentinel is a black node. -/
  sentinel : ∃ z, s.sentinel = some z ∧ (s.cells z).data.color = .black

/-- What deleting a node from `T` achieves: the tree `T'` without it is balanced. -/
def Deletes (s : State) (T : Shape) (x : Addr) (run : Exec State) : Prop :=
  ∃ s' T', run = .ok s' ∧ Linked s' T' ∧ idents T' = (idents T).filter (·.1 ≠ x) ∧
    RedBlack IsRed T' ∧ s'.sentinel = s.sentinel ∧ s'.insert = s.insert

/-- The links of the state are those of the tree `T`, and the root's parent link is `par`. -/
structure LinkedUnder (par : Ptr) (s : State) (T : Shape) : Prop where
  /-- The links and data in memory are those of `T`. -/
  rep : Rep s.sentinel (· = ·) s.cells par s.root T
  /-- No node occurs twice. -/
  nodup : (addrs T).Nodup
  /-- The sentinel is a black node. -/
  sentinel : ∃ z, s.sentinel = some z ∧ (s.cells z).data.color = .black

theorem Holds.linkedUnder (h : Holds s T) : LinkedUnder none s T := ⟨h.rep, h.nodup, h.sentinel⟩

theorem LinkedUnder.linked {par : Ptr} (h : LinkedUnder par s T) : Linked s T :=
  ⟨⟨par, h.rep⟩, h.nodup, h.sentinel⟩

/-- What deleting a node from `T` achieves, with the parent link of the new root. -/
def DeletesUnder (par : Ptr) (s : State) (T : Shape) (x : Addr) (run : Exec State) : Prop :=
  ∃ s' T', run = .ok s' ∧ LinkedUnder par s' T' ∧ idents T' = (idents T).filter (·.1 ≠ x) ∧
    RedBlack IsRed T' ∧ s'.sentinel = s.sentinel ∧ s'.insert = s.insert

theorem DeletesUnder.deletes {par : Ptr} {run : Exec State} (h : DeletesUnder par s T x run) :
    Deletes s T x run := by
  obtain ⟨s', T', hrun, hlinked, hrest⟩ := h
  exact ⟨s', T', hrun, hlinked.linked, hrest⟩

theorem filter_fst_ne {A B : List (Addr × Int)} {i : Addr × Int}
    (h : ((A ++ i :: B).map Prod.fst).Nodup) : (A ++ i :: B).filter (·.1 ≠ i.1) = A ++ B := by
  simp only [List.map_append, List.map_cons, List.nodup_append, List.nodup_cons, List.mem_map,
    List.mem_cons] at h
  obtain ⟨-, ⟨hB, -⟩, hA⟩ := h
  rw [List.filter_append, List.filter_cons_of_neg (by simp)]
  congr 1
  · refine List.filter_eq_self.mpr fun j hj ↦ ?_
    have := hA j.1 ⟨j, hj, rfl⟩ i.1 (.inl rfl)
    simpa using this
  · refine List.filter_eq_self.mpr fun j hj ↦ ?_
    have : j.1 ≠ i.1 := fun e ↦ hB ⟨j, hj, e⟩
    simpa using this

theorem Parks.clear (h : Parks s bak T) (hx : x ∉ addrs T) (hxs : some x ≠ s.sentinel) :
    ∃ s', Rbtree.clear s (some x) = .ok s' ∧ Parks s' bak T ∧ s'.sentinel = s.sentinel ∧
      s'.insert = s.insert := by
  obtain ⟨s', hrun, htree, hcells⟩ := clear_spec s x
  have hsent : s'.sentinel = s.sentinel := congrArg Tree.sentinel htree
  refine ⟨s', hrun, ⟨?_, h.nodup, ?_⟩, hsent, congrArg Tree.insert htree⟩
  · rw [hsent, show s'.root = s.root from congrArg Tree.root htree]
    exact h.rep.congr fun b hb ↦ hcells b fun e ↦ hx (e ▸ hb)
  · refine sentinel_black (L := [x]) h.sentinel hsent (fun b hb ↦ ?_) fun b hb ↦
      hcells b (by simpa using hb)
    obtain rfl : b = x := by simpa using hb
    exact hxs

/-- A node occurs once in the in-order sequence. -/
theorem filter_idents_plug (hnd : (addrs (plug c (.node (x, v) l r))).Nodup) :
    (idents (plug c (.node (x, v) l r))).filter (·.1 ≠ x) =
      (before c).map ident ++ (idents l ++ idents r) ++ (after c).map ident := by
  have hid : idents (plug c (.node (x, v) l r)) =
      ((before c).map ident ++ idents l) ++ ident (x, v) :: (idents r ++ (after c).map ident) := by
    simp [idents_plug]
  rw [addrs_eq_idents, hid] at hnd
  rw [hid, filter_fst_ne hnd]
  simp

/-- The root has at most one child, which takes its place.  The child's parent link still leads to
the deleted node. -/
theorem delete_root {fuel : Nat} (h : Holds s (sideNode e (x, v) .nil t))
    (hrb : RedBlack IsRed (sideNode e (x, v) .nil t)) :
    DeletesUnder (some x) s (sideNode e (x, v) .nil t) x (delete fuel s (some x) bak) := by
  obtain ⟨n, hbal⟩ := redBlack_iff.mp hrb
  obtain ⟨hp, hn, hd, hpar, hnil, ht⟩ := rep_sideNode.mp h.rep
  have hroot : s.root = some x := hp
  have hcol : s.color (some x) = .ok v.color := by simp [hd]
  have hsel := selectNode_one (c := []) fuel h
  have hq : (s.cells x).child e.other = ptr s.sentinel t := ht.eq_ptr
  rw [hq] at ht
  obtain ⟨z, hz, hblack⟩ := h.sentinel
  have hzx : z ≠ x := fun e ↦ hn (by rw [hp, hz, e])
  have hleaf : t = .nil ∨ ∃ u, u.2.color = .red ∧ t = .node u .nil .nil := by
    rcases balanced_one_child hbal with ⟨-, hnil, -⟩ | ⟨-, -, hnil⟩
    · exact .inl hnil
    · exact hnil
  rcases hleaf with rfl | ⟨⟨w, vw⟩, hw, rfl⟩
  · -- the tree becomes empty
    obtain ⟨s', hrun, htree, hcells⟩ := clear_spec ((s.setRoot s.sentinel).paint z .black) x
    have hsent : s'.sentinel = s.sentinel := (congrArg Tree.sentinel htree).trans rfl
    have hroot' : s'.root = s.sentinel := (congrArg Tree.root htree).trans rfl
    refine ⟨s', .nil, ?_, ⟨by simp [hroot', hsent], List.nodup_nil, z, hsent.trans hz, ?_⟩, ?_,
      redBlack_iff.mpr ⟨0, .nil⟩, hsent, (congrArg Tree.insert htree).trans rfl⟩
    · rw [ptr_nil, hz] at hsel
      rw [hz] at hrun
      simp [delete, hsel, hcol, hroot, hrun, -State.color_some]
    · rw [hcells z hzx]
      simp [State.paint]
    · cases e <;> simp
  · -- its child becomes the root
    obtain ⟨-, hwn, hwd, -, hwl, hwr⟩ := rep_node.mp ht
    rw [ptr_node] at hwn hsel
    have hwx : w ≠ x := by
      have := (nodup_addrs_sideNode.mp h.nodup).2.1
      rintro rfl
      simp at this
    have hzw : z ≠ w := fun e ↦ hwn (by rw [hz, e])
    obtain ⟨s', hrun, htree, hcells⟩ := clear_spec ((s.setRoot (some w)).paint w .black) x
    have hsent : s'.sentinel = s.sentinel := (congrArg Tree.sentinel htree).trans rfl
    have hroot' : s'.root = some w := (congrArg Tree.root htree).trans rfl
    have hcell : s'.cells w = (s.cells w).mapData ({ · with color := .black }) := by
      rw [hcells w hwx]
      simp [State.paint, State.setRoot]
    refine ⟨s', .node (w, { vw with color := .black }) .nil .nil, ?_,
      ⟨rep_node.mpr ⟨hroot', ?_, ?_, ?_, ?_, ?_⟩, by simp [addrs], z, hsent.trans hz, ?_⟩,
      ?_, redBlack_iff.mpr ⟨1, .black (by rintro ⟨⟩) .nil .nil⟩, hsent,
      (congrArg Tree.insert htree).trans rfl⟩
    · simp [delete, hsel, hcol, hroot, hrun, -State.color_some]
    · rwa [hroot', hsent]
    · rw [hcell, Cell.data_mapData, hwd]
    · rw [hcell, Cell.parent_mapData]
      exact (rep_node.mp ht).2.2.2.1
    · rw [hcell, hsent]
      exact hwl
    · rw [hcell, hsent]
      exact hwr
    · rw [hcells z hzx, State.paint, State.cells_upd_of_ne _ _ _ hzw]
      exact hblack
    · have hxw : (w, vw.key).1 ≠ x := hwx
      cases e <;> simp [hwx]

/-- A node with at most one child, not the root, is taken out itself. -/
theorem delete_one {f : Frame (Addr × Data)} {fuel : Nat}
    (h : Holds s (plug (f :: c) (sideNode e (x, v) .nil t)))
    (hrb : RedBlack IsRed (plug (f :: c) (sideNode e (x, v) .nil t)))
    (hbak : bak ∉ addrs (plug (f :: c) (sideNode e (x, v) .nil t)))
    (hbs : some bak ≠ s.sentinel) (hfuel : (f :: c).length < fuel) :
    DeletesUnder none s (plug (f :: c) (sideNode e (x, v) .nil t)) x
      (delete fuel s (some x) bak) := by
  have hroot : some x ≠ s.root := by
    obtain ⟨b, hb, hroot⟩ := h.focus.1.root_mem
    rw [hroot]
    rintro ⟨⟩
    exact (nodup_addrs_plug.mp h.nodup).2.2 x hb (by simp)
  have hcol : s.color (some x) = .ok v.color := by simpa using h.color
  obtain ⟨s₁, hrun₁, h₁, hsent₁, hins₁, -⟩ := backup_spec h hbak hbs
  obtain ⟨n, hbal⟩ := redBlack_iff.mp hrb
  obtain ⟨b, b', m, hfocus, hole, -⟩ := hole_of_plug hbal
  have hfocus' : Balanced IsRed (sideNode e (bak, v) .nil t) b m := by
    rw [balanced_sideNode_iff] at hfocus ⊢
    exact hfocus
  have hx : x ∉ addrs (plug (f :: c) (sideNode e (bak, v) .nil t)) := by
    obtain ⟨-, hndt, hdisj⟩ := nodup_addrs_plug.mp h.nodup
    simp only [mem_addrs_plug, mem_addrs_sideNode, addrs_nil, List.not_mem_nil, false_or, not_or]
      at hbak hdisj ⊢
    exact ⟨fun hx ↦ (hdisj x hx).1 rfl, fun e ↦ hbak.2.1 e.symm, (nodup_addrs_sideNode.mp hndt).2.1⟩
  obtain ⟨s₂, hrun₂, h₂, hsent₂, hins₂⟩ := h₁.clear hx (by rw [hsent₁]; exact h.node.1)
  have hsent : s₂.sentinel = s.sentinel := hsent₂.trans hsent₁
  obtain ⟨s', T', hrun, h', hid, ⟨m', hbal'⟩, hsent', hins'⟩ := takeOut_spec fuel h₂ hfocus' hole hfuel
  refine ⟨s', T', ?_, h'.linkedUnder, ?_, redBlack_iff.mpr ⟨m', hbal'⟩, hsent'.trans hsent,
    hins'.trans (hins₂.trans hins₁)⟩
  · rw [hsent] at hrun
    simp [delete, selectNode_one fuel h, hcol, hroot, hrun₁, hrun₂, hrun, -State.color_some]
  · obtain ⟨l, r, hlr⟩ := exists_node_eq_sideNode e (x, v) .nil t
    have hlr' : idents l ++ idents r = idents t := by
      cases e <;> cases hlr <;> simp
    rw [hlr, filter_idents_plug (hlr ▸ h.nodup), hid, idents_plug, hlr']

/-- A node with two children gives its place to its successor, which is taken out. -/
theorem delete_two {fuel : Nat} (h : Holds s (plug c (.node (x, v) l r)))
    (hrb : RedBlack IsRed (plug c (.node (x, v) l r))) (hl : l ≠ .nil) (hr : r ≠ .nil)
    (hbak : bak ∉ addrs (plug c (.node (x, v) l r))) (hbs : some bak ≠ s.sentinel)
    (hfuel : (plug c (.node (x, v) l r)).height < fuel) :
    DeletesUnder none s (plug c (.node (x, v) l r)) x (delete fuel s (some x) bak) := by
  have hheight := length_le_height_plug c (.node (x, v) l r)
  have hr' : r.height ≤ fuel := by
    have := Nat.le_max_right l.height r.height
    rw [BinaryTree.height] at hheight
    omega
  obtain ⟨k, a, va, w, rfl, hk, hsel⟩ := selectNode_two h hl hr hr'
  have hplug : ∀ (y : Addr × Data) (u : Shape),
      plug c (.node y l (plug k u)) = plug (k ++ ⟨.right, y, l⟩ :: c) u := fun y u ↦ by
    rw [plug_append]
    rfl
  have hA : Holds s (plug (k ++ ⟨.right, (x, v), l⟩ :: c) (sideNode .left (a, va) .nil w)) := by
    rw [← hplug]
    exact h
  obtain ⟨f, c', hfc⟩ : ∃ f c', k ++ ⟨.right, (x, v), l⟩ :: c = f :: c' :=
    List.exists_cons_of_ne_nil (by simp)
  have hA' := hA
  rw [hfc] at hA'
  have haC : a ∉ ctxAddrs (f :: c') := fun ha ↦ (nodup_addrs_plug.mp hA'.nodup).2.2 a ha (by simp)
  have hroot : some a ≠ s.root := by
    obtain ⟨b, hb, hroot⟩ := hA'.focus.1.root_mem
    rw [hroot]
    rintro ⟨⟩
    exact haC hb
  have hax : a ≠ x := fun e ↦ haC (by rw [← hfc]; simp [ctxAddrs, ctxVals_append, ctxVals, e])
  have hcol : s.color (some a) = .ok va.color := by simpa using hA.color
  -- the copy takes the successor's place
  have hbakA : bak ∉ addrs (plug (f :: c') (sideNode .left (a, va) .nil w)) := by
    rw [← hfc, ← hplug]
    exact hbak
  obtain ⟨s₁, hrun₁, h₁, hsent₁, hins₁, hdata₁⟩ := backup_spec hA' hbakA hbs
  rw [← hfc, ← hplug] at h₁
  -- the successor takes the node's place
  have ha₁ : a ∉ addrs (plug c (.node (x, v) l (plug k (sideNode .left (bak, va) .nil w)))) := by
    rw [hplug, hfc, mem_addrs_plug, mem_addrs_sideNode]
    have hnode := (nodup_addrs_sideNode.mp (nodup_addrs_plug.mp hA'.nodup).2.1).2.1
    have hab : a ≠ bak := fun e ↦ hbakA (by simp [mem_addrs_plug, ← e])
    simp [haC, hab, hnode]
  obtain ⟨s₂, hrun₂, h₂, hsent₂, hins₂⟩ := replace_spec h₁ (by simp [mem_addrs_plug]) ha₁
    (by rw [hsent₁]; exact hA.node.1)
  rw [hdata₁] at h₂
  have hx₂ : x ∉ addrs (plug c (.node (a, ⟨va.key, v.color⟩) l
      (plug k (sideNode .left (bak, va) .nil w)))) := by
    obtain ⟨-, hndt, hdisj⟩ := nodup_addrs_plug.mp h.nodup
    obtain ⟨hxl, hxr, -⟩ := (nodup_addrs_sideNode (s := .left)).mp hndt
    have hxc : x ∉ ctxAddrs c := fun hx ↦ hdisj x hx (by simp)
    have hxb : x ≠ bak := fun e ↦ hbak (by simp [mem_addrs_plug, e])
    simp only [mem_addrs_plug, mem_addrs_node, not_or] at hxr
    simp only [mem_addrs_plug, mem_addrs_node, mem_addrs_sideNode, addrs_nil, List.not_mem_nil,
      not_or]
    exact ⟨hxc, hxl, hax.symm, hxr.1, hxb, not_false, hxr.2.2.2⟩
  obtain ⟨s₃, hrun₃, h₃, hsent₃, hins₃⟩ := h₂.clear hx₂
    (by rw [hsent₂, hsent₁]; exact (Holds.node (d := .left) h).1)
  have hsent : s₃.sentinel = s.sentinel := hsent₃.trans (hsent₂.trans hsent₁)
  obtain ⟨n, hbal⟩ := redBlack_iff.mp hrb
  rw [hplug] at hbal
  obtain ⟨b, b', m, hfocus, hole, -⟩ := hole_of_plug hbal
  have hfocus' : Balanced IsRed (sideNode .left (bak, va) .nil w) b m := by
    have hnode := (balanced_sideNode_iff (s := .left)).mp hfocus
    exact balanced_sideNode_iff.mpr hnode
  have hole' := hole.replace (w := (a, ⟨va.key, v.color⟩)) Iff.rfl
  rw [hplug] at h₃
  obtain ⟨f₃, c₃, hfc₃⟩ : ∃ f c', k ++ ⟨.right, (a, ⟨va.key, v.color⟩), l⟩ :: c = f :: c' :=
    List.exists_cons_of_ne_nil (by simp)
  rw [hfc₃] at h₃ hole'
  obtain ⟨s', T', hrun, h', hid, ⟨m', hbal'⟩, hsent', hins'⟩ := takeOut_spec fuel h₃ hfocus' hole'
    (by
      have hlen := length_le_height_plug (k ++ ⟨.right, (x, v), l⟩ :: c) (.node (a, va) .nil w)
      have : (f₃ :: c₃).length = (k ++ ⟨.right, (x, v), l⟩ :: c).length := by
        rw [← hfc₃]
        simp
      rw [← hplug] at hlen
      omega)
  refine ⟨s', T', ?_, h'.linkedUnder, ?_, redBlack_iff.mpr ⟨m', hbal'⟩, hsent'.trans hsent,
    hins'.trans (hins₃.trans (hins₂.trans hins₁))⟩
  · rw [hsent] at hrun
    have hne : some a ≠ some x := by simpa using hax
    simp [delete, hsel, hcol, hroot, hrun₁, hne, hrun₂, hrun₃, hrun, -State.color_some]
  · rw [hid, ← hfc₃, idents_plug, filter_idents_plug h.nodup, idents_plug, before_append,
      after_append, hk]
    simp [before, after, idents]

/-- `dl_rbtree_delete` removes just the given node and keeps the colours balanced. -/
theorem delete_spec (fuel : Nat) (h : Holds s T) (hrb : RedBlack IsRed T) (hx : x ∈ addrs T)
    (hbak : bak ∉ addrs T) (hbs : some bak ≠ s.sentinel) (hfuel : T.height < fuel) :
    Deletes s T x (delete fuel s (some x) bak) := by
  obtain ⟨⟨y, v⟩, hv, rfl⟩ := List.mem_map.mp hx
  obtain ⟨c, l, r, rfl⟩ := exists_plug_of_mem hv
  have hone : ∀ e t, .node (y, v) l r = sideNode e (y, v) .nil t →
      Deletes s (plug c (.node (y, v) l r)) y (delete fuel s (some y) bak) := by
    intro e t hlr
    rw [hlr] at h hrb hbak hfuel ⊢
    cases c with
    | nil => exact (delete_root h hrb).deletes
    | cons f c =>
      have hlen := length_le_height_plug (f :: c) (sideNode e (y, v) .nil t)
      exact (delete_one h hrb hbak hbs (by omega)).deletes
  by_cases hl : l = .nil
  · exact hone .left r (by rw [hl]; rfl)
  by_cases hr : r = .nil
  · exact hone .right l (by rw [hr]; rfl)
  exact (delete_two h hrb hl hr hbak hbs hfuel).deletes

theorem steady_min (s : State) (node sentinel : Ptr) :
    Steady fun fuel ↦ min fuel s node sentinel := by
  intro fuel
  induction fuel generalizing node with
  | zero => exact .timeout _
  | succ fuel ih => exact .bind_right _ fun l ↦ .ite (ih l) (.refl _)

theorem steady_deleteRepair (s : State) (n sentinel : Ptr) (nest : Nat) :
    Steady fun fuel ↦ deleteRepair fuel s n sentinel nest := by
  intro fuel
  induction fuel generalizing s n nest with
  | zero => exact .timeout _
  | succ fuel ih =>
    refine .bind_right _ fun p ↦ .ite (.refl _) ?_
    refine .bind_right _ fun s ↦ .bind_right _ fun b ↦ .bind_right _ fun p ↦ ?_
    refine .bind_right _ fun k ↦ .ite (.bind_right _ fun s ↦ ?_) (.refl _)
    exact .bind (ih s p 1) fun s ↦ .refl _

theorem steady_delete (s : State) (node : Ptr) (bak : Addr) :
    Steady fun fuel ↦ delete fuel s node bak := by
  intro fuel
  have htake : ∀ s' col child, Exec.Extends (takeOut fuel s' col child bak s.sentinel)
      (takeOut (fuel + 1) s' col child bak s.sentinel) := fun s' col child ↦
    .ite (.refl _) (.ite (.refl _) (steady_deleteRepair _ _ _ _ fuel))
  have hsel : Exec.Extends (selectNode fuel s node) (selectNode (fuel + 1) s node) := by
    refine .bind_right _ fun l ↦ .bind_right _ fun r ↦ .ite (.refl _) (.ite (.refl _) ?_)
    exact .bind (steady_min _ _ _ fuel) fun d ↦ .refl _
  refine .bind hsel fun q ↦ .bind_right _ fun col ↦ .ite (.refl _) (.bind_right _ fun s₁ ↦ ?_)
  refine .ite (.bind_right _ fun s₂ ↦ .bind_right _ fun s₃ ↦ ?_) (.bind_right _ fun s₃ ↦ ?_)
  · exact htake s₃ col q.2
  · exact htake s₃ col q.2

/-- No link of the tree `T`, nor the root, leads to the node `a`. -/
def Unreferenced (s : State) (T : Shape) (a : Addr) : Prop :=
  s.root ≠ some a ∧ ∀ b ∈ addrs T, ∀ d, (s.cells b).child d ≠ some a

theorem Linked.unreferenced (h : Linked s T) (ha : a ∉ addrs T) (hs : some a ≠ s.sentinel) :
    Unreferenced s T a := by
  obtain ⟨par, hr⟩ := h.rep
  refine ⟨hr.eq_ptr ▸ ptr_ne ha hs, fun b hb d hlink ↦ ?_⟩
  rcases hr.child_mem b hb d with hnil | ⟨b', hb', hlink'⟩
  · exact hs (hlink.symm.trans hnil)
  · obtain rfl : a = b' := Option.some.inj (hlink.symm.trans hlink')
    exact ha hb'

/-- Deleting any node of a valid red-black tree leaves a red-black tree of exactly the other
nodes in their order, whose links lead neither to the node nor to the copy on the stack. -/
theorem delete_valid {L : List (Addr × Int)} (h : IsRbtree s L T) (hx : x ∈ addrs T)
    (hbak : bak ∉ addrs T) (hbs : some bak ≠ s.sentinel) :
    ∃ s' T', Returns (fun fuel ↦ delete fuel s (some x) bak) s' ∧ Linked s' T' ∧
      idents T' = (idents T).filter (·.1 ≠ x) ∧ Ordered T' ∧ RedBlack IsRed T' ∧
      Unreferenced s' T' x ∧ Unreferenced s' T' bak := by
  obtain ⟨s', T', hrun, hlinked, hid, hrb, hsent, -⟩ := delete_spec (T.height + 1) h.holds
    h.redBlack hx hbak hbs (Nat.lt_succ_self _)
  have hmem : ∀ a ∈ addrs T', a ∈ addrs T ∧ a ≠ x := by
    intro a ha
    rw [addrs_eq_idents, hid] at ha
    obtain ⟨i, hi, rfl⟩ := List.mem_map.mp ha
    rw [List.mem_filter] at hi
    exact ⟨by rw [addrs_eq_idents]; exact List.mem_map_of_mem hi.1, by simpa using hi.2⟩
  have hord : Ordered T' := by
    rw [Ordered, hid]
    exact h.ordered.filter _
  refine ⟨s', T', (steady_delete _ _ _).returns hrun, hlinked, hid, hord, hrb, ?_, ?_⟩
  · exact hlinked.unreferenced (fun hxT ↦ (hmem x hxT).2 rfl)
      (by rw [hsent]; exact h.holds.rep.ne_nil x hx)
  · exact hlinked.unreferenced (fun hb ↦ hbak (hmem bak hb).1) (by rwa [hsent])

/-- A tree of three nodes, the root black and its children red. -/
def threeNodes : State where
  root := some 1
  sentinel := some 100
  insert := insertValue
  cells a :=
    if a = 1 then ⟨some 2, some 3, none, ⟨20, .black⟩⟩
    else if a = 2 then ⟨some 100, some 100, some 1, ⟨10, .red⟩⟩
    else if a = 3 then ⟨some 100, some 100, some 1, ⟨30, .red⟩⟩
    else ⟨none, none, none, ⟨0, .black⟩⟩

theorem isRbtree_threeNodes : IsRbtree threeNodes [(2, 10), (1, 20), (3, 30)]
    (.node (1, ⟨20, .black⟩) (.node (2, ⟨10, .red⟩) .nil .nil)
      (.node (3, ⟨30, .red⟩) .nil .nil)) where
  holds := ⟨by simp [rep_node, threeNodes], by decide, 100, rfl, rfl⟩
  nodes := .refl _
  ordered := by simp [Ordered]
  redBlack := redBlack_iff.mpr
    ⟨1, .black nofun (.red rfl .nil .nil) (.red rfl .nil .nil)⟩

theorem delete_threeNodes : ∃ s' T', Returns (fun fuel ↦ delete fuel threeNodes (some 1) 7) s' ∧
    Linked s' T' ∧ idents T' = [(2, 10), (3, 30)] := by
  obtain ⟨s', T', hret, hlinked, hid, -⟩ := delete_valid isRbtree_threeNodes
    (show 1 ∈ _ by decide) (show 7 ∉ _ by decide) (by decide)
  exact ⟨s', T', hret, hlinked, by rw [hid]; decide⟩

end Dlbase.Rbtree
