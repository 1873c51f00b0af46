import Dlbase.Rbtree.Insert

/-!
# Sequences of red-black insertions

The trees reached from `dl_rbtree_init` by any sequence of `dl_rbtree_insert` calls with fresh
nodes.  A sequence none of whose conflicts ends in a right child under a left child
(`Straight`) only passes through valid red-black trees of exactly the inserted nodes; one
that does can dereference a null pointer.
-/

namespace Dlbase.Rbtree

open Cmem BinaryTree

variable {s : State} {T : Shape}

/-- The states reached from `dl_rbtree_init` by insertions that return, with the inserted nodes.
Each call is given a fresh node, whose contents the caller is free to choose, and meets `ok`. -/
inductive Inserted (ok : State → Addr → Int → Prop) (cells : Cells) (z : Addr) :
    List (Addr × Int) → State → Prop where
  /-- The tree has been set up. -/
  | init : Inserted ok cells z [] (init cells z insertValue)
  /-- One more node has been inserted. -/
  | insert {L : List (Addr × Int)} {s s' : State} {x : Addr} {node : Cell Addr Data} :
      Inserted ok cells z L s → x ≠ z → x ∉ L.map Prod.fst → ok s x node.data.key →
      Returns (fun fuel ↦ insert fuel (s.upd x fun _ ↦ node) (some x)) s' →
      Inserted ok cells z ((x, node.data.key) :: L) s'

/-- The conflict caused by inserting `k` does not end in a right child under a left child, and
the sentinel's links do not lead to the new node. -/
def Straight (s : State) (x : Addr) (k : Int) : Prop :=
  (∀ T, Holds s T → bendsLeftRight (descend k T []) = false) ∧
    ∀ z d, s.sentinel = some z → (s.cells z).child d ≠ some x

/-- What holds between the calls of a sequence of insertions. -/
structure InsertInv (z : Addr) (L : List (Addr × Int)) (s : State) (T : Shape) : Prop where
  /-- The tree is a valid red-black tree of the inserted nodes. -/
  valid : IsRbtree s L T
  /-- Nodes are hung into the tree by `dl_rbtree_insert_value`. -/
  insert : s.insert = insertValue
  /-- The sentinel is the one the tree was set up with. -/
  sentinel : s.sentinel = some z
  /-- The sentinel's links lead out of the tree. -/
  noStray : NoStray s T

/-- Memory outside the tree can be written without touching the tree. -/
theorem Holds.upd_outside {a : Addr} {f : Cell Addr Data → Cell Addr Data} (h : Holds s T)
    (ha : a ∉ addrs T) (hs : some a ≠ s.sentinel) : Holds (s.upd a f) T := by
  obtain ⟨z, hz, hblack⟩ := h.sentinel
  refine ⟨h.rep.congr (s.cells_upd_eq_on f ha), h.nodup, z, hz, ?_⟩
  rwa [State.cells_upd_of_ne]
  rintro rfl
  exact hs hz.symm

theorem insertInv_init (cells : Cells) (z : Addr) :
    InsertInv z [] (init cells z insertValue) .nil where
  valid :=
    { holds := ⟨by simp [init], List.nodup_nil, z, rfl, by simp [init]⟩
      nodes := .nil
      ordered := .nil
      redBlack := redBlack_iff.mpr ⟨0, .nil⟩ }
  insert := rfl
  sentinel := rfl
  noStray _ _ _ _ _ := by simp

theorem IsRbtree.mem_addrs_iff {L : List (Addr × Int)} (h : IsRbtree s L T) {a : Addr} :
    a ∈ addrs T ↔ a ∈ L.map Prod.fst := by
  rw [addrs_eq_idents]
  exact (h.nodes.map _).mem_iff

/-- An insertion that meets the condition returns and keeps the invariant. -/
theorem InsertInv.step {z x : Addr} {L : List (Addr × Int)} {node : Cell Addr Data}
    (h : InsertInv z L s T) (hxz : x ≠ z) (hx : x ∉ L.map Prod.fst)
    (hok : Straight s x node.data.key) :
    ∃ s' T', Returns (fun fuel ↦ Rbtree.insert fuel (s.upd x fun _ ↦ node) (some x)) s' ∧
      InsertInv z ((x, node.data.key) :: L) s' T' := by
  have hxT : x ∉ addrs T := fun hxT ↦ hx (h.valid.mem_addrs_iff.mp hxT)
  have hxs : some x ≠ s.sentinel := by simpa [h.sentinel] using hxz
  obtain ⟨hholds, hnodes, hord, hrb⟩ := h.valid
  have hz : (s.upd x fun _ ↦ node).cells z = s.cells z := s.cells_upd_of_ne _ _ hxz.symm
  have hstray : NoStray (s.upd x fun _ ↦ node) T := fun y d a hy hya ↦ by
    obtain rfl : z = y := Option.some.inj (h.sentinel.symm.trans hy)
    exact h.noStray z d a hy (hz ▸ hya)
  have hstrayx : ∀ y d, s.sentinel = some y → ((s.upd x fun _ ↦ node).cells y).child d ≠ some x := by
    intro y d hy
    obtain rfl : z = y := Option.some.inj (h.sentinel.symm.trans hy)
    rw [hz]
    exact hok.2 z d hy
  obtain ⟨s', T', hrun, hvalid, hsent, hins, hcells⟩ := insert_spec (T.height + 1)
    ⟨hholds.upd_outside hxT hxs, hnodes, hord, hrb⟩ h.insert (k := node.data.key) (by simp) hxT hxs
    (Nat.lt_succ_self _) (hok.1 T hholds) hstray hstrayx
  refine ⟨s', T', (steady_insert (s.upd x fun _ ↦ node) _ h.insert).returns hrun, hvalid, hins.trans h.insert,
    hsent.trans h.sentinel, ?_⟩
  intro y d a hy hya ha
  have hyz : s.sentinel = some y := hsent.symm.trans hy
  obtain rfl : z = y := Option.some.inj (h.sentinel.symm.trans hyz)
  rw [hcells z (fun hzT ↦ hholds.rep.ne_nil z hzT h.sentinel.symm) hxz.symm] at hya
  rcases List.mem_cons.mp (hvalid.mem_addrs_iff.mp ha) with rfl | ha
  · exact hstrayx z d hyz hya
  · exact hstray z d a hyz hya ((IsRbtree.mem_addrs_iff h.valid).mpr ha)

theorem Inserted.invariant {cells : Cells} {z : Addr} {L : List (Addr × Int)}
    (h : Inserted Straight cells z L s) : ∃ T, InsertInv z L s T := by
  induction h with
  | init => exact ⟨.nil, insertInv_init cells z⟩
  | insert _ hxz hx hok hret ih =>
    obtain ⟨T, hT⟩ := ih
    obtain ⟨s', T', hret', hinv⟩ := hT.step hxz hx hok
    obtain rfl := hret.unique hret'
    exact ⟨T', hinv⟩

/-- In a sequence of insertions without a left-right conflict, every call returns and leaves a
valid red-black tree of exactly the inserted nodes. -/
theorem insert_run {cells : Cells} {z : Addr} {L : List (Addr × Int)}
    (h : Inserted Straight cells z L s) :
    (∃ T, IsRbtree s L T) ∧
      ∀ (x : Addr) (node : Cell Addr Data), x ≠ z → x ∉ L.map Prod.fst →
        Straight s x node.data.key →
        ∃ s' T', Returns (fun fuel ↦ Rbtree.insert fuel (s.upd x fun _ ↦ node) (some x)) s' ∧
          IsRbtree s' ((x, node.data.key) :: L) T' := by
  obtain ⟨T, hT⟩ := h.invariant
  refine ⟨⟨T, hT.valid⟩, fun x node hxz hx hok ↦ ?_⟩
  obtain ⟨s', T', hret, hinv⟩ := hT.step hxz hx hok
  exact ⟨s', T', hret, hinv.valid⟩

/-! ## Inserting 3, 1, 2 -/

/-- Zeroed memory. -/
def zeroed : Cells := fun _ ↦ ⟨none, none, none, ⟨0, .black⟩⟩

/-- A zeroed node with its key set. -/
def keyed (k : Int) : Cell Addr Data := ⟨none, none, none, ⟨k, .black⟩⟩

/-- The tree after the node at 1 has been inserted with the key 3. -/
def afterThree : State :=
  (((((init zeroed 100 insertValue).upd 1 fun _ ↦ keyed 3).upd 1 (·.setParent none)).upd 1
    (·.setChild .left (some 100))).upd 1 (·.setChild .right (some 100))).paint 1 .black
    |>.setRoot (some 1)

/-- The tree after the node at 2 has been inserted with the key 1. -/
def afterOne : State :=
  { afterThree.upd 2 fun _ ↦ keyed 1 with
    cells := hangLeaf (afterThree.upd 2 fun _ ↦ keyed 1).cells .left 1 2 (some 100) }

theorem insert_three (fuel : Nat) :
    insert fuel ((init zeroed 100 insertValue).upd 1 fun _ ↦ keyed 3) (some 1) = .ok afterThree :=
  rfl

theorem returns_one :
    Returns (fun fuel ↦ insert fuel (afterThree.upd 2 fun _ ↦ keyed 1) (some 2)) afterOne := by
  refine ⟨1, fun fuel hf ↦ ?_⟩
  obtain ⟨m, rfl⟩ := Nat.exists_eq_add_of_le' hf
  rfl

theorem insert_two (fuel : Nat) :
    insert (fuel + 2) (afterOne.upd 3 fun _ ↦ keyed 2) (some 3) = Exec.undef := rfl

/-- A node with the smallest key is hung below left children only. -/
theorem descend_left {k : Int} {c : Path} (hk : ∀ e ∈ idents T, k < e.2)
    (hc : ∀ f ∈ c, f.side = .left) : ∀ f ∈ descend k T c, f.side = .left := by
  induction T generalizing c with
  | nil => exact hc
  | node v l r ihl _ =>
    have hlt : k < v.2.key := hk (v.1, v.2.key) (by simp)
    rw [descend, if_pos hlt]
    exact ihl (fun e he ↦ hk e (by simp [he])) (List.forall_mem_cons.mpr ⟨rfl, hc⟩)

theorem bendsLeftRight_left {c : Path} (hc : ∀ f ∈ c, f.side = .left) :
    bendsLeftRight c = false := by
  induction c using bendsLeftRight.induct with
  | case1 f g c _ _ ih =>
    rw [bendsLeftRight, if_pos ‹_›, if_pos ‹_›]
    exact ih fun f' hf' ↦ hc f' (List.mem_cons_of_mem _ (List.mem_cons_of_mem _ hf'))
  | case2 f g c hred _ =>
    have hleft : f.side = .left := hc f List.mem_cons_self
    rw [bendsLeftRight, if_pos hred, if_neg ‹_›, hleft]
    rfl
  | case3 f g c hred => rw [bendsLeftRight, if_neg hred]
  | case4 c h => cases c with
    | nil => rfl
    | cons f c => cases c with
      | nil => rfl
      | cons g c => exact absurd rfl (h f g c)

/-- Keys may be inserted in descending order. -/
theorem InsertInv.straight {z x : Addr} {L : List (Addr × Int)} {k : Int} (h : InsertInv z L s T)
    (hk : ∀ e ∈ L, k < e.2) (hx : ∀ d, (s.cells z).child d ≠ some x) : Straight s x k := by
  refine ⟨fun T' hT' ↦ ?_, fun y d hy ↦ ?_⟩
  · obtain rfl : T = T' := h.valid.holds.rep.unique hT'.rep
    exact bendsLeftRight_left (descend_left (fun e he ↦ hk e (h.valid.nodes.mem_iff.mp he))
      fun f hf ↦ absurd hf List.not_mem_nil)
  · obtain rfl : z = y := Option.some.inj (h.sentinel.symm.trans hy)
    exact hx d

/-- Inserting the keys 3, 1, 0: the node of the key 1 is rotated to the root. -/
theorem insert_run_rotated : ∃ s T, Inserted Straight zeroed 100 [(3, 0), (2, 1), (1, 3)] s ∧
    s.root = some 2 ∧ IsRbtree s [(3, 0), (2, 1), (1, 3)] T := by
  have hthree : Inserted Straight zeroed 100 [(1, 3)] afterThree := by
    refine Inserted.init.insert (by decide) List.not_mem_nil ?_ ⟨0, fun fuel _ ↦ insert_three fuel⟩
    exact (insertInv_init zeroed 100).straight (fun e he ↦ absurd he List.not_mem_nil)
      (by rintro (_ | _) <;> decide)
  have hone : Inserted Straight zeroed 100 [(2, 1), (1, 3)] afterOne := by
    obtain ⟨T, hT⟩ := hthree.invariant
    refine hthree.insert (by decide) (by decide) ?_ returns_one
    exact hT.straight (by decide) (by rintro (_ | _) <;> decide)
  have hrotate : ∃ s, (∀ fuel, insert (fuel + 2) (afterOne.upd 3 fun _ ↦ keyed 0) (some 3) = .ok s) ∧
      s.root = some 2 := ⟨_, fun _ ↦ rfl, rfl⟩
  obtain ⟨s, hrotate, hroot⟩ := hrotate
  have hzero : Inserted Straight zeroed 100 [(3, 0), (2, 1), (1, 3)] s := by
    obtain ⟨T, hT⟩ := hone.invariant
    have hret : Returns (fun fuel ↦ insert fuel (afterOne.upd 3 fun _ ↦ keyed 0) (some 3)) s := by
      refine ⟨2, fun fuel hf ↦ ?_⟩
      obtain ⟨m, rfl⟩ := Nat.exists_eq_add_of_le' hf
      exact hrotate m
    refine hone.insert (by decide) (by decide) ?_ hret
    exact hT.straight (by decide) (by rintro (_ | _) <;> decide)
  obtain ⟨⟨T, hT⟩, -⟩ := insert_run hzero
  exact ⟨s, T, hzero, hroot, hT⟩

/-- Inserting the keys 3, 1, 2 into a tree with a zeroed sentinel dereferences a null pointer. -/
theorem insert_not_total : ¬ ∀ (cells : Cells) (z : Addr) (L : List (Addr × Int)) (s : State),
    Inserted (fun _ _ _ ↦ True) cells z L s →
      (∃ T, IsRbtree s L T) ∧
        ∀ (x : Addr) (node : Cell Addr Data), x ≠ z → x ∉ L.map Prod.fst →
          ∃ s' T', Returns (fun fuel ↦ insert fuel (s.upd x fun _ ↦ node) (some x)) s' ∧
            IsRbtree s' ((x, node.data.key) :: L) T' := by
  intro hall
  have hthree : Inserted (fun _ _ _ ↦ True) zeroed 100 [(1, 3)] afterThree :=
    Inserted.init.insert (by decide) List.not_mem_nil trivial ⟨0, fun fuel _ ↦ insert_three fuel⟩
  have hone : Inserted (fun _ _ _ ↦ True) zeroed 100 [(2, 1), (1, 3)] afterOne :=
    hthree.insert (by decide) (by decide) trivial returns_one
  obtain ⟨s', T', ⟨N, hN⟩, -⟩ := (hall _ _ _ _ hone).2 3 (keyed 2) (by decide) (by decide)
  have hret := hN (N + 2) (Nat.le_add_right N 2)
  exact nomatch (insert_two N).symm.trans hret

end Dlbase.Rbtree
