import Dlbase.Bstree.DeleteByKey
import Dlbase.Bstree.InsertRun

/-!
# Refused insertions into an AVL tree

`dl_bstree_insert_value` reports a duplicate by returning a null pointer, and each of its callers
stores what it returns in its child link before looking at it.  A duplicate that is found below
the root cuts the tree off at every node on the way.
-/

namespace Dlbase.Bstree

open Cmem BinaryTree

variable {P : Ptr → Ptr → Prop} {s : State} {T t : Shape} {h h' : Cells} {par p : Ptr} {a x : Addr}
  {k : Int} {v : Data} {l r : Shape}

/-- The nodes of the tree and the link to its root are the same. -/
def Unchanged (s s' : State) (T : Shape) : Prop :=
  s'.root = s.root ∧ ∀ b ∈ addrs T, s'.cells b = s.cells b

/-- The node has the key of the root, and is not itself a root with children. -/
def DuplicatesRoot (s : State) (x : Addr) : Prop :=
  ∃ a, s.root = some a ∧ (s.cells a).data.key = (s.cells x).data.key ∧
    (x = a → (s.cells x).left = none ∧ (s.cells x).right = none)

/-- What a refused `dl_bstree_insert_value` leaves at the root of a subtree: the link to the side
of the duplicate is gone. -/
def CutOff (h h' : Cells) (a : Addr) : Prop :=
  ∃ d, (h a).child d ≠ none ∧ (h' a).child d = none

/-- The branch of `dl_bstree_insert_value` that meets a refusal below. -/
theorem insertBelow_refused {insert : Cells → Ptr → Exec (Cells × Ptr)} {d : Side} {c : Ptr}
    (hc : (h a).child d = c) (hne : c ≠ none) (hrec : insert h c = .ok (h', none)) :
    insertBelow insert h d (some a) (some x) = .ok (h'.upd a (·.setChild d none), none) := by
  simp [insertBelow, child, hc, hne, hrec, setChild]

/-- A duplicate is refused at any depth; the tree is cut off on the way to it. -/
theorem insertValue_duplicate {fuel : Nat} (hr : Rep none P h par p t) (ho : Ordered t)
    (hk : k ∈ (idents t).map Prod.snd) (hx : (h x).data.key = k) (hx' : (h' x).data.key = k)
    (hsame : ∀ b, b ≠ x → h' b = h b) (hfuel : t.height ≤ fuel) :
    ∃ h₁, insertValue fuel h' p (some x) = .ok (h₁, none) ∧
      ∀ a, p = some a → ((h a).data.key = k ∧ h₁ = h') ∨ ((h a).data.key ≠ k ∧ CutOff h h₁ a) := by
  induction t generalizing par p fuel with
  | nil => simp at hk
  | node v l r ihl ihr =>
    obtain ⟨g, v⟩ := v
    rw [height_node] at hfuel
    obtain ⟨fuel, rfl⟩ : ∃ n, fuel = n + 1 := ⟨fuel - 1, by omega⟩
    have hr' := hr
    obtain ⟨rfl, -, hgd, -, hl, hrr⟩ := hr'
    have hkey : (h' g).data.key = v.key := by
      by_cases hgx : g = x
      · rw [hgx, hx', ← hx, ← hgx, hgd]
      · rw [hsame g hgx, hgd]
    have hcell : v.key ≠ k → h' g = h g := fun hne ↦ hsame g (by
      rintro rfl
      exact hne (by rw [← hx, hgd]))
    rw [Ordered, idents_node, List.pairwise_append, List.pairwise_cons] at ho
    obtain ⟨hol, ⟨hvr, hor⟩, hlv⟩ := ho
    simp only [insertValue, key, Heap.load_some, Exec.ok_bind, Exec.pure_eq_ok, hx', hkey]
    -- the branch that goes down on the side `d`
    have hdown : ∀ {d : Side} {u : Shape}, v.key ≠ k → k ∈ (idents u).map Prod.snd →
        Rep none P h (some g) ((h g).child d) u → (∃ h₁, insertValue fuel h' ((h g).child d)
          (some x) = .ok (h₁, none)) → ∃ h₁, insertBelow (fun h c ↦ insertValue fuel h c (some x))
            h' d (some g) (some x) = .ok (h₁, none) ∧ CutOff h h₁ g := by
      rintro d u hne hmem hu ⟨h₁, hrun⟩
      have hlink : (h g).child d ≠ none := fun e ↦ by
        rw [hu.eq_nil_iff.mpr e] at hmem
        simp at hmem
      exact ⟨_, insertBelow_refused (by rw [hcell hne]) hlink hrun, d, hlink, by simp⟩
    rw [idents_node, List.map_append, List.map_cons, List.mem_append, List.mem_cons] at hk
    rcases hk with hkl | rfl | hkr
    · obtain ⟨i, hi, rfl⟩ := List.mem_map.mp hkl
      have hlt : i.2 < v.key := hlv i hi (g, v.key) (by simp)
      obtain ⟨h₁, hrun, -⟩ := ihl hl hol hkl (show _ ≤ fuel by omega)
      obtain ⟨h₂, hrun₂, hcut⟩ := hdown (d := .left) (by omega) hkl hl ⟨h₁, hrun⟩
      refine ⟨h₂, by simpa [hlt] using hrun₂, ?_⟩
      rintro a ⟨⟩
      exact .inr ⟨by rw [hgd]; omega, hcut⟩
    · refine ⟨h', by simp, ?_⟩
      rintro a ⟨⟩
      exact .inl ⟨by rw [hgd], rfl⟩
    · obtain ⟨i, hi, rfl⟩ := List.mem_map.mp hkr
      have hlt : v.key < i.2 := hvr i hi
      obtain ⟨h₁, hrun, -⟩ := ihr hrr hor hkr (show _ ≤ fuel by omega)
      obtain ⟨h₂, hrun₂, hcut⟩ := hdown (d := .right) (by omega) hkr hrr ⟨h₁, hrun⟩
      refine ⟨h₂, by simpa [hlt, Int.lt_asymm hlt] using hrun₂, ?_⟩
      rintro a ⟨⟩
      exact .inr ⟨by rw [hgd]; omega, hcut⟩

/-- Nodes of a search tree with the same key are the same. -/
theorem Ordered.eq_of_key (ho : Ordered t) {i j : Addr × Int} (hi : i ∈ idents t)
    (hj : j ∈ idents t) (hij : i.2 = j.2) : i = j := by
  have hnd : ((idents t).map Prod.snd).Nodup :=
    List.pairwise_map.mpr (ho.imp fun hlt ↦ Int.ne_of_lt hlt)
  exact List.inj_on_of_nodup_map hnd hi hj hij

/-- What `dl_bstree_insert` makes of a node before it looks for its place. -/
def leafed (h : Cells) (x : Addr) : Cells :=
  (((h.upd x (·.mapData ({ · with height := 1 }))).upd x (·.setChild .left none)).upd x
    (·.setChild .right none)).upd x (·.setParent none)

theorem leafed_same (h : Cells) (x : Addr) :
    leafed h x x = ⟨none, none, none, ⟨(h x).data.key, 1⟩⟩ := by
  simp [leafed, Cell.setChild, Cell.setParent, Cell.mapData]

theorem leafed_of_ne (h : Cells) {b x : Addr} (hb : b ≠ x) : leafed h x b = h b := by
  simp [leafed, hb]

/-- Making a node a leaf leaves a valid tree as it is if the node is not in it, or is all of it. -/
theorem IsAvl.leafed_iff (h : IsAvl s T) (hroot : s.root = some a)
    (hkey : (s.cells a).data.key = (s.cells x).data.key) :
    (∀ b ∈ addrs T, leafed s.cells x b = s.cells b) ↔
      (x = a → (s.cells x).left = none ∧ (s.cells x).right = none) := by
  obtain ⟨a', v, l, r, rfl, hra⟩ := h.rep.exists_node (by simp [hroot])
  obtain rfl : a = a' := Option.some.inj (hroot.symm.trans hra)
  obtain ⟨-, -, hd, hpar, hl, hr⟩ := h.rep
  constructor
  · rintro hall rfl
    have hx := hall x (by simp)
    rw [leafed_same] at hx
    exact ⟨by rw [← hx], by rw [← hx]⟩
  · intro hleaf b hb
    by_cases hbx : b = x
    · -- the only node of the tree with that key is the root
      subst hbx
      have hba : b = a := by
        rw [addrs_eq_idents] at hb
        obtain ⟨i, hi, rfl⟩ := List.mem_map.mp hb
        have hia := h.ordered.eq_of_key hi (show (a, v.key) ∈ _ by simp) (by
          rw [← rep_key h.rep hi, ← hkey, hd])
        rw [hia]
      subst hba
      obtain ⟨hleft, hright⟩ := hleaf rfl
      rw [hleft] at hl
      rw [hright] at hr
      have hheight : (s.cells b).data.height = 1 := by
        have := h.exact.1
        rw [hl.eq_nil_iff.mpr rfl, hr.eq_nil_iff.mpr rfl] at this
        rw [hd]
        exact this
      have hnull : (s.cells b).parent = none := by simpa [Loose] using hpar
      calc leafed s.cells b b
          = ⟨none, none, none, ⟨(s.cells b).data.key, 1⟩⟩ := leafed_same _ _
        _ = ⟨(s.cells b).left, (s.cells b).right, (s.cells b).parent,
              ⟨(s.cells b).data.key, (s.cells b).data.height⟩⟩ := by
            rw [hleft, hright, hnull, hheight]
        _ = s.cells b := rfl
    · exact leafed_of_ne _ hbx

/-- `dl_bstree_insert` of a node with a key that is present returns a null pointer.  It leaves the
tree as it was exactly if the key is the root's. -/
theorem insert_duplicate (h : IsAvl s T) (hins : s.insert = insertValue)
    (hk : (s.cells x).data.key ∈ (idents T).map Prod.snd) :
    ∃ s', Returns (fun fuel ↦ insert fuel s (some x)) (s', none) ∧
      (Unchanged s s' T ↔ DuplicatesRoot s x) := by
  have hT : s.root ≠ none := fun e ↦ by
    rw [h.rep.eq_nil_iff.mpr e] at hk
    simp at hk
  obtain ⟨a, v, l, r, hshape, hroot⟩ := h.rep.exists_node hT
  have hrun₀ : ∀ fuel, insert fuel s (some x) = (s.insert fuel (leafed s.cells x) s.root (some x) >>=
      fun y ↦ if y.2 = none then .ok ({ s with cells := y.1 }, none)
        else .ok ({ s with root := y.2, cells := y.1 }, y.2)) := fun fuel ↦ if_neg hT
  have hleafed : ∀ b ≠ x, leafed s.cells x b = s.cells b := fun b hb ↦ leafed_of_ne _ hb
  obtain ⟨h₁, hrun, hcases⟩ := insertValue_duplicate h.rep h.ordered hk rfl
    (by rw [leafed_same]) hleafed (Nat.le_refl _)
  refine ⟨{ s with cells := h₁ }, (steady_insert s _ hins).returns (n := T.height)
    (by rw [hrun₀, hins, hrun]; rfl), ?_⟩
  rcases hcases a hroot with ⟨hkey, rfl⟩ | ⟨hkey, d, hlink, hcut⟩
  · refine (and_iff_right rfl).trans ((h.leafed_iff hroot hkey).trans ⟨fun hx ↦ ⟨a, hroot, hkey, hx⟩, ?_⟩)
    rintro ⟨a', hroot', -, hx⟩
    rwa [Option.some.inj (hroot.symm.trans hroot')]
  · refine iff_of_false (fun hsame ↦ ?_) ?_
    · have ha := hsame.2 a (by simp [hshape])
      exact hlink (by rw [← ha]; exact hcut)
    · rintro ⟨a', hroot', hkey', -⟩
      obtain rfl := Option.some.inj (hroot.symm.trans hroot')
      exact hkey hkey'

/-- The four nodes, and one with the key `k` that is not in the tree. -/
def fiveNodes (k : Int) : State where
  root := some 1
  insert := insertValue
  cells := fourCells.upd 7 fun _ ↦ keyed k

theorem isAvl_fiveNodes (k : Int) : IsAvl (fiveNodes k) fourShape where
  rep := isAvl_fourNodes.rep.congr (fourCells.upd_eq_on (fun _ ↦ keyed k)
    (show 7 ∉ addrs fourShape by decide))
  nodup := isAvl_fourNodes.nodup
  ordered := isAvl_fourNodes.ordered
  exact := isAvl_fourNodes.exact
  avl := isAvl_fourNodes.avl

/-- A node with the key of the root is refused and changes nothing. -/
theorem insert_duplicate_root : ∃ s', Returns (fun fuel ↦ insert fuel (fiveNodes 2) (some 7))
    (s', none) ∧ Unchanged (fiveNodes 2) s' fourShape := by
  obtain ⟨s', hret, hsame⟩ := insert_duplicate (x := 7) (isAvl_fiveNodes 2) rfl (by decide)
  exact ⟨s', hret, hsame.mpr ⟨1, rfl, by decide, fun e ↦ absurd e (by decide)⟩⟩

/-- Inserting the key 1, which is present below the root, takes its node out of the tree. -/
theorem insert_duplicate_cuts : ¬ ∀ (s : State) (T : Shape) (x : Addr), IsAvl s T →
    s.insert = insertValue → x ∉ addrs T → (s.cells x).data.key ∈ (idents T).map Prod.snd →
    ∃ s', Returns (fun fuel ↦ insert fuel s (some x)) (s', none) ∧ Unchanged s s' T := by
  intro hall
  obtain ⟨s', ⟨N, hN⟩, -, hsame⟩ := hall _ fourShape 7 (isAvl_fiveNodes 1) rfl (by decide) (by decide)
  have hrun := hN (N + 2) (Nat.le_add_right N 2)
  obtain ⟨rfl, -⟩ := Prod.mk.inj (Except.ok.inj hrun)
  have hroot := congrArg Cell.left (hsame 1 (by decide))
  exact nomatch hroot

end Dlbase.Bstree
