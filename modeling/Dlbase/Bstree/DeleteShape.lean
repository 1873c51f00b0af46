import Dlbase.Bstree.Shape

/-!
# AVL deletion on shapes

What `dl_bstree_delete` computes, on the tree instead of the memory.  It picks the rotation by
comparing the balance of the higher child with zero; that balance is a `ulong`, so a higher left
child is always taken to lean to the left or not at all, and a higher right child that is not
level is always taken to lean to the left.  A higher child that leans to the right is treated
in the wrong way: the code dereferences a null pointer or leaves a tree that is not balanced.
-/

namespace Dlbase.Bstree

open Cmem BinaryTree

variable {v x m : Addr × Data} {l r l' r' t t' a b M : Shape} {k : Int} {low : Prop}
  {linked : Addr → Bool} {c : Ctx (Addr × Data)}

/-! ## Deleting -/

/-- The end of `dl_bstree_delete`. -/
def rebalanced : Shape → Option Shape
  | .nil => none
  | .node v l r =>
    let balance := toInt (subWord (storedHeight l) (storedHeight r))
    if 1 < balance then
      rotR (.node v l r)
    else if balance < -1 then
      if storedBalance r = 0 then rotL (.node v l r)
      else (rotR r).bind fun r' ↦ rotL (.node v l r')
    else
      some (raise (.node v l r))

/-- `dl_bstree_min`. -/
def minNode : Shape → Option (Addr × Data)
  | .nil => none
  | .node v .nil _ => some v
  | .node _ (.node x a b) _ => minNode (.node x a b)

/-- The tree without its leftmost node. -/
def minDeleted : Shape → Option Shape
  | .nil => some .nil
  | .node _ .nil r => some r
  | .node v (.node x a b) r =>
    (minDeleted (.node x a b)).bind fun l' ↦ rebalanced (.node v l' r)

/-- Where the successor is not the right child itself, the code follows its parent link. -/
def succLinked (linked : Addr → Bool) : Shape → Bool
  | .node _ (.node x a b) _ => (minNode (.node x a b)).all fun m ↦ linked m.1
  | _ => true

/-- `dl_bstree_delete`, where `linked` tells whose parent links are not null. -/
def deleted (linked : Addr → Bool) (k : Int) : Shape → Option Shape
  | .nil => some .nil
  | .node v l r =>
    if k < v.2.key then (deleted linked k l).bind fun l' ↦ rebalanced (.node v l' r)
    else if v.2.key < k then (deleted linked k r).bind fun r' ↦ rebalanced (.node v l r')
    else if l = .nil then some r
    else if r = .nil then some l
    else if succLinked linked r then
      (minNode r).bind fun m ↦ (minDeleted r).bind fun r' ↦ rebalanced (.node m l r')
    else none

/-! ## When it goes well -/

/-- A node can bear that its left subtree becomes lower. -/
def MayLowerLeft (l r : Shape) : Prop := l.height < r.height → ¬ TiltRight r

/-- A node can bear that its right subtree becomes lower. -/
def MayLowerRight (l r : Shape) : Prop := r.height < l.height → ¬ TiltRight l

/-- A node becomes lower when its left subtree does. -/
def LowersLeft (l r : Shape) : Prop := r.height < l.height ∨ (l.height < r.height ∧ TiltLeft r)

/-- A node becomes lower when its right subtree does. -/
def LowersRight (l r : Shape) : Prop := l.height < r.height ∨ (r.height < l.height ∧ TiltLeft l)

instance MayLowerLeft.decidable (l r : Shape) : Decidable (MayLowerLeft l r) :=
  inferInstanceAs (Decidable (_ → _))

instance MayLowerRight.decidable (l r : Shape) : Decidable (MayLowerRight l r) :=
  inferInstanceAs (Decidable (_ → _))

instance LowersLeft.decidable (l r : Shape) : Decidable (LowersLeft l r) :=
  inferInstanceAs (Decidable (_ ∨ _))

instance LowersRight.decidable (l r : Shape) : Decidable (LowersRight l r) :=
  inferInstanceAs (Decidable (_ ∨ _))

/-- The tree becomes lower when it loses its leftmost node. -/
def MinLowers : Shape → Prop
  | .nil => False
  | .node _ .nil _ => True
  | .node _ (.node x a b) r => MinLowers (.node x a b) ∧ LowersLeft (.node x a b) r

/-- The leftmost node can be deleted. -/
def MinDeletable : Shape → Prop
  | .nil => True
  | .node _ .nil _ => True
  | .node _ (.node x a b) r =>
    MinDeletable (.node x a b) ∧ (MinLowers (.node x a b) → MayLowerLeft (.node x a b) r)

/-- The tree becomes lower when it loses the node with the key `k`. -/
def Lowers (k : Int) : Shape → Prop
  | .nil => False
  | .node v l r =>
    if k < v.2.key then Lowers k l ∧ LowersLeft l r
    else if v.2.key < k then Lowers k r ∧ LowersRight l r
    else l = .nil ∨ r = .nil ∨ (MinLowers r ∧ LowersRight l r)

/-- The node with the key `k` can be deleted: no rotation is needed whose higher child leans to the
right, and no null parent link is followed. -/
def Deletable (linked : Addr → Bool) (k : Int) : Shape → Prop
  | .nil => True
  | .node v l r =>
    if k < v.2.key then Deletable linked k l ∧ (Lowers k l → MayLowerLeft l r)
    else if v.2.key < k then Deletable linked k r ∧ (Lowers k r → MayLowerRight l r)
    else l = .nil ∨ r = .nil ∨
      (succLinked linked r ∧ MinDeletable r ∧ (MinLowers r → MayLowerRight l r))

instance MinLowers.decidable : DecidablePred MinLowers
  | .nil => inferInstanceAs (Decidable False)
  | .node _ .nil _ => inferInstanceAs (Decidable True)
  | .node _ (.node x a b) _ =>
    have := MinLowers.decidable (.node x a b)
    inferInstanceAs (Decidable (_ ∧ _))

instance MinDeletable.decidable : DecidablePred MinDeletable
  | .nil => inferInstanceAs (Decidable True)
  | .node _ .nil _ => inferInstanceAs (Decidable True)
  | .node _ (.node x a b) _ =>
    have := MinDeletable.decidable (.node x a b)
    inferInstanceAs (Decidable (_ ∧ (_ → _)))

instance Lowers.decidable (k : Int) : DecidablePred (Lowers k)
  | .nil => inferInstanceAs (Decidable False)
  | .node v l r =>
    have := Lowers.decidable k l
    have := Lowers.decidable k r
    inferInstanceAs (Decidable (if k < v.2.key then _ ∧ _ else if v.2.key < k then _ ∧ _
      else _ ∨ _ ∨ _ ∧ _))

instance Deletable.decidable (linked : Addr → Bool) (k : Int) : DecidablePred (Deletable linked k)
  | .nil => inferInstanceAs (Decidable True)
  | .node v l r =>
    have := Deletable.decidable linked k l
    have := Deletable.decidable linked k r
    inferInstanceAs (Decidable (if k < v.2.key then _ ∧ (_ → _) else if v.2.key < k then _ ∧ (_ → _)
      else _ ∨ _ ∨ _ ∧ _ ∧ (_ → _)))

/-! ## One step of the way up -/

/-- The tree `t'` has come from `t` by a deletion that has made it lower if `low` holds. -/
structure Shrunk (low : Prop) (t t' : Shape) : Prop where
  /-- It is balanced. -/
  avl : Avl t'
  /-- Its heights are exact. -/
  exact : Exact t'
  /-- It has become lower by one. -/
  lower : low → t'.height + 1 = t.height
  /-- It has kept its height. -/
  level : ¬ low → t'.height = t.height

/-- A wrong rotation keeps the height, but leaves a tree that is not balanced. -/
structure Spoiled (t t' : Shape) : Prop where
  /-- It is not balanced. -/
  not_avl : ¬ Avl t'
  /-- Its heights are exact. -/
  exact : Exact t'
  /-- It has kept its height. -/
  level : t'.height = t.height

/-- What a deletion makes of `t`, going well exactly if `good` holds. -/
structure Outcome (good low : Prop) (t : Shape) (o : Option Shape) : Prop where
  /-- It goes well. -/
  shrunk : good → ∃ t', o = some t' ∧ Shrunk low t t'
  /-- It fails or leaves a tree that is not balanced. -/
  spoiled : ¬ good → ∀ t', o = some t' → Spoiled t t'

theorem storedBalance_node_eq_zero (hl : Exact l) (hr : Exact r) (hb : max l.height r.height < 2 ^ 64) :
    storedBalance (.node v l r) = 0 ↔ l.height = r.height := by
  rw [storedBalance, hl.storedHeight, hr.storedHeight]
  exact subWord_eq_zero (by omega) (by omega)

/-- The right child is too high. -/
theorem rebalanced_right_heavy (hl : Exact l) (hr : Exact r) (hal : Avl l) (har : Avl r)
    (hh : r.height = l.height + 2) (ht : t.height = r.height + 1) (hb : t.height < 2 ^ 64) :
    Outcome (¬ TiltRight r) (TiltLeft r) t (rebalanced (.node v l r)) := by
  have hbal := balance_eq hl hr (by omega) (by omega) (by omega)
  have h1 : ¬ 1 < toInt (subWord (storedHeight l) (storedHeight r)) := by omega
  have h2 : toInt (subWord (storedHeight l) (storedHeight r)) < -1 := by omega
  cases r with
  | nil => simp at hh
  | node x a b =>
    obtain ⟨hab, hba, haa, hab'⟩ := avl_node.mp har
    obtain ⟨-, hea, heb⟩ := exact_node.mp hr
    rw [height_node] at hh ht
    have hzero := storedBalance_node_eq_zero (v := x) hea heb (by omega)
    simp only [rebalanced, h1, h2, if_true, if_false, tiltRight_node, tiltLeft_node, hzero]
    by_cases heq : a.height = b.height
    · -- level: one rotation
      rw [if_pos heq, rotL_node]
      refine ⟨fun _ ↦ ⟨_, rfl, ?_, ?_, fun _ ↦ by omega, fun _ ↦ ?_⟩, fun _ ↦ by omega⟩
      · simp only [avl_raise, avl_node, height_node_raise]
        exact ⟨by omega, by omega, ⟨by omega, by omega, hal, haa⟩, hab'⟩
      · exact exact_raise (exact_raise hl hea (by omega)) heb (by
          rw [height_node_raise]
          omega)
      · simp only [height_node_raise]
        omega
    · rw [if_neg heq]
      cases a with
      | nil =>
        have hnil : (.nil : Shape).height = 0 := rfl
        exact ⟨fun _ ↦ by omega, fun _ t' ht' ↦ by simp [rotR] at ht'⟩
      | node y c d =>
        obtain ⟨hcd, hdc, hac, had⟩ := avl_node.mp haa
        obtain ⟨-, hec, hed⟩ := exact_node.mp hea
        rw [height_node y] at hab hba heq hh ht
        have hrot : ((rotR (.node x (.node y c d) b)).bind fun r' ↦ rotL (.node v l r')) =
          some (raise (.node y (raise (.node v l c)) (raise (.node x d b)))) := rfl
        have hexact : Exact (raise (.node y (raise (.node v l c)) (raise (.node x d b)))) :=
          exact_raise (exact_raise hl hec (by omega)) (exact_raise hed heb (by omega)) (by
            simp only [height_node_raise]
            omega)
        rw [hrot, height_node y]
        refine ⟨fun hle ↦ ⟨_, rfl, ?_, hexact, fun _ ↦ ?_, fun _ ↦ by omega⟩, fun hlt t' ht' ↦ ?_⟩
        · -- leaning to the left: two rotations
          simp only [avl_raise, avl_node, height_node_raise]
          exact ⟨by omega, by omega, ⟨by omega, by omega, hal, hac⟩, by omega, by omega, had, hab'⟩
        · simp only [height_node_raise]
          omega
        · -- leaning to the right: two rotations as well
          obtain rfl := Option.some.inj ht'
          refine ⟨fun ha ↦ ?_, hexact, ?_⟩
          · simp only [avl_raise, avl_node] at ha
            omega
          · simp only [height_node_raise]
            omega

/-- The left child is too high. -/
theorem rebalanced_left_heavy (hl : Exact l) (hr : Exact r) (hal : Avl l) (har : Avl r)
    (hh : l.height = r.height + 2) (ht : t.height = l.height + 1) (hb : t.height < 2 ^ 64) :
    Outcome (¬ TiltRight l) (TiltLeft l) t (rebalanced (.node v l r)) := by
  have hbal := balance_eq hl hr (by omega) (by omega) (by omega)
  have h1 : 1 < toInt (subWord (storedHeight l) (storedHeight r)) := by omega
  cases l with
  | nil => simp at hh
  | node x a b =>
    obtain ⟨hab, hba, haa, hab'⟩ := avl_node.mp hal
    obtain ⟨-, hea, heb⟩ := exact_node.mp hl
    rw [height_node] at hh ht
    have hexact : Exact (raise (.node x a (raise (.node v b r)))) :=
      exact_raise hea (exact_raise heb hr (by omega)) (by
        rw [height_node_raise]
        omega)
    simp only [rebalanced, h1, if_true, tiltRight_node, tiltLeft_node, rotR_node]
    refine ⟨fun hle ↦ ⟨_, rfl, ?_, hexact, fun _ ↦ ?_, fun _ ↦ ?_⟩, fun hlt t' ht' ↦ ?_⟩
    · simp only [avl_raise, avl_node, height_node_raise]
      exact ⟨by omega, by omega, haa, by omega, by omega, hab', har⟩
    · simp only [height_node_raise]
      omega
    · simp only [height_node_raise]
      omega
    · obtain rfl := Option.some.inj ht'
      refine ⟨fun ha ↦ ?_, hexact, ?_⟩
      · simp only [avl_raise, avl_node, height_node_raise] at ha
        omega
      · simp only [height_node_raise]
        omega

/-- Neither child is too high. -/
theorem rebalanced_level (hl : Exact l) (hr : Exact r) (hlr : l.height ≤ r.height + 1)
    (hrl : r.height ≤ l.height + 1) (hb : max l.height r.height + 1 < 2 ^ 64) :
    rebalanced (.node v l r) = some (raise (.node v l r)) := by
  have hbal := balance_eq hl hr (by omega) (by omega) (by omega)
  have h1 : ¬ 1 < toInt (subWord (storedHeight l) (storedHeight r)) := by omega
  have h2 : ¬ toInt (subWord (storedHeight l) (storedHeight r)) < -1 := by omega
  simp only [rebalanced, h1, h2, if_false]

/-- One step up, from the left subtree. -/
theorem Outcome.left {good : Prop} {o : Option Shape} (h : Outcome good low l o)
    (ha : Avl (.node v l r)) (hr : Exact r) (hb : (BinaryTree.node v l r).height < 2 ^ 64) :
    Outcome (good ∧ (low → MayLowerLeft l r)) (low ∧ LowersLeft l r) (.node v l r)
      (o.bind fun l' ↦ rebalanced (.node x l' r)) := by
  obtain ⟨hlr, hrl, hal, har⟩ := avl_node.mp ha
  rw [height_node] at hb
  constructor
  · rintro ⟨hgood, hmay⟩
    obtain ⟨l', rfl, hs⟩ := h.shrunk hgood
    rw [Option.bind_some]
    by_cases hlow : low
    · have hX := hs.lower hlow
      by_cases hlt : l.height < r.height
      · obtain ⟨t', ht', hs'⟩ := (rebalanced_right_heavy (v := x) (t := .node v l r) hs.exact hr hs.avl har
          (by omega) (by rw [height_node]; omega) hb).shrunk (hmay hlow hlt)
        refine ⟨t', ht', hs'.avl, hs'.exact, fun h ↦ hs'.lower ?_, fun h ↦ hs'.level ?_⟩
        · exact (h.2.resolve_left (by omega)).2
        · exact fun htilt ↦ h ⟨hlow, .inr ⟨hlt, htilt⟩⟩
      · refine ⟨_, rebalanced_level hs.exact hr (by omega) (by omega) (by omega),
          avl_raise.mpr (avl_node.mpr ⟨by omega, by omega, hs.avl, har⟩),
          exact_raise hs.exact hr (by omega), fun h ↦ ?_, fun h ↦ ?_⟩
        · have := h.2.resolve_right fun h ↦ hlt h.1
          rw [height_node_raise, height_node]
          omega
        · have : ¬ r.height < l.height := fun h' ↦ h ⟨hlow, .inl h'⟩
          rw [height_node_raise, height_node]
          omega
    · have hX := hs.level hlow
      refine ⟨_, rebalanced_level hs.exact hr (by omega) (by omega) (by omega),
        avl_raise.mpr (avl_node.mpr ⟨by omega, by omega, hs.avl, har⟩),
        exact_raise hs.exact hr (by omega), fun h ↦ absurd h.1 hlow, fun _ ↦ ?_⟩
      rw [height_node_raise, height_node, hX]
  · intro hbad t' ht'
    obtain ⟨l', rfl, hrun⟩ := Option.bind_eq_some_iff.mp ht'
    by_cases hgood : good
    · -- the subtree is as it should be, but its sibling is too high now and leans to the right
      obtain ⟨_, he, hs⟩ := h.shrunk hgood
      cases he
      simp only [hgood, true_and, MayLowerLeft, not_forall, not_not] at hbad
      obtain ⟨hlow, hlt, htilt⟩ := hbad
      have hX := hs.lower hlow
      exact (rebalanced_right_heavy (v := x) (t := .node v l r) hs.exact hr hs.avl har (by omega)
        (by rw [height_node]; omega) hb).spoiled (not_not.mpr htilt) t' hrun
    · -- what has gone wrong below stays so
      have hs := h.spoiled hgood _ rfl
      have hX := hs.level
      rw [rebalanced_level hs.exact hr (by omega) (by omega) (by omega)] at hrun
      obtain rfl := Option.some.inj hrun
      refine ⟨fun ha' ↦ ?_, exact_raise hs.exact hr (by omega), ?_⟩
      · rw [avl_raise, avl_node] at ha'
        exact hs.not_avl ha'.2.2.1
      · rw [height_node_raise, height_node, hX]

/-- One step up, from the right subtree. -/
theorem Outcome.right {good : Prop} {o : Option Shape} (h : Outcome good low r o)
    (ha : Avl (.node v l r)) (hl : Exact l) (hb : (BinaryTree.node v l r).height < 2 ^ 64) :
    Outcome (good ∧ (low → MayLowerRight l r)) (low ∧ LowersRight l r) (.node v l r)
      (o.bind fun r' ↦ rebalanced (.node x l r')) := by
  obtain ⟨hlr, hrl, hal, har⟩ := avl_node.mp ha
  rw [height_node] at hb
  constructor
  · rintro ⟨hgood, hmay⟩
    obtain ⟨r', rfl, hs⟩ := h.shrunk hgood
    rw [Option.bind_some]
    by_cases hlow : low
    · have hX := hs.lower hlow
      by_cases hlt : r.height < l.height
      · obtain ⟨t', ht', hs'⟩ := (rebalanced_left_heavy (v := x) (t := .node v l r) hl hs.exact hal hs.avl
          (by omega) (by rw [height_node]; omega) hb).shrunk (hmay hlow hlt)
        refine ⟨t', ht', hs'.avl, hs'.exact, fun h ↦ hs'.lower ?_, fun h ↦ hs'.level ?_⟩
        · exact (h.2.resolve_left (by omega)).2
        · exact fun htilt ↦ h ⟨hlow, .inr ⟨hlt, htilt⟩⟩
      · refine ⟨_, rebalanced_level hl hs.exact (by omega) (by omega) (by omega),
          avl_raise.mpr (avl_node.mpr ⟨by omega, by omega, hal, hs.avl⟩),
          exact_raise hl hs.exact (by omega), fun h ↦ ?_, fun h ↦ ?_⟩
        · have := h.2.resolve_right fun h ↦ hlt h.1
          rw [height_node_raise, height_node]
          omega
        · have : ¬ l.height < r.height := fun h' ↦ h ⟨hlow, .inl h'⟩
          rw [height_node_raise, height_node]
          omega
    · have hX := hs.level hlow
      refine ⟨_, rebalanced_level hl hs.exact (by omega) (by omega) (by omega),
        avl_raise.mpr (avl_node.mpr ⟨by omega, by omega, hal, hs.avl⟩),
        exact_raise hl hs.exact (by omega), fun h ↦ absurd h.1 hlow, fun _ ↦ ?_⟩
      rw [height_node_raise, height_node, hX]
  · intro hbad t' ht'
    obtain ⟨r', rfl, hrun⟩ := Option.bind_eq_some_iff.mp ht'
    by_cases hgood : good
    · -- the subtree is as it should be, but its sibling is too high now and leans to the right
      obtain ⟨_, he, hs⟩ := h.shrunk hgood
      cases he
      simp only [hgood, true_and, MayLowerRight, not_forall, not_not] at hbad
      obtain ⟨hlow, hlt, htilt⟩ := hbad
      have hX := hs.lower hlow
      exact (rebalanced_left_heavy (v := x) (t := .node v l r) hl hs.exact hal hs.avl (by omega)
        (by rw [height_node]; omega) hb).spoiled (not_not.mpr htilt) t' hrun
    · -- what has gone wrong below stays so
      have hs := h.spoiled hgood _ rfl
      have hX := hs.level
      rw [rebalanced_level hl hs.exact (by omega) (by omega) (by omega)] at hrun
      obtain rfl := Option.some.inj hrun
      refine ⟨fun ha' ↦ ?_, exact_raise hl hs.exact (by omega), ?_⟩
      · rw [avl_raise, avl_node] at ha'
        exact hs.not_avl ha'.2.2.2
      · rw [height_node_raise, height_node, hX]

/-! ## The whole deletion -/

theorem minDeleted_outcome (ha : Avl t) (he : Exact t) (hb : t.height < 2 ^ 64) :
    Outcome (MinDeletable t) (MinLowers t) t (minDeleted t) := by
  induction t with
  | nil => exact ⟨fun _ ↦ ⟨_, rfl, ha, he, nofun, fun _ ↦ rfl⟩, fun h ↦ absurd trivial h⟩
  | node v l r ihl ihr =>
    obtain ⟨hlr, hrl, hal, har⟩ := avl_node.mp ha
    obtain ⟨-, hel, her⟩ := exact_node.mp he
    cases l with
    | nil =>
      refine ⟨fun _ ↦ ⟨_, rfl, har, her, fun _ ↦ ?_, fun h ↦ absurd trivial h⟩,
        fun h ↦ absurd trivial h⟩
      simp [BinaryTree.height]
    | node x a b =>
      rw [height_node] at hb
      exact (ihl hal hel (by omega)).left ha her hb

theorem exists_minNode (h : t ≠ .nil) : ∃ m, minNode t = some m := by
  induction t with
  | nil => exact absurd rfl h
  | node v l r ihl _ =>
    cases l with
    | nil => exact ⟨v, rfl⟩
    | node x a b => exact ihl (by simp)

/-- A deletion goes well exactly if `Deletable` holds. -/
theorem deleted_outcome {linked : Addr → Bool} (ha : Avl t) (he : Exact t) (hb : t.height < 2 ^ 64) :
    Outcome (Deletable linked k t) (Lowers k t) t (deleted linked k t) := by
  induction t with
  | nil => exact ⟨fun _ ↦ ⟨_, rfl, ha, he, nofun, fun _ ↦ rfl⟩, fun h ↦ absurd trivial h⟩
  | node v l r ihl ihr =>
    obtain ⟨hlr, hrl, hal, har⟩ := avl_node.mp ha
    obtain ⟨-, hel, her⟩ := exact_node.mp he
    have hb' := hb
    rw [height_node] at hb'
    simp only [Deletable, Lowers, deleted]
    split_ifs with hlt hgt hl hr hlink
    · exact (ihl hal hel (by omega)).left ha her hb
    · exact (ihr har her (by omega)).right ha hel hb
    · refine ⟨fun _ ↦ ⟨_, rfl, har, her, fun _ ↦ ?_, fun h ↦ ?_⟩, fun h ↦ ?_⟩
      · simp [hl, BinaryTree.height]
      · simp [hl] at h
      · simp [hl] at h
    · refine ⟨fun _ ↦ ⟨_, rfl, hal, hel, fun _ ↦ ?_, fun h ↦ ?_⟩, fun h ↦ ?_⟩
      · simp [hr, BinaryTree.height]
      · simp [hr] at h
      · simp [hr] at h
    · obtain ⟨m, hm⟩ := exists_minNode hr
      rw [hm, Option.bind_some]
      simpa [hl, hr, hlink] using (minDeleted_outcome har her (by omega)).right (x := m) ha hel hb
    · exact ⟨fun h ↦ by simp [hl, hr, hlink] at h, fun _ _ h ↦ nomatch h⟩

/-! ## The nodes of the new tree -/

theorem idents_rebalanced (h : rebalanced t = some t') : idents t' = idents t := by
  cases t with
  | nil => cases h
  | node v l r =>
    simp only [rebalanced] at h
    split_ifs at h
    · exact idents_rotR h
    · exact idents_rotL h
    · obtain ⟨r', hr', h⟩ := Option.bind_eq_some_iff.mp h
      simp [idents_rotL h, idents_rotR hr']
    · rw [← Option.some.inj h, idents_raise]

theorem idents_minDeleted {m : Addr × Data} (hm : minNode t = some m)
    (h : minDeleted t = some t') : idents t = ident m :: idents t' := by
  induction t generalizing t' with
  | nil => cases hm
  | node v l r ihl _ =>
    cases l with
    | nil =>
      obtain rfl := Option.some.inj hm
      obtain rfl := Option.some.inj h
      simp
    | node x a b =>
      obtain ⟨l', hl', h⟩ := Option.bind_eq_some_iff.mp h
      rw [idents_rebalanced h, idents_node, ihl hm hl', idents_node, List.cons_append]

/-- The tree loses the node with the key `k`, if it has one. -/
theorem idents_deleted {linked : Addr → Bool} (ho : Ordered t)
    (h : deleted linked k t = some t') : idents t' = (idents t).filter fun i ↦ i.2 ≠ k := by
  induction t generalizing t' with
  | nil =>
    obtain rfl := Option.some.inj h
    rfl
  | node v l r ihl ihr =>
    have ho' := ho
    rw [Ordered, idents_node, List.pairwise_append, List.pairwise_cons] at ho'
    obtain ⟨hol, ⟨hvr, hor⟩, hlv⟩ := ho'
    have hlv' : ∀ i ∈ idents l, i.2 < v.2.key := fun i hi ↦ hlv i hi (ident v) (by simp)
    have hkeep : ∀ {L : List (Addr × Int)}, (∀ i ∈ L, i.2 ≠ k) →
        L.filter (fun i ↦ i.2 ≠ k) = L := fun hL ↦
      List.filter_eq_self.mpr fun i hi ↦ decide_eq_true (hL i hi)
    rw [idents_node, List.filter_append, List.filter_cons]
    simp only [deleted] at h
    split_ifs at h with hlt hgt hl hr hlink
    · obtain ⟨l', hl', h⟩ := Option.bind_eq_some_iff.mp h
      have hr : ∀ i ∈ idents r, i.2 ≠ k := fun i hi ↦
        Int.ne_of_gt (Int.lt_trans hlt (hvr i hi))
      rw [idents_rebalanced h, idents_node, ihl hol hl', hkeep hr, if_pos]
      exact decide_eq_true (Int.ne_of_gt hlt)
    · obtain ⟨r', hr', h⟩ := Option.bind_eq_some_iff.mp h
      have hl : ∀ i ∈ idents l, i.2 ≠ k := fun i hi ↦
        Int.ne_of_lt (Int.lt_trans (hlv' i hi) hgt)
      rw [idents_rebalanced h, idents_node, ihr hor hr', hkeep hl, if_pos]
      exact decide_eq_true (Int.ne_of_lt hgt)
    all_goals
      have hv : v.2.key = k := by omega
      have hdrop : ¬ (decide ((ident v).2 ≠ k) = true) := by simpa using hv
      have hl' : ∀ i ∈ idents l, i.2 ≠ k := fun i hi ↦ hv ▸ Int.ne_of_lt (hlv' i hi)
      have hr' : ∀ i ∈ idents r, i.2 ≠ k := fun i hi ↦ hv ▸ Int.ne_of_gt (hvr i hi)
      rw [if_neg hdrop, hkeep hl', hkeep hr']
    · obtain rfl := Option.some.inj h
      simp [hl]
    · obtain rfl := Option.some.inj h
      simp [hr]
    · obtain ⟨m, hm, h⟩ := Option.bind_eq_some_iff.mp h
      obtain ⟨r', hr', h⟩ := Option.bind_eq_some_iff.mp h
      rw [idents_rebalanced h, idents_node, idents_minDeleted hm hr']

/-! ## The way to the successor -/

/-- A path that only goes to the left. -/
def LeftSpine (c : Ctx (Addr × Data)) : Prop := ∀ f ∈ c, f.side = .left

theorem leftSpine_cons {f : Frame (Addr × Data)} :
    LeftSpine (f :: c) ↔ (∃ v s, f = ⟨.left, v, s⟩) ∧ LeftSpine c := by
  obtain ⟨d, v, s⟩ := f
  simp [LeftSpine]

theorem exists_leftSpine (hm : minNode t = some m) :
    ∃ c M, t = plug c (.node m .nil M) ∧ LeftSpine c := by
  induction t with
  | nil => cases hm
  | node v l r ihl _ =>
    cases l with
    | nil =>
      obtain rfl := Option.some.inj hm
      exact ⟨[], r, rfl, by simp [LeftSpine]⟩
    | node x a b =>
      obtain ⟨c, M, hplug, hc⟩ := ihl hm
      refine ⟨c ++ [⟨.left, v, r⟩], M, by simp [hplug, plug_append, Frame.fill], fun f hf ↦ ?_⟩
      rcases List.mem_append.mp hf with hf | hf
      · exact hc f hf
      · simp [List.mem_singleton.mp hf]

theorem idents_leftSpine (hc : LeftSpine c) :
    idents (plug c t) = idents t ++ (after c).map ident := by
  induction c generalizing t with
  | nil => simp
  | cons f c ih =>
    obtain ⟨⟨v, s, rfl⟩, hc'⟩ := leftSpine_cons.mp hc
    rw [plug_cons, ih hc']
    simp [Frame.fill, after, idents]

theorem succLinked_leftSpine {f : Frame (Addr × Data)} (hc : LeftSpine (f :: c)) :
    succLinked linked (plug (f :: c) (.node m .nil M)) = linked m.1 := by
  have hup : ∀ {c : Ctx (Addr × Data)} {v x : Addr × Data} {a b r : Shape}, LeftSpine c →
      succLinked linked (plug c (.node v (.node x a b) r)) =
        (minNode (.node x a b)).all fun m ↦ linked m.1 := by
    intro c
    induction c with
    | nil => exact fun _ ↦ rfl
    | cons f c ih =>
      intro v x a b r hc
      obtain ⟨⟨w, s, rfl⟩, hc'⟩ := leftSpine_cons.mp hc
      exact ih hc'
  obtain ⟨⟨w, s, rfl⟩, hc'⟩ := leftSpine_cons.mp hc
  exact (hup hc').trans rfl

/-- Deleting the least key of a tree is the deletion of its leftmost node. -/
theorem deleted_leftSpine (hc : LeftSpine c) (hk : ∀ i ∈ (after c).map ident, k < i.2)
    (hne : t' ≠ .nil) (h : deleted linked k t = minDeleted t') :
    deleted linked k (plug c t) = minDeleted (plug c t') := by
  induction c generalizing t t' with
  | nil => exact h
  | cons f c ih =>
    obtain ⟨⟨w, s, rfl⟩, hc'⟩ := leftSpine_cons.mp hc
    simp only [after, List.cons_append, List.map_cons, List.map_append, List.mem_cons,
      List.mem_append] at hk
    refine ih hc' (fun i hi ↦ hk i (.inr (.inr hi))) (by simp [Frame.fill]) ?_
    have hlt : k < w.2.key := hk (ident w) (.inl rfl)
    cases t' with
    | nil => exact absurd rfl hne
    | node x a b => simp [Frame.fill, deleted, minDeleted, hlt, h]

theorem height_plug_congr (h : t.height = t'.height) :
    (plug c t).height = (plug c t').height := by
  induction c generalizing t t' with
  | nil => exact h
  | cons f c ih =>
    obtain ⟨d, w, s⟩ := f
    refine ih ?_
    cases d <;> simp [Frame.fill, BinaryTree.height, h]

end Dlbase.Bstree
