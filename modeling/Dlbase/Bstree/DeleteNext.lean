import Dlbase.Bstree.DeleteParents
import Dlbase.Bstree.InsertRun

/-!
# Iterating after an AVL deletion

`dl_bstree_delete_by_key` leaves a tree whose parent links are exact, so that `dl_bstree_next` passes
all of its nodes, exactly if it rotates no subtree but the whole tree.  Otherwise the new root of a
rotated subtree has no parent, and an iteration that climbs there dereferences a null pointer.
-/

namespace Dlbase.Bstree

open Cmem BinaryTree

variable {h h' : Cells} {par p q : Ptr} {d e : Side} {a b g m x y : Addr} {v vg vm : Data}
  {t t' l r A X X' Y M : Shape} {k : Int} {c : Ctx (Addr × Data)} {o : Option Shape}

/-- Every node of the tree but the one at `q` has a parent. -/
def HungBut (q : Ptr) (h : Cells) (t : Shape) : Prop :=
  ∀ b ∈ addrs t, q ≠ some b → (h b).parent ≠ none

theorem Outcome.of_height {good low : Prop} (hout : Outcome good low t o)
    (ht : t.height = X.height) : Outcome good low X o := by
  constructor
  · intro hgood
    obtain ⟨t', he, hs⟩ := hout.shrunk hgood
    exact ⟨t', he, hs.avl, hs.exact, ht ▸ hs.lower, ht ▸ hs.level⟩
  · intro hbad t' he
    have hs := hout.spoiled hbad t' he
    exact ⟨hs.not_avl, hs.exact, ht ▸ hs.level⟩

/-- One step up: what has become of the parent links, told by where rotations have been made. -/
theorem climb_outcome {good low T : Prop} {run : Exec (Cells × Ptr)}
    (hr : Rep none Loose h par p (sideNode d (a, v) X Y))
    (hnd : (addrs (sideNode d (a, v) X Y)).Nodup) (hrunX : Yields (some a) d h (addrs X) run o)
    (hsub : ∀ X', o = some X' → (addrs X').Sublist (addrs X)) (hout : Outcome good low X o)
    (hbad : ∀ X', o = some X' → ¬ good → T)
    (hturns : ∀ h₁ q₁ X', run = .ok (h₁, q₁) → o = some X' → (Hung h₁ X' ↔ ¬ T))
    (hY : Exact Y) (hXY : X.height ≤ Y.height + 1) (hYX : Y.height ≤ X.height + 1)
    (hb : max X.height Y.height < 2 ^ 64) (hhung : Hung h Y)
    (hdel : (o.bind fun X' ↦ rebalanced (sideNode d (a, v) X' Y)) = some t')
    (hrun : (run >>= fun x ↦ setChild x.1 d (some a) x.2 >>= fun h ↦ rebalance h (some a)) =
      .ok (h', q)) :
    (HungBut q h' t' ↔ ¬ T) ∧
      ((h a).parent ≠ none → (Hung h' t' ↔ ¬ (T ∨ (low ∧ X.height < Y.height)))) := by
  obtain ⟨X', rfl, hdel⟩ := Option.bind_eq_some_iff.mp hdel
  obtain ⟨haX, -, -, -, hdisj⟩ := nodup_addrs_sideNode.mp hnd
  have hsub := hsub X' rfl
  obtain ⟨hX', hle, hge⟩ := hout.heights
  obtain ⟨h₁, z, hrun₁, rfl, hc⟩ := climb_hung hr hnd hrunX hsub hX' hY (by omega) (by omega)
    (by omega) hhung hrun
  have hturns := hturns h₁ _ X' hrun₁ rfl
  have ht : ∀ b, b ∈ addrs t' ↔ b ∈ addrs X' ∨ b = a ∨ b ∈ addrs Y := by
    intro b
    rw [mem_addrs_of_idents (idents_rebalanced hdel), mem_addrs_sideNode]
    tauto
  have hzX : z ∉ addrs X' := by
    intro hz
    rcases hc.mem with rfl | hzY
    · exact haX (hsub.subset hz)
    · exact hdisj z (hsub.subset hz) hzY
  refine ⟨?_, fun ha ↦ ?_⟩
  · rw [← hturns]
    constructor
    · intro hall b hb
      rw [← hc.low b hb]
      exact hall b ((ht b).mpr (.inl hb)) fun e ↦ hzX (Option.some.inj e ▸ hb)
    · intro hX b hb hbz
      rcases (ht b).mp hb with hb | hb
      · rw [hc.low b hb]
        exact hX b hb
      · exact hc.rest b hb fun e ↦ hbz (by rw [e])
  · rw [hc.hung_iff ha ht, hturns, ← not_or]
    by_cases htn : T
    · simp [htn]
    · have hgood : good := by
        by_contra hg
        exact htn (hbad X' rfl hg)
      rw [hout.turned_iff hgood hXY hYX]

theorem minTurns_node (hl : l ≠ .nil) : MinTurns (.node (a, v) l r) ↔
    MinTurns l ∨ (MinLowers l ∧ l.height < r.height) := by
  cases l with
  | nil => exact absurd rfl hl
  | node x b c => rw [MinTurns]

theorem minDeleted_node (hl : l ≠ .nil) : minDeleted (.node (a, v) l r) =
    (minDeleted l).bind fun l' ↦ rebalanced (.node (a, v) l' r) := by
  cases l with
  | nil => exact absurd rfl hl
  | node x b c => rfl

theorem plug_node_ne_nil (c : Ctx (Addr × Data)) : plug c (.node (a, v) l r) ≠ .nil := by
  intro hnil
  have hmem : a ∈ addrs (plug c (.node (a, v) l r)) := mem_addrs_plug.mpr (.inr (by simp))
  rw [hnil] at hmem
  simp at hmem

/-- A node with one child at most leaves the tree: its child gets its parent. -/
theorem splice_hung (hhung : HungBut p h (sideNode e (g, vg) X .nil)) (hp : p = some g)
    (hnd : (addrs (sideNode e (g, vg) X .nil)).Nodup)
    (hrun : splice h p = .ok (h', ptr none X)) :
    HungBut (ptr none X) h' X ∧ ((h g).parent ≠ none → Hung h' X) := by
  subst hp
  obtain ⟨hgX, -⟩ := nodup_addrs_sideNode.mp hnd
  have hother : ∀ b ∈ addrs X, (h b).parent ≠ none := fun b hb ↦
    hhung b (by simp [hb]) fun e ↦ hgX (Option.some.inj e ▸ hb)
  refine ⟨fun b hb hbX ↦ ?_, fun hg b hb ↦ ?_⟩
  · rw [parent_splice hrun b, if_neg hbX]
    exact hother b hb
  · rw [parent_splice hrun b]
    split_ifs
    · exact hg
    · exact hother b hb

/-- Deleting a node with one child at most: its child gets its parent. -/
theorem deleteOne_hung (hr : Rep none Loose h par (some g) (sideNode e (g, vg) X .nil))
    (hnd : (addrs (sideNode e (g, vg) X .nil)).Nodup) (hb : Below h par d (some g))
    (hpt : ∀ a, par = some a → a ∉ addrs (sideNode e (g, vg) X .nil))
    (hhung : HungBut (some g) h (sideNode e (g, vg) X .nil))
    (hrun : splice h (some g) = .ok (h', q)) :
    HungBut q h' X ∧ ((h g).parent ≠ none → Hung h' X) := by
  obtain ⟨h₁, hrun₁, -⟩ := splice_yields hr hnd hb hpt
  obtain ⟨rfl, rfl⟩ := Prod.mk.inj (Except.ok.inj (hrun₁.symm.trans hrun))
  exact splice_hung hhung rfl hnd hrun₁

/-- Deleting a node that has been put in the place of the leftmost one. -/
theorem deleteMin_hung {fuel : Nat} (hc : LeftSpine c)
    (hr : Rep none Loose h par p (plug c (.node (g, vg) .nil M)))
    (hnd : (addrs (plug c (.node (g, vg) .nil M))).Nodup)
    (ho : Ordered (plug c (.node (g, vg) .nil M))) (hb : Below h par d p)
    (hpt : ∀ a, par = some a → a ∉ addrs (plug c (.node (g, vg) .nil M)))
    (hfuel : (plug c (.node (g, vg) .nil M)).height < fuel)
    (ha : Avl (plug c (.node (m, vm) .nil M))) (he : Exact (plug c (.node (m, vm) .nil M)))
    (hlt : (plug c (.node (m, vm) .nil M)).height < 2 ^ 64)
    (hhung : Hung h (plug c (.node (g, vg) .nil M)))
    (hdel : minDeleted (plug c (.node (m, vm) .nil M)) = some t')
    (hrun : delete fuel h p vg.key = .ok (h', q)) :
    Hung h' t' ↔ ¬ MinTurns (plug c (.node (m, vm) .nil M)) := by
  induction c using List.reverseRecOn generalizing h par p d fuel t' h' q with
  | nil =>
    obtain ⟨fuel, rfl⟩ : ∃ n, fuel = n + 1 := ⟨fuel - 1, by omega⟩
    rw [plug_nil] at *
    obtain rfl : p = some g := hr.1
    obtain rfl : M = t' := Option.some.inj hdel
    simp only [delete, reduceCtorEq, if_false, key_eq hr, left_eq hr, right_eq hr, Exec.ok_bind,
      Int.lt_irrefl, ptr_nil, true_or, if_true] at hrun
    have hall := (deleteOne_hung (e := .right) hr hnd hb hpt (fun b hb _ ↦ hhung b hb) hrun).2
      (hhung g (by simp))
    exact iff_of_true hall (by rintro ⟨⟩)
  | append_singleton c f ih =>
    obtain ⟨fuel, rfl⟩ : ∃ n, fuel = n + 1 := ⟨fuel - 1, by omega⟩
    obtain ⟨⟨⟨a, v⟩, s, rfl⟩, -⟩ := leftSpine_cons.mp (fun f' hf' ↦ hc f' (by simp at hf' ⊢; exact .inr hf') :
      LeftSpine [f])
    have hc' : LeftSpine c := fun f' hf' ↦ hc f' (List.mem_append_left _ hf')
    simp only [plug_append, plug_cons, plug_nil, Frame.fill, sideNode_left] at *
    obtain rfl : p = some a := hr.1
    obtain ⟨hlr, hrl, hal, -⟩ := avl_node.mp ha
    obtain ⟨-, hel, hes⟩ := exact_node.mp he
    rw [height_node] at hlt hfuel
    have hheight : (plug c (.node (g, vg) .nil M)).height = (plug c (.node (m, vm) .nil M)).height :=
      height_plug_congr rfl
    obtain ⟨hgl, -, hndl, -, hdisj⟩ := (nodup_addrs_sideNode (s := .left)).mp hnd
    -- the key is less than all others
    have hid : idents (plug c (.node (g, vg) .nil M)) =
        (g, vg.key) :: (idents M ++ (after c).map ident) := by simp [idents_leftSpine hc']
    have hol := ho.left
    have hka : vg.key < v.key := by
      rw [Ordered, idents_node, List.pairwise_append] at ho
      exact ho.2.2 (g, vg.key) (by simp [hid]) (a, v.key) (by simp)
    have hmin : deleted (linked h) vg.key (plug c (.node (g, vg) .nil M)) =
        minDeleted (plug c (.node (m, vm) .nil M)) := by
      rw [Ordered, hid, List.pairwise_cons] at hol
      exact deleted_swapped hc' fun i hi ↦ hol.1 i (List.mem_append_right _ hi)
    have hfuel' : (plug c (.node (g, vg) .nil M)).height < fuel := by omega
    have hyields := delete_yields (k := vg.key) (rep_left hr) hndl hol
      (below_child (d := .left) hr hdisj) (fun b hb ↦ Option.some.inj hb ▸ hgl) hfuel'
    rw [hmin] at hyields
    simp only [delete, reduceCtorEq, if_false, key_eq hr, left_eq hr, Exec.ok_bind, hka,
      if_true] at hrun
    rw [minDeleted_node (plug_node_ne_nil c)] at hdel
    have hstep := climb_outcome (d := .left) (T := MinTurns (plug c (.node (m, vm) .nil M))) hr hnd hyields
      (fun X' hX' ↦ addrs_deleted_sublist hol (hmin.trans hX'))
      ((minDeleted_outcome hal hel (by omega)).of_height hheight.symm)
      (fun _ _ ↦ minTurns_of_not_minDeletable)
      (fun h₁ q₁ X' hrun₁ hX' ↦ ih hc' (rep_left hr) hndl hol (below_child (d := .left) hr hdisj)
        (fun b hb ↦ Option.some.inj hb ▸ hgl) hfuel' hal hel (by omega)
        (fun b hb ↦ hhung b (by simp [hb])) hX' hrun₁)
      hes (by omega) (by omega) (by omega) (fun b hb ↦ hhung b (by simp [hb])) hdel hrun
    rw [minTurns_node (plug_node_ne_nil c), ← hheight]
    exact hstep.2 (hhung a (by simp))

/-- What the change of places with the successor leaves of the parent links. -/
theorem swap_hung {T : Shape} (hrun : swap h (some g) (some m) = .ok h')
    (hhung : HungBut (some g) h T) :
    (∀ b ∈ addrs T, b ≠ m → (h' b).parent ≠ none) ∧
      ((h g).parent ≠ none → (h' m).parent ≠ none) := by
  constructor
  · intro b hb hbm hnull
    rcases parent_swap hrun hnull with ⟨rfl, -⟩ | ⟨hbg, -, hb'⟩
    · exact hbm rfl
    · exact hhung b hb (fun e ↦ hbg (Option.some.inj e).symm) hb'
  · intro hg hnull
    rcases parent_swap hrun hnull with ⟨-, hg'⟩ | ⟨-, hm, -⟩
    · exact hg hg'
    · exact hm rfl

/-- What a `swap` that returns makes of the tree. -/
theorem swapped_of_ok (hc : LeftSpine c)
    (hr : Rep none Loose h par p (.node (g, vg) l (plug c (.node (m, vm) .nil M))))
    (hnd : (addrs (.node (g, vg) l (plug c (.node (m, vm) .nil M)))).Nodup) (hl : l ≠ .nil)
    (hb : Below h par d p)
    (hpt : ∀ a, par = some a → a ∉ addrs (.node (g, vg) l (plug c (.node (m, vm) .nil M))))
    (hrun : swap h p (some m) = .ok h') :
    Swapped par d h vm m l (plug c (.node (g, vg) .nil M))
      (addrs (.node (g, vg) l (plug c (.node (m, vm) .nil M)))) h' := by
  cases c with
  | nil =>
    obtain ⟨h₁, hrun₁, hs⟩ := swap_adjacent hr hnd hl hb hpt
    rwa [Except.ok.inj (hrun.symm.trans hrun₁)]
  | cons f c =>
    obtain ⟨hnull, hset⟩ := swap_apart (hc f (List.mem_cons_self ..)) hr hnd hl hb hpt
    have hlink : (h m).parent ≠ none := fun e ↦ nomatch hrun.symm.trans (hnull e)
    obtain ⟨h₁, hrun₁, hs⟩ := hset hlink
    rwa [Except.ok.inj (hrun.symm.trans hrun₁)]

/-- Deleting a node with two children, which changes places with its successor: only the rotations
on the way up from there leave null parent links. -/
theorem deleteSucc_hung {fuel : Nat} {h₂ : Cells} (hc : LeftSpine c)
    (hr : Rep none Loose h par (some g) (.node (g, vg) l (plug c (.node (m, vm) .nil M))))
    (hnd : (addrs (.node (g, vg) l (plug c (.node (m, vm) .nil M)))).Nodup)
    (ho : Ordered (.node (g, vg) l (plug c (.node (m, vm) .nil M)))) (hb : Below h par d (some g))
    (hpt : ∀ a, par = some a → a ∉ addrs (.node (g, vg) l (plug c (.node (m, vm) .nil M))))
    (hfuel : (plug c (.node (m, vm) .nil M)).height < fuel)
    (ha : Avl (.node (g, vg) l (plug c (.node (m, vm) .nil M))))
    (he : Exact (.node (g, vg) l (plug c (.node (m, vm) .nil M))))
    (hlt : max l.height (plug c (.node (m, vm) .nil M)).height < 2 ^ 64)
    (hhung : HungBut (some g) h (.node (g, vg) l (plug c (.node (m, vm) .nil M)))) (hl : l ≠ .nil)
    (hdel : ((minDeleted (plug c (.node (m, vm) .nil M))).bind fun r' ↦
      rebalanced (.node (m, vm) l r')) = some t')
    (hswap : swap h (some g) (some m) = .ok h₂)
    (hrun : (right h₂ (some m) >>= fun z ↦ delete fuel h₂ z vg.key >>= fun x ↦
      setRight x.1 (some m) x.2 >>= fun h ↦ rebalance h (some m)) = .ok (h', q)) :
    (HungBut q h' t' ↔ ¬ MinTurns (plug c (.node (m, vm) .nil M))) ∧
      ((h g).parent ≠ none → (Hung h' t' ↔ ¬ (MinTurns (plug c (.node (m, vm) .nil M)) ∨
        (MinLowers (plug c (.node (m, vm) .nil M)) ∧
          (plug c (.node (m, vm) .nil M)).height < l.height)))) := by
  obtain ⟨hlr, hrl, -, har⟩ := avl_node.mp ha
  obtain ⟨-, hel, her⟩ := exact_node.mp he
  have hs := swapped_of_ok hc hr hnd hl hb hpt hswap
  obtain ⟨hhung₂, hroot₂⟩ := swap_hung hswap hhung
  obtain ⟨hordT, hlt', hperm⟩ := swapped_shape hc ho
  have hndT : (addrs (.node (m, vm) l (plug c (.node (g, vg) .nil M)))).Nodup := by
    rwa [addrs_eq_idents, (hperm.map _).nodup_iff, ← addrs_eq_idents]
  have hmem : ∀ b ∈ addrs (.node (m, vm) l (plug c (.node (g, vg) .nil M))),
      b ∈ addrs (.node (g, vg) l (plug c (.node (m, vm) .nil M))) := fun b hb ↦ by
    rwa [addrs_eq_idents, ← (hperm.map _).mem_iff, ← addrs_eq_idents]
  obtain ⟨hml, hmT, -, hndT', hlT⟩ := (nodup_addrs_sideNode (s := .left)).mp hndT
  have hheight : (plug c (.node (g, vg) .nil M)).height = (plug c (.node (m, vm) .nil M)).height :=
    height_plug_congr rfl
  have hbelow := below_child (d := .right) hs.rep fun b hb hb' ↦ hlT b hb' hb
  have hpt' : ∀ a, some m = some a → a ∉ addrs (plug c (.node (g, vg) .nil M)) := fun a e ↦
    Option.some.inj e ▸ hmT
  have hfuel' : (plug c (.node (g, vg) .nil M)).height < fuel := hheight ▸ hfuel
  have hmin : deleted (linked h₂) vg.key (plug c (.node (g, vg) .nil M)) =
      minDeleted (plug c (.node (m, vm) .nil M)) := deleted_swapped hc hlt'
  have hyields := delete_yields (k := vg.key) (rep_right hs.rep) hndT' hordT hbelow hpt' hfuel'
  rw [hmin] at hyields
  have hhT : Hung h₂ (plug c (.node (g, vg) .nil M)) := fun b hb ↦
    hhung₂ b (hmem b (by simp [hb])) fun e ↦ hmT (e ▸ hb)
  rw [right_eq hs.rep, Exec.ok_bind] at hrun
  have hstep := climb_outcome (d := .right) (T := MinTurns (plug c (.node (m, vm) .nil M)))
    hs.rep hndT hyields (fun X' hX' ↦ addrs_deleted_sublist hordT (hmin.trans hX'))
    ((minDeleted_outcome har her (by omega)).of_height hheight.symm)
    (fun _ _ ↦ minTurns_of_not_minDeletable)
    (fun h₁ q₁ X' hrun₁ hX' ↦ deleteMin_hung hc (rep_right hs.rep) hndT' hordT hbelow hpt' hfuel'
      har her (by omega) hhT hX' hrun₁)
    hel (by omega) (by omega) (by omega)
    (fun b hb ↦ hhung₂ b (hmem b (by simp [hb])) fun e ↦ hml (e ▸ hb)) hdel hrun
  rw [← hheight]
  exact ⟨hstep.1, fun hg ↦ hstep.2 (hroot₂ hg)⟩

/-- Which parent links `dl_bstree_delete` leaves null, if the nodes of the subtree, its root apart,
have a parent before. -/
theorem delete_hung {fuel : Nat} (hr : Rep none Loose h par p t) (hnd : (addrs t).Nodup)
    (ho : Ordered t) (hb : Below h par d p) (hpt : ∀ a, par = some a → a ∉ addrs t)
    (hfuel : t.height < fuel) (ha : Avl t) (he : Exact t) (hlt : t.height < 2 ^ 64)
    (hhung : HungBut p h t) (hdel : deleted (linked h) k t = some t')
    (hrun : delete fuel h p k = .ok (h', q)) :
    (HungBut q h' t' ↔ ¬ TurnsBelow k t) ∧
      ((∀ a, p = some a → (h a).parent ≠ none) → (Hung h' t' ↔ ¬ Turns k t)) := by
  induction fuel generalizing h par p d t t' h' q with
  | zero => omega
  | succ fuel ih =>
  cases t with
  | nil =>
    obtain rfl := Option.some.inj hdel
    exact ⟨iff_of_true nofun nofun, fun _ ↦ iff_of_true nofun nofun⟩
  | node v l r =>
    obtain ⟨g, vg⟩ := v
    rw [height_node] at hfuel hlt
    obtain rfl : p = some g := hr.1
    obtain ⟨hlr, hrl, hal, har⟩ := avl_node.mp ha
    obtain ⟨-, hel, her⟩ := exact_node.mp he
    obtain ⟨hgl, hgr, hndl, hndr, hdisj⟩ := (nodup_addrs_sideNode (s := .left)).mp hnd
    have hhl : Hung h l := fun b hb ↦ hhung b (by simp [hb]) fun e ↦ hgl (Option.some.inj e ▸ hb)
    have hhr : Hung h r := fun b hb ↦ hhung b (by simp [hb]) fun e ↦ hgr (Option.some.inj e ▸ hb)
    simp only [deleted] at hdel
    simp only [TurnsBelow, Turns]
    by_cases hklt : k < vg.key
    · rw [if_pos hklt] at hdel
      simp only [delete, reduceCtorEq, if_false, key_eq hr, left_eq hr, Exec.ok_bind, hklt,
        if_true] at hrun
      have hbelow := below_child (d := .left) hr hdisj
      have hpt' : ∀ a, some g = some a → a ∉ addrs l := fun a e ↦ Option.some.inj e ▸ hgl
      have hfuel' : l.height < fuel := by omega
      have hstep := climb_outcome (d := .left) (T := Turns k l) hr hnd
        (delete_yields (rep_left hr) hndl ho.left hbelow hpt' hfuel')
        (fun X' ↦ addrs_deleted_sublist ho.left) (deleted_outcome hal hel (by omega))
        (fun X' ↦ turns_of_not_deletable)
        (fun h₁ q₁ X' hrun₁ hX' ↦ (ih (rep_left hr) hndl ho.left hbelow hpt' hfuel' hal hel
          (by omega) (fun b hb _ ↦ hhl b hb) hX' hrun₁).2 fun a e ↦ hhl a (mem_addrs_of_ptr e))
        her hlr hrl (by omega) hhr hdel hrun
      simp only [hklt, if_true]
      exact ⟨hstep.1, fun hg ↦ hstep.2 (hg g rfl)⟩
    by_cases hkgt : vg.key < k
    · rw [if_neg hklt, if_pos hkgt] at hdel
      simp only [delete, reduceCtorEq, if_false, key_eq hr, right_eq hr, Exec.ok_bind, hklt, hkgt,
        if_true] at hrun
      have hbelow := below_child (d := .right) hr fun b hb hb' ↦ hdisj b hb' hb
      have hpt' : ∀ a, some g = some a → a ∉ addrs r := fun a e ↦ Option.some.inj e ▸ hgr
      have hfuel' : r.height < fuel := by omega
      have hstep := climb_outcome (d := .right) (T := Turns k r) hr hnd
        (delete_yields (rep_right hr) hndr ho.right hbelow hpt' hfuel')
        (fun X' ↦ addrs_deleted_sublist ho.right) (deleted_outcome har her (by omega))
        (fun X' ↦ turns_of_not_deletable)
        (fun h₁ q₁ X' hrun₁ hX' ↦ (ih (rep_right hr) hndr ho.right hbelow hpt' hfuel' har her
          (by omega) (fun b hb _ ↦ hhr b hb) hX' hrun₁).2 fun a e ↦ hhr a (mem_addrs_of_ptr e))
        hel hrl hlr (by omega) hhl hdel hrun
      simp only [hklt, hkgt, if_true, if_false]
      exact ⟨hstep.1, fun hg ↦ hstep.2 (hg g rfl)⟩
    obtain rfl : k = vg.key := by omega
    simp only [Int.lt_irrefl, if_false] at hdel ⊢
    simp only [delete, reduceCtorEq, if_false, key_eq hr, left_eq hr, right_eq hr, Exec.ok_bind,
      Int.lt_irrefl] at hrun
    by_cases hl : l = .nil
    · subst hl
      rw [if_pos rfl] at hdel
      rw [ptr_nil, if_pos (.inl rfl)] at hrun
      obtain rfl := Option.some.inj hdel
      obtain ⟨hbut, hall⟩ := deleteOne_hung (e := .right) hr hnd hb hpt hhung hrun
      exact ⟨iff_of_true hbut (by simp), fun hg ↦ iff_of_true (hall (hg g rfl)) (by simp)⟩
    by_cases hrn : r = .nil
    · subst hrn
      rw [if_neg hl, if_pos rfl] at hdel
      rw [ptr_nil, if_pos (.inr rfl)] at hrun
      obtain rfl := Option.some.inj hdel
      obtain ⟨hbut, hall⟩ := deleteOne_hung (e := .left) hr hnd hb hpt hhung hrun
      exact ⟨iff_of_true hbut (by simp), fun hg ↦ iff_of_true (hall (hg g rfl)) (by simp)⟩
    -- two children
    obtain ⟨⟨m, vm⟩, hm⟩ := exists_minNode hrn
    have hpl : ptr none l ≠ none := fun e ↦ hl ((rep_left hr).eq_nil_iff.mpr e)
    have hpr : ptr none r ≠ none := fun e ↦ hrn ((rep_right hr).eq_nil_iff.mpr e)
    simp only [hl, hrn, if_false] at hdel
    obtain ⟨-, hdel⟩ := Option.ite_none_right_eq_some.mp hdel
    rw [hm, Option.bind_some] at hdel
    simp only [hpl, hpr, or_self, if_false, min_eq (rep_right hr) hm (show _ ≤ fuel by omega),
      Exec.ok_bind] at hrun
    obtain ⟨h₂, hswap, hrun⟩ := Exec.bind_eq_ok.mp hrun
    obtain ⟨c, M, rfl, hc⟩ := exists_leftSpine hm
    obtain ⟨hbut, hall⟩ := deleteSucc_hung hc hr hnd ho hb hpt (by omega) ha he (by omega) hhung hl hdel
      hswap hrun
    simp only [hl, hrn, ne_eq, not_false_eq_true, true_and]
    exact ⟨hbut, fun hg ↦ hall (hg g rfl)⟩

/-! ## Iterating afterwards -/

theorem hung_of_rep (hr : Rep none (· = ·) h (some a) p t) : Hung h t := by
  intro b hb
  rcases hr.parent_mem b hb with he | ⟨b', -, he⟩ <;> simp [he]

theorem hungBut_of_rep (hr : Rep none (· = ·) h par p t) : HungBut p h t := by
  cases t with
  | nil => exact nofun
  | node v l r =>
    obtain ⟨hp, -, -, -, hl, hrr⟩ := hr
    intro b hb hpb
    rcases mem_addrs_node.mp hb with hb | rfl | hb
    · exact hung_of_rep hl b hb
    · exact absurd hp hpb
    · exact hung_of_rep hrr b hb

/-- A loose parent link that is not null is exact. -/
theorem rep_of_hung (hr : Rep none Loose h par p t) (hh : Hung h t) :
    Rep none (· = ·) h par p t := by
  induction t generalizing par p with
  | nil => exact hr
  | node v l r ihl ihr =>
    obtain ⟨hp, hn, hd, hpar, hl, hrr⟩ := hr
    exact ⟨hp, hn, hd, hpar.resolve_left (hh v.1 (by simp [addrs])),
      ihl hl fun b hb ↦ hh b (mem_addrs_node.mpr (.inl hb)),
      ihr hrr fun b hb ↦ hh b (mem_addrs_node.mpr (.inr (.inr hb)))⟩

theorem rep_of_hungBut (hr : Rep none Loose h none p t) (hnd : (addrs t).Nodup)
    (hh : HungBut p h t) : Rep none (· = ·) h none p t := by
  cases t with
  | nil => exact hr
  | node v l r =>
    obtain ⟨a, v⟩ := v
    obtain ⟨hal, har, -⟩ := (nodup_addrs_sideNode (s := .left)).mp hnd
    obtain ⟨hp, hn, hd, hpar, hl, hrr⟩ := hr
    refine ⟨hp, hn, hd, hpar.elim id id, rep_of_hung hl fun b hb ↦ ?_, rep_of_hung hrr fun b hb ↦ ?_⟩
    · exact hh b (by simp [hb]) fun e ↦ hal (Option.some.inj (hp.symm.trans e) ▸ hb)
    · exact hh b (by simp [hb]) fun e ↦ har (Option.some.inj (hp.symm.trans e) ▸ hb)

/-- The state holds a tree of the nodes `L` in this order, with exact parent links, and iterating over
it passes all of them. -/
def Iterates (s : State) (L : List (Addr × Int)) : Prop :=
  ∃ T, Rep none (· = ·) s.cells none s.root T ∧ idents T = L ∧
    Returns (fun fuel ↦ visit fuel s) (L.map Prod.fst)

theorem iterates_of_rep {s : State} {T : Shape} (hr : Rep none (· = ·) s.cells none s.root T)
    (hnd : (addrs T).Nodup) : Iterates s (idents T) := by
  refine ⟨T, hr, rfl, ?_⟩
  rw [← addrs_eq_idents]
  by_cases hT : T = .nil
  · subst hT
    have hroot : s.root = none := hr
    refine ⟨1, fun fuel hf ↦ ?_⟩
    obtain ⟨fuel, rfl⟩ : ∃ n, fuel = n + 1 := ⟨fuel - 1, by omega⟩
    simp [visit, min, walk, hroot]
  · exact ⟨_, fun fuel hf ↦ visit_eq hr hnd hT hf⟩

/-- After a deletion from a valid AVL tree with exact parent links, the parent links are exact, and
iterating passes the remaining nodes in the order of their keys, exactly if the deletion rotates no
subtree but the whole tree. -/
theorem delete_iterates {s s' : State} {L : List (Addr × Int)} {T : Shape} (h : IsBstree s L T)
    (hret : Returns (fun fuel ↦ deleteByKey fuel s k) (s', p)) :
    Iterates s' ((idents T).filter fun i ↦ i.2 ≠ k) ↔ ¬ TurnsBelow k T := by
  have havl : IsAvl s T := ⟨h.rep.imp fun _ _ _ ↦ .inr, h.nodup, h.ordered, h.exact, h.avl⟩
  obtain ⟨N, hN⟩ := hret
  have hrun : deleteByKey (max N (T.height + 1)) s k = .ok (s', p) := hN _ (Nat.le_max_left ..)
  by_cases hT : T = .nil
  · subst hT
    have hroot : s.root = none := h.rep
    rw [deleteByKey, if_pos hroot] at hrun
    obtain ⟨rfl, -⟩ := Prod.mk.inj (Except.ok.inj hrun)
    exact iff_of_true (iterates_of_rep h.rep h.nodup) nofun
  rw [deleteByKey_eq havl hT] at hrun
  obtain ⟨⟨h', q⟩, hdel, hrun⟩ := Exec.bind_eq_ok.mp hrun
  obtain ⟨rfl, -⟩ := Prod.mk.inj (Except.ok.inj hrun)
  have hfuel : T.height < max N (T.height + 1) := Nat.lt_of_succ_le (Nat.le_max_right ..)
  have hy := havl.yields (k := k) hfuel
  cases hshape : deleted (linked s.cells) k T with
  | none =>
    rw [hshape] at hy
    exact nomatch hdel.symm.trans hy
  | some t' =>
    rw [hshape] at hy
    obtain ⟨h₁, hrun₁, hr₁, -⟩ := hy
    obtain ⟨rfl, rfl⟩ := Prod.mk.inj (Except.ok.inj (hdel.symm.trans hrun₁))
    have hhung := (delete_hung (d := .left) havl.rep h.nodup h.ordered nofun nofun hfuel h.avl h.exact
      (height_lt h.avl h.nodup) (hungBut_of_rep h.rep) hshape hdel).1
    have hnd := (addrs_deleted_sublist h.ordered hshape).nodup h.nodup
    rw [← hhung]
    constructor
    · rintro ⟨T', hr', -, -⟩
      obtain rfl := hr'.unique hr₁
      exact hungBut_of_rep (p := ptr none T') hr'
    · intro hbut
      rw [← idents_deleted h.ordered hshape]
      exact iterates_of_rep (rep_of_hungBut hr₁ hnd hbut) hnd

/-! ## Deleting from a tree of seven nodes -/

/-- The nodes of the tree in which the root's left subtree has to be rotated when the key 3 goes. -/
def sevenCells : Cells
  | 10 => ⟨some 5, some 20, none, ⟨10, 4⟩⟩
  | 5 => ⟨some 3, some 7, some 10, ⟨5, 3⟩⟩
  | 3 => ⟨none, none, some 5, ⟨3, 1⟩⟩
  | 7 => ⟨some 6, none, some 5, ⟨7, 2⟩⟩
  | 6 => ⟨none, none, some 7, ⟨6, 1⟩⟩
  | 20 => ⟨some 15, none, some 10, ⟨20, 2⟩⟩
  | 15 => ⟨none, none, some 20, ⟨15, 1⟩⟩
  | _ => ⟨none, none, none, ⟨0, 0⟩⟩

/-- The tree of these nodes. -/
def sevenNodes : State := { root := some 10, insert := insertValue, cells := sevenCells }

/-- The tree of these nodes as a shape. -/
def sevenShape : Shape :=
  .node (10, ⟨10, 4⟩)
    (.node (5, ⟨5, 3⟩) (.node (3, ⟨3, 1⟩) .nil .nil)
      (.node (7, ⟨7, 2⟩) (.node (6, ⟨6, 1⟩) .nil .nil) .nil))
    (.node (20, ⟨20, 2⟩) (.node (15, ⟨15, 1⟩) .nil .nil) .nil)

theorem isBstree_sevenNodes : IsBstree sevenNodes (idents sevenShape) sevenShape where
  rep := by simp [sevenNodes, sevenShape, sevenCells, rep_node]
  nodup := by decide
  nodes := .refl _
  ordered := by
    unfold Ordered
    decide
  exact := by simp [sevenShape, BinaryTree.height]
  avl := by simp [sevenShape, BinaryTree.height]

/-- After the key 6 has been deleted, which takes no rotation, iterating passes the other nodes. -/
theorem delete_iterates_seven : ∃ s' p,
    Returns (fun fuel ↦ deleteByKey fuel sevenNodes 6) (s', p) ∧
      Iterates s' ((idents sevenShape).filter fun i ↦ i.2 ≠ 6) := by
  have hret := (steady_deleteByKey sevenNodes 6).returns (n := 6) rfl
  exact ⟨_, _, hret, (delete_iterates isBstree_sevenNodes hret).mpr (by decide)⟩

/-- After the key 3 has been deleted, the iteration dereferences a null pointer. -/
theorem delete_breaks_iteration :
    ¬ ∀ (s s' : State) (L : List (Addr × Int)) (T : Shape) (k : Int) (p : Ptr), IsBstree s L T →
      Returns (fun fuel ↦ deleteByKey fuel s k) (s', p) →
      Iterates s' ((idents T).filter fun i ↦ i.2 ≠ k) := by
  intro hall
  have hret := (steady_deleteByKey sevenNodes 3).returns (n := 6) rfl
  obtain ⟨T', -, -, N, hN⟩ := hall _ _ _ _ _ _ isBstree_sevenNodes hret
  exact nomatch (hN (N + 9) (Nat.le_add_right N 9)).symm.trans
    (show visit (N + 9) _ = Exec.undef from rfl)

end Dlbase.Bstree
